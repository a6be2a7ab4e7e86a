import Oak.Render.Slots
import Oak.Lib.Machine

/-!
# The process dispatcher

`ProcessDispatcher` of `oak-render/src/procpool.rs`: a vector of worker handles over the scheduler
and the open tickets. Its actions are the steps of `pump` and the calls of the dispatcher. They all
run under one mutex; here they come in any order, so a pump is a run of them (`pump`).

What the dispatcher does not decide is given with an action: which writes, spawns and segments
succeed, which children have exited, and which deadlines have passed.

* `Process` is a worker process as its reader thread sees it: the thread tags every line with the
  index and the generation that the process was spawned with.
* `processes`, `segments` (the process that every shared-memory segment was made for) and `applied`
  are not in the source. `applied` lists, for every line, end of file and released frame that
  reached a handle, the process that it came from and the process of the handle.
-/

namespace Oak.Render

open Oak.Lib

variable {F : Type*}

/-- `WorkerState`. -/
inductive WorkerState where
  | starting | alive | dead | permanentlyDead
  deriving DecidableEq, Repr

/-- `WorkerHandle`; `process` is the child that the handle was made for, and `child` says whether
the handle still has it. -/
structure WorkerHandle where
  generation : ℕ
  state : WorkerState
  process : ℕ
  child : Bool
  stdin : Bool
  shm : ℕ
  slots : ℕ
  slotBytes : ℕ
  table : SlotTable
  graphSent : Bool
  restarts : ℕ
  reconfiguring : Bool
  retiring : Bool
  retireSent : Bool

/-- `WorkerHandle::shell`, with its child. -/
def WorkerHandle.shell (generation process shm slots slotBytes : ℕ) : WorkerHandle where
  generation := generation
  state := .starting
  process := process
  child := true
  stdin := true
  shm := shm
  slots := slots
  slotBytes := slotBytes
  table := .shell slots
  graphSent := false
  restarts := 0
  reconfiguring := false
  retiring := false
  retireSent := false

/-- A process, with the tag of its reader thread; `ended` when its end of file was taken. -/
structure Process where
  index : ℕ
  generation : ℕ
  ended : Bool
  deriving DecidableEq, Repr

/-- The lines of a worker that `on_line` reads. -/
inductive WorkerLine where
  | handshake
  | helloCaps
  | batchAccepted
  | frameReady (ticket : ℤ) (slot : ℕ)
  | frameFailed (ticket : ℤ)
  | error (ticket : Option ℤ)
  deriving DecidableEq, Repr

/-- What a reader thread sends. -/
inductive WorkerEvent where
  | line (line : WorkerLine)
  | eof
  deriving DecidableEq, Repr

/-- `Inner`. -/
structure Dispatcher (F : Type*) where
  intake : Intake F
  slots : ℕ
  slotBytes : ℕ
  workers : List WorkerHandle
  graphSnapshot : Option String
  targetWorkers : ℕ
  resized : Bool
  nextTarget : Option ℕ
  started : Bool
  processes : List Process
  segments : List ℕ
  applied : List (ℕ × ℕ)

/-- The restart budget. -/
def maxRestarts : ℕ := 5

/-- `default_slots_for_bytes`. -/
def defaultSlotsForBytes (slotBytes currentSlots : ℕ) : ℕ :=
  max (min (max (256 * 1024 * 1024 / max slotBytes 1) 2) currentSlots) 2

/-- The steps of `pump`, and the calls of the dispatcher. -/
inductive DispatcherAction (F : Type*) where
  | start (spawns : ℕ → Bool)
  | post (job : Job F)
  | setTargetWorkers (target : ℕ) (recent : Bool) (spawns : ℕ → Bool)
  | applyNextTarget (recent : Bool) (spawns : ℕ → Bool)
  | event (process : ℕ) (event : WorkerEvent) (written : Bool)
  | restart (worker : ℕ) (timedOut spawns : Bool)
  | dispatch (worker : ℕ) (created : Bool) (written : ℕ)
  | signalRetiring
  | reap (exited overdue : ℕ → Bool)
  | releaseFrame (worker shm slot : ℕ)
  | cancelFrame (key : FrameKey)
  | cancelPreviewSequence (sequence : ℕ)
  | setGraphSnapshot (path : Option String) (written : ℕ → Bool)
  | broadcastPluginCancel (written : ℕ → Bool)

/-- The slot format of the tickets, and the order of the table of claims. -/
structure DispatcherConfig where
  slotFormat : ℤ
  order : List (FrameRequest ℤ) → List (FrameRequest ℤ)
  order_perm : ∀ l, (order l).Perm l

variable (h : WorkerHandle)

namespace WorkerHandle

/-- `send_json`: the state is dead when a message is not written. -/
def send (written : Bool) : WorkerHandle :=
  if h.stdin && written then h else { h with state := .dead }

/-- The child is gone, with its tickets and the frames it served. -/
def clear : WorkerHandle :=
  { h with
    child := false
    stdin := false
    graphSent := false
    table := { h.table with held := [], outstanding := [] }
    restarts := h.restarts + 1 }

/-- The worker has another segment, to which it is not attached yet. -/
def attach (shm slots slotBytes : ℕ) : WorkerHandle :=
  { h with
    shm := shm
    slots := slots
    slotBytes := slotBytes
    table := { h.table with freeSlots := List.range slots, held := [] }
    reconfiguring := true }

/-- `hello_caps`: the worker is attached. -/
def greet : WorkerHandle := { h with state := .alive, reconfiguring := false }

/-- The worker has a process that may still answer. -/
def isRunning : Bool := h.state = .alive || h.state = .starting

/-- A retiring worker whose slots are all free was not told to shut down yet. -/
def isSignaled : Bool :=
  h.retiring && h.table.outstanding.isEmpty && h.table.held.isEmpty && !h.retireSent && h.isRunning

/-- A retiring worker is reaped when its child is gone, or overdue after the shutdown message. -/
def isReaped (exited overdue : ℕ → Bool) : Bool :=
  h.retiring && (!h.child || exited h.process || h.retireSent && overdue h.process)

/-- A worker that is neither retiring nor down for good. -/
def isServing : Bool := !h.retiring && h.state ≠ .permanentlyDead

end WorkerHandle

namespace Dispatcher

/-- `new`. -/
def new (workers batchSize slots slotBytes : ℕ) : Dispatcher F where
  intake := ⟨.new workers batchSize, [], 1⟩
  slots := slots
  slotBytes := slotBytes
  workers := []
  graphSnapshot := none
  targetWorkers := workers
  resized := false
  nextTarget := none
  started := false
  processes := []
  segments := []
  applied := []

variable (c : DispatcherConfig) (s : Dispatcher F)

/-- One handle is changed. -/
def modify (worker : ℕ) (f : WorkerHandle → WorkerHandle) : Dispatcher F :=
  { s with workers := s.workers.modify worker f }

/-- `spawn_worker`: a handle that is there is replaced and keeps its restart counter, which is the
generation of the child. -/
def spawnWorker (index : ℕ) : Dispatcher F :=
  let restarts := (s.workers[index]?.map WorkerHandle.restarts).getD 0
  let handle : WorkerHandle :=
    { WorkerHandle.shell restarts s.processes.length s.segments.length s.slots s.slotBytes with
      restarts := restarts }
  { s with
    workers := if index < s.workers.length then s.workers.set index handle
      else s.workers ++ [handle]
    processes := s.processes ++ [⟨index, restarts, false⟩]
    segments := s.segments ++ [s.processes.length] }

/-- Workers are spawned at the given places, up to the first that fails. -/
def spawnWorkers (spawns : ℕ → Bool) : Dispatcher F → List ℕ → Dispatcher F
  | s, [] => s
  | s, i :: is => if spawns i then spawnWorkers spawns (s.spawnWorker i) is else s

/-- `start`, without the wait for the handshakes. -/
def start (spawns : ℕ → Bool) : Dispatcher F :=
  if s.started then s
  else { s with started := true }.spawnWorkers spawns (List.range s.intake.scheduler.workers)

/-- `apply_target_workers`: missing workers are spawned, or the workers past the target retire. -/
def applyTargetWorkers (target : ℕ) (spawns : ℕ → Bool) : Dispatcher F :=
  let target := max target 1
  if s.targetWorkers = target then { s with resized := true, nextTarget := none }
  else
    let resized : Dispatcher F :=
      if s.workers.length < target then
        s.spawnWorkers spawns
          ((List.range (target - s.workers.length)).map fun i => s.workers.length + i)
      else
        { s with workers := s.workers.mapIdx fun i h =>
            if target ≤ i ∧ h.isRunning then { h with retiring := true } else h }
    { resized with
      targetWorkers := target
      intake := { resized.intake with
        scheduler := resized.intake.scheduler.setWorkerCount target }
      resized := true
      nextTarget := none }

/-- `set_target_workers`: soon after a resize, the target is kept for later. -/
def setTargetWorkers (target : ℕ) (recent : Bool) (spawns : ℕ → Bool) : Dispatcher F :=
  let target := max target 1
  if !s.started then s
  else if s.resized && recent then
    if s.targetWorkers ≠ target then { s with nextTarget := some target } else s
  else s.applyTargetWorkers target spawns

/-- The first step of `pump`: a target that was kept is applied later. -/
def applyNextTarget (recent : Bool) (spawns : ℕ → Bool) : Dispatcher F :=
  match s.nextTarget with
  | none => s
  | some target => if s.resized && recent then s else s.applyTargetWorkers target spawns

/-- `on_frame_ready`. -/
def onFrameReady (worker : ℕ) (ticket : ℤ) (slot : ℕ) : Dispatcher F :=
  match s.workers[worker]? with
  | none => s
  | some handle =>
    match s.intake.onFrameReady handle.table ticket slot with
    | none => s
    | some (t, table, _) =>
      { s with intake := t }.modify worker fun h => { h with table := table }

/-- `on_frame_failed`. -/
def onFrameFailed (worker : ℕ) (ticket : ℤ) : Dispatcher F :=
  match s.workers[worker]? with
  | none => s
  | some handle =>
    match s.intake.onFrameFailed handle.table ticket with
    | none => s
    | some (t, table, _) =>
      { s with intake := t }.modify worker fun h => { h with table := table }

variable (worker : ℕ)

/-- `on_line`. -/
def onLine (line : WorkerLine) (written : Bool) : Dispatcher F :=
  match line with
  | .handshake => s.modify worker fun h => h.send written
  | .helloCaps => s.modify worker fun h =>
      if !h.graphSent && s.graphSnapshot.isSome then { h.greet with graphSent := true }.send written
      else h.greet
  | .batchAccepted => s
  | .frameReady ticket slot => s.onFrameReady worker ticket slot
  | .frameFailed ticket => s.onFrameFailed worker ticket
  | .error (some ticket) => s.onFrameFailed worker ticket
  | .error none => s.modify worker fun h =>
      if h.state = .starting then { h with state := .dead } else h

/-- The event of a process goes by its tag: to the handle at its index, if that handle has its
generation. -/
def event (process : ℕ) (event : WorkerEvent) (written : Bool) : Dispatcher F :=
  match s.processes[process]? with
  | none => s
  | some p =>
    if p.ended then s
    else
      let s : Dispatcher F :=
        match event with
        | .line _ => s
        | .eof => { s with processes := s.processes.set process { p with ended := true } }
      match s.workers[p.index]? with
      | none => s
      | some handle =>
        if handle.generation ≠ p.generation then s
        else
          let s : Dispatcher F := { s with applied := s.applied ++ [(process, handle.process)] }
          match event with
          | .line line => s.onLine p.index line written
          | .eof => s.modify p.index fun h =>
              if h.state = .permanentlyDead then h else { h with state := .dead }

/-- `restart_worker`. -/
def restartWorker (spawns : Bool) : Dispatcher F :=
  match s.workers[worker]? with
  | none => s
  | some handle =>
    let crashed := s.intake.crash c.order worker
    let cleared : Dispatcher F := { s with intake := crashed.1 }.modify worker WorkerHandle.clear
    if handle.retiring then { cleared with workers := cleared.workers.eraseIdx worker }
    else if maxRestarts < handle.restarts + 1 then
      { cleared with intake := cleared.intake.drop crashed.2 }.modify worker fun h =>
        { h with state := .permanentlyDead }
    else if spawns then cleared.spawnWorker worker
    else cleared.modify worker fun h => { h with state := .dead }

/-- The second step of `pump` restarts a worker that is dead, or whose handshake is late, unless it
is retiring. -/
def isRestarted (timedOut : Bool) : Bool :=
  s.workers[worker]?.any fun h =>
    !h.retiring && (h.state = .dead || h.state = .starting && timedOut)

/-- `rebuild_segment`: the worker gets a segment with larger slots. -/
def rebuildSegment (worker need : ℕ) (written : Bool) : Dispatcher F :=
  match s.workers[worker]? with
  | none => s
  | some handle =>
    let slots := defaultSlotsForBytes need handle.slots
    { s with segments := s.segments ++ [handle.process] }.modify worker fun h =>
      (h.attach s.segments.length slots need).send written

/-- One round of `dispatch_to`: a claim, or a larger segment. -/
def dispatch (worker : ℕ) (created : Bool) (written : ℕ) : Dispatcher F :=
  match s.workers[worker]? with
  | none => s
  | some handle =>
    if handle.state ≠ .alive ∨ handle.reconfiguring ∨ handle.retiring then s
    else if handle.table.freeSlots.isEmpty then s
    else
      match if handle.table.outstanding.isEmpty then
          s.intake.scheduler.maxPendingBytesForWorker worker handle.slotBytes else none with
      | some need => if created then s.rebuildSegment worker need (written ≠ 0) else s
      | none =>
        match s.intake.dispatch worker handle.table handle.slotBytes c.slotFormat with
        | none => s
        | some (t, table, messages) =>
          { s with intake := t }.modify worker fun h =>
            { h with table := table }.send (messages.length ≤ written)

/-- A round changes nothing, or attaches a larger segment, or hands out a claim. -/
theorem dispatch_induction {c : DispatcherConfig} {s : Dispatcher F} {worker : ℕ} {created : Bool}
    {written : ℕ} {motive : Dispatcher F → Prop} (same : motive s)
    (rebuild : ∀ need written, motive (s.rebuildSegment worker need written))
    (claim : ∀ handle t table messages, s.workers[worker]? = some handle →
      s.intake.dispatch worker handle.table handle.slotBytes c.slotFormat =
        some (t, table, messages) →
      motive ({ s with intake := t }.modify worker fun h =>
        { h with table := table }.send (messages.length ≤ written))) :
    motive (s.dispatch c worker created written) := by
  rw [dispatch]
  split
  · exact same
  next handle hhandle =>
  generalize (if handle.table.outstanding.isEmpty = true then
    s.intake.scheduler.maxPendingBytesForWorker worker handle.slotBytes else none) = grow
  split
  · exact same
  split
  · exact same
  cases grow with
  | some need =>
    dsimp only
    split_ifs
    · exact rebuild need _
    · exact same
  | none =>
    dsimp only
    split
    · exact same
    next t table messages hdispatch => exact claim handle t table messages hhandle hdispatch

/-- The shutdown messages of the fourth step of `pump`. -/
def signalRetiring : Dispatcher F :=
  { s with workers := s.workers.map fun h =>
      if h.isSignaled then { h with retireSent := true } else h }

/-- The worker at a place is reaped. -/
def isReaped (exited overdue : ℕ → Bool) (worker : ℕ) : Bool :=
  s.workers[worker]?.any fun h => h.isReaped exited overdue

/-- A worker is removed, and its claims come back as pending. -/
def removeWorker : Dispatcher F :=
  { s with
    workers := s.workers.eraseIdx worker
    intake := (s.intake.crash c.order worker).1 }

/-- The workers with a flag are removed, the last first. -/
def removeReaped (reaped : ℕ → Bool) : ℕ → Dispatcher F → Dispatcher F
  | 0, s => s
  | n + 1, s => removeReaped reaped n (if reaped n then s.removeWorker c n else s)

/-- The end of the fourth step of `pump`. -/
def reap (exited overdue : ℕ → Bool) : Dispatcher F :=
  s.removeReaped c (s.isReaped exited overdue) s.workers.length

/-- `release_frame`: the frame names the place of its worker and its segment, and it is stale when
the worker there has another segment. -/
def releaseFrame (worker shm slot : ℕ) : Dispatcher F :=
  match s.workers[worker]? with
  | none => s
  | some handle =>
    if handle.shm ≠ shm then s
    else
      match handle.table.release slot with
      | none => s
      | some table =>
        { s with applied := s.applied ++ [(s.segments.getD shm 0, handle.process)] }.modify worker
          fun h => { h with table := table }

/-- A message to every running worker. -/
def broadcast (f : WorkerHandle → WorkerHandle) (written : ℕ → Bool) : Dispatcher F :=
  { s with workers := s.workers.mapIdx fun i h =>
      if h.isRunning then (f h).send (written i) else h }

/-- `set_graph_snapshot`. -/
def setGraphSnapshot (path : Option String) (written : ℕ → Bool) : Dispatcher F :=
  let s : Dispatcher F := { s with graphSnapshot := path }
  if path.isSome then s.broadcast (fun h => { h with graphSent := true }) written else s

/-- One action. -/
def act (s : Dispatcher F) : DispatcherAction F → Dispatcher F
  | .start spawns => s.start spawns
  | .post job => { s with intake := s.intake.post c.slotFormat job }
  | .setTargetWorkers target recent spawns => s.setTargetWorkers target recent spawns
  | .applyNextTarget recent spawns => s.applyNextTarget recent spawns
  | .event process event written => s.event process event written
  | .restart worker timedOut spawns =>
    if s.isRestarted worker timedOut then s.restartWorker c worker spawns else s
  | .dispatch worker created written => s.dispatch c worker created written
  | .signalRetiring => s.signalRetiring
  | .reap exited overdue => s.reap c exited overdue
  | .releaseFrame worker shm slot => s.releaseFrame worker shm slot
  | .cancelFrame key => { s with intake := s.intake.cancelFrame key }
  | .cancelPreviewSequence sequence => { s with intake := s.intake.cancelSequence c.order sequence }
  | .setGraphSnapshot path written => s.setGraphSnapshot path written
  | .broadcastPluginCancel written => s.broadcast id written

/-- The actions of a `pump` over `workers` workers: the events are taken, dead workers are
restarted, every worker is sent up to `rounds` batches, and retired workers are reaped. -/
def pump (workers rounds : ℕ) (events : List (ℕ × WorkerEvent)) (exited : ℕ → Bool) :
    List (DispatcherAction F) :=
  [.applyNextTarget false fun _ => true] ++ events.map (fun e => .event e.1 e.2 true) ++
    (List.range workers).map (fun i => .restart i false true) ++
    (List.range workers).flatMap (fun i => List.replicate rounds (.dispatch i true 2)) ++
    [.signalRetiring, .reap exited fun _ => false]

end Dispatcher

end Oak.Render
