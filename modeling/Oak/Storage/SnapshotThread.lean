import Oak.Lib.Machine
import Mathlib.Logic.Function.Iterate

/-!
# The snapshot thread and the exit flush

The snapshot thread sleeps for an interval in a timed wait on a condition variable, reads the stop
flag and makes a pass over the dirty bindings. The exit flush sets the flag, notifies the condition
variable and joins the thread. The two meet only in the critical sections of `SNAPSHOT`, so a run is
any interleaving of the stretches between these.

* `ThreadPc` and `MainPc` say where the two threads are.
* `act` takes the next stretch of one of them, or lets a wait time out.
* `Prompt` says that a thread that was told to stop ends without another wait.

The loop does not read the flag before it waits. A notification that arrives while the thread is
on its way into the wait is lost, and the join lasts for the interval.

## Main results

* `prompt_act_iff`: what one step does to a prompt end.
* `flush_run_iff`: the runs in which the flush never waits for the interval.
-/

namespace Oak.Storage.SnapshotThread

open Oak.Lib (run Permitted forall_run_iff)

/-- Where `snapshot_loop` is. -/
inductive ThreadPc
  /-- At the head of the loop: `snapshot_tick`, and then the lock. -/
  | tick
  /-- In `wait_timeout`, with the lock given up. -/
  | waiting
  /-- Out of the wait, about to read `stop`. -/
  | woken
  /-- In `snapshot_dirty`. -/
  | dirty
  | finished
  deriving DecidableEq

/-- Where the main thread is. -/
inductive MainPc
  /-- Outside `flush_all`. -/
  | idle
  /-- After `stop` was set, at `notify_all`. -/
  | notify
  /-- About to take the handle. -/
  | take
  /-- In `join`. -/
  | join
  /-- In `flush_one`, for one binding after the other. -/
  | drain
  deriving DecidableEq

/-- The two threads and what they share. -/
structure State where
  stop : Bool
  /-- `rt.handle` holds the handle of the thread. -/
  handle : Bool
  /-- The thread that was spawned last. -/
  thread : Option ThreadPc
  main : MainPc
  deriving DecidableEq

/-- What happens next. -/
inductive Action
  /-- A bind, which makes sure that the thread runs. -/
  | bind
  /-- `flush_all` is called. -/
  | flush
  /-- The main thread goes on with `flush_all`. -/
  | main
  /-- The snapshot thread goes on. -/
  | thread
  /-- The interval of the wait has passed, or the wait ends for no reason. -/
  | timeout
  deriving DecidableEq

/-- Before the first bind. -/
def start : State := ⟨false, false, none, .idle⟩

/-- The thread after its next stretch. It does not leave a wait by itself. -/
def ThreadPc.next (stop : Bool) : ThreadPc → ThreadPc
  -- the lock is taken and given up again by the wait, with no look at `stop`
  | .tick => .waiting
  | .waiting => .waiting
  | .woken => if stop then .finished else .dirty
  | .dirty => .tick
  | .finished => .finished

/-- The end of a wait. A thread that is not in it does not notice. -/
def ThreadPc.wake : ThreadPc → ThreadPc
  | .waiting => .woken
  | pc => pc

variable (s : State)

/-- `ensure_thread` -/
def State.ensureThread : State :=
  if s.handle ∧ s.thread ≠ some .finished then s
  else { s with stop := false, handle := true, thread := some .tick }

/-- The next critical section of `flush_all`. -/
def State.flushOn : State :=
  match s.main with
  | .idle => s
  | .notify => { s with thread := s.thread.map ThreadPc.wake, main := .take }
  | .take => { s with handle := false, main := if s.handle then .join else .drain }
  -- the join blocks until the thread has ended
  | .join => if s.thread = some .finished then { s with main := .drain } else s
  | .drain => { s with main := .idle }

/-- One step of a run. What a thread cannot do changes nothing. -/
def act : Action → State
  | .bind => if s.main = .idle then s.ensureThread else s
  | .flush => if s.main = .idle then { s with stop := true, main := .notify } else s
  | .main => s.flushOn
  | .thread => { s with thread := s.thread.map (ThreadPc.next s.stop) }
  | .timeout => { s with thread := s.thread.map ThreadPc.wake }

/-- The flush has notified, and has not joined the thread yet. -/
def State.Stopping : Prop := s.main = .take ∨ s.main = .join

/-- Left to itself the thread never enters a wait, and comes to its end. -/
def ThreadPc.Ends (stop : Bool) (pc : ThreadPc) : Prop :=
  (∀ n, (ThreadPc.next stop)^[n] pc ≠ .waiting) ∧ ∃ n, (ThreadPc.next stop)^[n] pc = .finished

/-- Once the flush has notified, the thread ends without a wait, so that the join does not last
for an interval. A wait between the setting of `stop` and the notification is cut short. -/
def Prompt : Prop := s.Stopping → ∀ pc ∈ s.thread, pc.Ends s.stop

/-- The flush does not notify while the thread is on its way into a wait, which is so in a pass
over the bindings, after it, and before the first wait. -/
def Heard : Action → Prop
  | .main => s.main = .notify → ∀ pc ∈ s.thread, pc ≠ .tick ∧ pc ≠ .dirty
  | _ => True

/-! ### The end of the thread -/

theorem ends_iff (pc : ThreadPc) : pc.Ends true ↔ pc = .woken ∨ pc = .finished := by
  have hfixed : ∀ n, (ThreadPc.next true)^[n] .finished = .finished :=
    fun n => Function.iterate_fixed rfl n
  constructor
  · rintro ⟨hwait, -⟩
    cases pc with
    | tick => exact absurd rfl (hwait 1)
    | waiting => exact absurd rfl (hwait 0)
    | woken => exact Or.inl rfl
    | dirty => exact absurd rfl (hwait 2)
    | finished => exact Or.inr rfl
  · rintro (rfl | rfl)
    · refine ⟨fun n => ?_, 1, rfl⟩
      cases n with
      | zero => exact nofun
      | succ n =>
        rw [Function.iterate_succ_apply, show ThreadPc.next true .woken = .finished from rfl,
          hfixed n]
        exact nofun
    · exact ⟨fun n => by rw [hfixed n]; exact nofun, 0, rfl⟩

theorem ends_next {pc : ThreadPc} (h : pc.Ends true) : (pc.next true).Ends true := by
  rw [ends_iff] at h ⊢
  rcases h with rfl | rfl
  · exact Or.inr rfl
  · exact Or.inr rfl

theorem wake_of_ends {pc : ThreadPc} (h : pc.Ends true) : pc.wake = pc := by
  rcases (ends_iff pc).1 h with rfl | rfl
  · rfl
  · rfl

/-- Exactly the threads that are not on their way into a wait hear a notification. -/
theorem ends_wake_iff (pc : ThreadPc) : pc.wake.Ends true ↔ pc ≠ .tick ∧ pc ≠ .dirty := by
  rw [ends_iff]
  cases pc with
  | tick => decide
  | waiting => decide
  | woken => decide
  | dirty => decide
  | finished => decide

/-! ### Runs -/

/-- Until it has joined the thread, the flush keeps `stop` set. -/
def Inv : Prop := s.main = .notify ∨ s.Stopping → s.stop = true

theorem Inv.act {s : State} (h : Inv s) (a : Action) : Inv (act s a) := by
  cases a with
  | bind =>
    dsimp only [SnapshotThread.act]
    split_ifs with hmain
    · rw [State.ensureThread]
      split_ifs
      · exact h
      · rintro (hm | hm | hm) <;> exact nomatch hmain.symm.trans hm
    · exact h
  | flush =>
    dsimp only [SnapshotThread.act]
    split_ifs
    · exact fun _ => rfl
    · exact h
  | main =>
    dsimp only [SnapshotThread.act, State.flushOn]
    split
    case h_1 => exact h
    case h_2 hmain => exact fun _ => h (Or.inl hmain)
    case h_3 hmain => exact fun _ => h (Or.inr (Or.inl hmain))
    case h_4 hmain =>
      split_ifs
      · rintro (hm | hm | hm) <;> exact nomatch hm
      · exact h
    case h_5 => rintro (hm | hm | hm) <;> exact nomatch hm
  | thread => exact h
  | timeout => exact h

theorem prompt_of_not_stopping {s : State} (h : ¬s.Stopping) : Prompt s := fun hs => absurd hs h

theorem not_stopping_of_main {s : State} {pc : MainPc} (h : s.main = pc) (htake : pc ≠ .take)
    (hjoin : pc ≠ .join) : ¬s.Stopping := by
  rintro (hs | hs)
  · exact htake (h.symm.trans hs)
  · exact hjoin (h.symm.trans hs)

/-- The flush goes on: the one step that matters is the notification. -/
theorem prompt_flushOn_iff {s : State} (hinv : Inv s) (h : Prompt s) :
    Prompt s.flushOn ↔ (s.main = .notify → ∀ pc ∈ s.thread, pc ≠ .tick ∧ pc ≠ .dirty) := by
  unfold State.flushOn
  split
  case h_1 hmain => exact iff_of_true h fun hm => nomatch hmain.symm.trans hm
  case h_2 hmain =>
    have hstop : s.stop = true := hinv (Or.inl hmain)
    constructor
    · intro hp _ pc hpc
      have hends := hp (Or.inl rfl) pc.wake (Option.map_eq_some_iff.2 ⟨pc, hpc, rfl⟩)
      exact (ends_wake_iff pc).1 (hstop ▸ hends)
    · intro hheard _ pc hpc
      obtain ⟨pc', hpc', rfl⟩ := Option.map_eq_some_iff.1 hpc
      exact hstop ▸ (ends_wake_iff pc').2 (hheard hmain pc' hpc')
  case h_3 hmain =>
    exact iff_of_true (fun _ => h (Or.inl hmain)) fun hm => nomatch hmain.symm.trans hm
  case h_4 hmain =>
    refine iff_of_true ?_ fun hm => nomatch hmain.symm.trans hm
    split_ifs
    · exact prompt_of_not_stopping (not_stopping_of_main rfl nofun nofun)
    · exact h
  case h_5 hmain =>
    exact iff_of_true (prompt_of_not_stopping (not_stopping_of_main rfl nofun nofun))
      fun hm => nomatch hmain.symm.trans hm

theorem prompt_act_iff {s : State} (a : Action) (hinv : Inv s) (h : Prompt s) :
    Prompt (act s a) ↔ Heard s a := by
  cases a with
  | bind =>
    refine iff_of_true ?_ trivial
    dsimp only [act]
    split_ifs with hmain
    · rw [State.ensureThread]
      split_ifs
      · exact h
      · exact prompt_of_not_stopping (not_stopping_of_main hmain nofun nofun)
    · exact h
  | flush =>
    refine iff_of_true ?_ trivial
    dsimp only [act]
    split_ifs
    · exact prompt_of_not_stopping (not_stopping_of_main rfl nofun nofun)
    · exact h
  | main => exact prompt_flushOn_iff hinv h
  | thread =>
    refine iff_of_true (fun hs pc hpc => ?_) trivial
    have hstop : s.stop = true := hinv (Or.inr hs)
    obtain ⟨pc', hpc', rfl⟩ := Option.map_eq_some_iff.1 hpc
    dsimp only [act]
    rw [hstop]
    exact ends_next (hstop ▸ h hs pc' hpc')
  | timeout =>
    refine iff_of_true (fun hs pc hpc => ?_) trivial
    have hstop : s.stop = true := hinv (Or.inr hs)
    obtain ⟨pc', hpc', rfl⟩ := Option.map_eq_some_iff.1 hpc
    have hends : pc'.Ends true := hstop ▸ h hs pc' hpc'
    rw [wake_of_ends hends]
    exact h hs pc' hpc'

theorem inv_start : Inv start := by
  rintro (h | h | h)
  · exact absurd h (by decide)
  · exact absurd h (by decide)
  · exact absurd h (by decide)

/-- In every interleaving of the thread with binds and flushes, the thread ends without another
wait once it was told to stop, exactly when no flush notified while the thread was on its way into
a wait. -/
theorem flush_run_iff (as : List Action) :
    (∀ bs cs, as = bs ++ cs → Prompt (run act start bs)) ↔ Permitted act Heard start as := by
  have hinv : ∀ s a, Inv s → Inv (act s a) := fun s a h => h.act a
  have hstep : ∀ s a, Inv s → Prompt s → (Prompt (act s a) ↔ Heard s a) :=
    fun s a hs h => prompt_act_iff a hs h
  exact forall_run_iff hinv hstep inv_start
    (prompt_of_not_stopping (not_stopping_of_main (s := start) rfl nofun nofun))

/-- A flush right after the first bind: the notification comes before the first wait, which then
lasts for the interval while the flush waits in the join. -/
theorem flush_before_first_wait : ¬∀ as : List Action, Prompt (run act start as) := by
  intro h
  have hends := h [.bind, .flush, .main] (Or.inl rfl) .tick rfl
  exact hends.1 1 rfl

end Oak.Storage.SnapshotThread
