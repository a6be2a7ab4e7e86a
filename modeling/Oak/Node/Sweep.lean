import Oak.Node.Traverser
import Oak.Lib.Kahn

/-!
# The sweep between the endpoints of a graph

`Traverser::eval_graph_bfs` of `oak-node/src/traverser.rs`: the nodes between the virtual endpoints
of a graph are evaluated in an order that follows the edges. A counter for every node holds the
number of the edges into it that are open.

* `liveNodes` : the nodes of the sweep.
* `pullAdjustedUpstreams` : what a node reads at another time is evaluated by a walk.
* `sweep`, `evalGraphBfs` : the sweep, and what it returns. `fuel` bounds the steps of the sweep and
  of every walk.

## Main results

* `SweepInv.step` : what one node of the sweep preserves.
* `evalGraphBfs_eq` : the sweep evaluates the live nodes once and in order, and returns the value
  that the recursion has for the output.
* `evalGraphBfs_rerouted` : not so when a node reads another node than the one that feeds it.
-/

namespace Oak.Node

open Oak.Core Oak.Lib Relation

variable {F β : Type*} [Interpolate F] [NodeBehavior F β]

/-! ### Endpoints and cones -/

namespace Graph

omit [Interpolate F]

variable (g : Graph F β)

/-- `endpoint_of_type`: the first live node of a type. -/
def endpointOfType (typeId : String) : Option NodeId :=
  g.nodeIds.find? fun id => (g.get id).any fun entry => NodeBehavior.typeId entry.behavior = typeId

/-- `endpoints`. -/
def endpoints : Option (NodeId × NodeId) :=
  match g.endpointOfType graphInputTypeId with
  | none => none
  | some input => (g.endpointOfType graphOutputTypeId).map fun output => (input, output)

omit [NodeBehavior F β]

/-- `upstream`: the nodes that feed a node, one for each edge. -/
def upstream (id : NodeId) : List NodeId :=
  ((g.edges.toList.filter fun e => e.target = id).map Edge.source).insertionSort (· ≤ ·)

/-- `downstream`: the nodes that a node feeds. -/
def downstream (id : NodeId) : List NodeId :=
  (((g.edges.toList.filter fun e => e.source = id).map Edge.target).insertionSort (· ≤ ·)).dedup

end Graph

section Cones

omit [Interpolate F] [NodeBehavior F β]

variable (g : Graph F β)

/-- `reachable`. -/
def reachable (root : NodeId) (upstream : Bool) : List NodeId :=
  explore (if upstream then g.upstream else g.downstream) (g.edges.toList.length + 1) [root] []

/-- `live_nodes`: what the input feeds or is fed by, of what feeds the output. -/
def liveNodes (input output : NodeId) : List NodeId :=
  let live := reachable g input false ∪ reachable g input true
  let reachesOutput := reachable g output true
  live.filter fun node => node ∈ reachesOutput

/-- The number of edges into a node from live nodes. -/
def indegree (live : List NodeId) (node : NodeId) : ℕ :=
  ((g.inputConnections node).filter fun c => c.1 ∈ live).length

/-- `find_cycle`, from a node on: upstream along the least residual nodes, until a node repeats. -/
def findCycleFrom (g : Graph F β) (residual : OrdSet NodeId) :
    ℕ → NodeId → List NodeId → List NodeId
  | 0, _, path => path
  | fuel + 1, node, path =>
    if node ∈ path then path.drop (path.idxOf node)
    else
      match (g.upstream node).find? fun source => source ∈ residual with
      | some source => findCycleFrom g residual fuel source (path ++ [node])
      | none => path ++ [node]

/-- `find_cycle`. -/
def findCycle (live : List NodeId) (degree : NodeId → ℕ) : List NodeId :=
  let residual := OrdSet.ofList (live.filter fun node => 0 < degree node)
  match residual.toList with
  | [] => []
  | start :: rest => findCycleFrom g residual (rest.length + 2) start []

end Cones

/-! ### The sweep -/

/-- The errors of a sweep: a missing endpoint, a cancellation, a cycle, and an output that was not
evaluated. -/
inductive SweepError where
  | notFound
  | state
  | cycle (path : List NodeId)
  | unreachable
  deriving DecidableEq, Repr

/-- The state of a sweep, with the number of polls of the hooks and the nodes that were evaluated,
the first one first. -/
structure Sweep (F : Type*) where
  queue : Kahn NodeId
  cache : Memo F
  done : ℕ
  polls : ℕ
  evaluated : List NodeId

/-- The frames that a walk takes from its stack. Each of them is a poll. -/
def walkFrames (g : Graph F β) (hooks : RenderHooks F) :
    ℕ → Walk NodeTime (NodeValueTable F) → ℕ
  | 0, _ => 0
  | fuel + 1, s => if s.stack.isEmpty then 0 else walkFrames g hooks fuel (walkFrame g hooks s) + 1

/-- The walk to a key, on top of the tables that there are. -/
def walkTo (key : NodeTime) (cache : Memo F) : Walk NodeTime (NodeValueTable F) :=
  ⟨cache, [key], [.enter key]⟩

/-- `pull_adjusted_upstreams`: the connections that are read at another time than `time`. -/
def pullAdjustedUpstreams (g : Graph F β) (hooks : RenderHooks F) (fuel : ℕ)
    (entry : NodeEntry F β) (time : Rational) :
    List (NodeId × String × ℤ) → ℕ → Memo F → Option (Except Error (ℕ × Memo F))
  | [], polls, cache => some (.ok (polls, cache))
  | c :: rest, polls, cache =>
    let key := upstream entry time c
    if key.2 = time || !g.isValid key.1 then
      pullAdjustedUpstreams g hooks fuel entry time rest polls cache
    else if (cache key).isSome then pullAdjustedUpstreams g hooks fuel entry time rest polls cache
    else
      match walkDfs g hooks fuel polls (walkTo key cache) with
      | none => none
      | some (.error e) => some (.error e)
      | some (.ok tables) =>
        pullAdjustedUpstreams g hooks fuel entry time rest
          (polls + walkFrames g hooks fuel (walkTo key cache)) tables

/-- A node is evaluated, unless a walk has done so. -/
def Sweep.evaluate (g : Graph F β) (hooks : RenderHooks F) (entry : NodeEntry F β) (node : NodeId)
    (time : Rational) (s : Sweep F) : Sweep F :=
  if (s.cache (node, time)).isSome then s
  else
    { s with
      cache := Function.update s.cache (node, time)
        (some (evalNode g hooks s.cache entry node time))
      evaluated := s.evaluated ++ [node] }

/-- The counters of the nodes that a node feeds. -/
def releaseTargets (g : Graph F β) (live : List NodeId) (node : NodeId) (q : Kahn NodeId) :
    Kahn NodeId :=
  (g.outputConnections node).foldl (fun q c => q.release live c.1) q

/-- One node of the sweep: the least of the ready ones. -/
def sweepNode (g : Graph F β) (hooks : RenderHooks F) (live : List NodeId) (time : Rational)
    (fuel : ℕ) (node : NodeId) (s : Sweep F) : Option (Except Error (Sweep F)) :=
  let ready := s.queue.ready.erase node
  if hooks.isCancelled s.polls then some (.error .state)
  else
    match g.get node with
    | none => some (.ok { s with queue := { s.queue with ready := ready }, polls := s.polls + 1 })
    | some entry =>
      match pullAdjustedUpstreams g hooks fuel entry time (g.inputConnections node) (s.polls + 1)
          s.cache with
      | none => none
      | some (.error e) => some (.error e)
      | some (.ok (polls, cache)) =>
        let s := Sweep.evaluate g hooks entry node time
          { s with done := s.done + 1, polls := polls, cache := cache }
        let taken := { s.queue with ready := ready, order := s.queue.order ++ [node] }
        some (.ok { s with queue := releaseTargets g live node taken })

/-- The loop of the sweep; none when the fuel does not suffice. -/
def sweepLoop (g : Graph F β) (hooks : RenderHooks F) (live : List NodeId) (time : Rational)
    (walkFuel : ℕ) : ℕ → Sweep F → Option (Except Error (Sweep F))
  | 0, s => if s.queue.ready.toList.isEmpty then some (.ok s) else none
  | fuel + 1, s =>
    match s.queue.ready.toList with
    | [] => some (.ok s)
    | node :: _ =>
      match sweepNode g hooks live time walkFuel node s with
      | some (.ok s) => sweepLoop g hooks live time walkFuel fuel s
      | result => result

/-- The sweep of the live nodes. -/
def sweep (g : Graph F β) (hooks : RenderHooks F) (fuel : ℕ) (live : List NodeId)
    (time : Rational) : Option (Except Error (Sweep F)) :=
  sweepLoop g hooks live time fuel fuel
    { queue :=
        { degree := indegree g live
          ready := OrdSet.ofList (live.filter fun node => indegree g live node = 0)
          order := [] }
      cache := fun _ => none
      done := 0
      polls := 0
      evaluated := [] }

/-- The value that is shown of a table: its texture, or else what was pushed last. -/
def NodeValueTable.shown (table : NodeValueTable F) : NodeValue F :=
  ((table.get .texture).or (table.rows.getLast?.map fun row => row.2.1)).getD .none

/-- `Traverser::eval_graph_bfs`. -/
def evalGraphBfs (g : Graph F β) (hooks : RenderHooks F) (fuel : ℕ) (time : Rational) :
    Option (Except SweepError (NodeValue F)) :=
  match g.endpoints with
  | none => some (.error .notFound)
  | some (input, output) =>
    let live := liveNodes g input output
    (sweep g hooks fuel live time).map fun result =>
      match result with
      | .error _ => .error .state
      | .ok s =>
        if s.done < live.length then .error (.cycle (findCycle g live s.queue.degree))
        else
          match s.cache (output, time) with
          | none => .error .unreachable
          | some table => .ok table.shown

/-! ### The live nodes -/

section Cones

omit [Interpolate F] [NodeBehavior F β]

variable {g : Graph F β} {a b : NodeId}

theorem Graph.mem_upstream : a ∈ g.upstream b ↔ Feeds g.edges a b := by
  rw [upstream, List.mem_insertionSort, List.mem_map]
  constructor
  · rintro ⟨e, he, rfl⟩
    obtain ⟨he, htarget⟩ := List.mem_filter.1 he
    exact ⟨e, he, rfl, of_decide_eq_true htarget⟩
  · rintro ⟨e, he, rfl, rfl⟩
    exact ⟨e, List.mem_filter.2 ⟨he, decide_eq_true rfl⟩, rfl⟩

theorem Graph.mem_downstream : b ∈ g.downstream a ↔ Feeds g.edges a b := by
  rw [downstream, List.mem_dedup, List.mem_insertionSort, List.mem_map]
  constructor
  · rintro ⟨e, he, rfl⟩
    obtain ⟨he, hsource⟩ := List.mem_filter.1 he
    exact ⟨e, he, of_decide_eq_true hsource, rfl⟩
  · rintro ⟨e, he, rfl, rfl⟩
    exact ⟨e, List.mem_filter.2 ⟨he, decide_eq_true rfl⟩, rfl⟩

theorem mem_reachable_upstream : a ∈ reachable g b true ↔ ReflTransGen (Feeds g.edges) a b := by
  have hlength (x : NodeId) :
      (g.upstream x).length ≤ g.edges.toList.countP fun e => e.target = x := by
    rw [Graph.upstream, List.length_insertionSort, List.length_map, List.countP_eq_length_filter]
  have hswap : (fun x y => y ∈ g.upstream x) = Function.swap (Feeds g.edges) := by
    ext x y
    exact Graph.mem_upstream
  rw [reachable, if_pos rfl, mem_explore hlength (Nat.lt_succ_self _), hswap, reflTransGen_swap]

theorem mem_reachable_downstream : b ∈ reachable g a false ↔ ReflTransGen (Feeds g.edges) a b := by
  have hlength (x : NodeId) :
      (g.downstream x).length ≤ g.edges.toList.countP fun e => e.source = x := by
    rw [Graph.downstream, List.countP_eq_length_filter, ← List.length_map Edge.target,
      ← List.length_insertionSort (· ≤ ·) (List.map Edge.target _)]
    exact (List.dedup_sublist _).length_le
  have hfeeds : (fun x y => y ∈ g.downstream x) = Feeds g.edges := by
    ext x y
    exact Graph.mem_downstream
  rw [reachable, if_neg (by simp), mem_explore hlength (Nat.lt_succ_self _), hfeeds]

/-- The live nodes feed the output, and they feed the input or are fed by it. -/
theorem mem_liveNodes {input output n : NodeId} : n ∈ liveNodes g input output ↔
    (ReflTransGen (Feeds g.edges) input n ∨ ReflTransGen (Feeds g.edges) n input) ∧
      ReflTransGen (Feeds g.edges) n output := by
  rw [liveNodes, List.mem_filter, decide_eq_true_eq, List.mem_union_iff, mem_reachable_downstream,
    mem_reachable_upstream, mem_reachable_upstream]

theorem nodup_liveNodes {input output : NodeId} : (liveNodes g input output).Nodup :=
  (List.Nodup.union _ (nodup_explore List.nodup_nil)).filter _

end Cones

/-! ### The counters -/

section Counters

variable {g : Graph F β} {live : List NodeId}

omit [Interpolate F] [NodeBehavior F β] in
theorem indegree_eq :
    indegree g live = Kahn.openEdges Edge.source Edge.target g.edges.toList live [] := by
  funext node
  rw [indegree, Graph.inputConnections, ← List.countP_eq_length_filter, List.countP_map,
    List.countP_filter, Kahn.openEdges]
  refine List.countP_congr fun e _ => ?_
  simp [and_comm]

omit [Interpolate F] [NodeBehavior F β] in
theorem releaseTargets_eq (node : NodeId) (q : Kahn NodeId) :
    releaseTargets g live node { q with
      ready := q.ready.erase node, order := q.order ++ [node] } =
      Kahn.take Edge.source Edge.target g.edges.toList live q node := by
  have htargets : (g.outputConnections node).map Prod.fst =
      successors Edge.source Edge.target g.edges.toList node := by
    rw [Graph.outputConnections, List.map_map]
    simp only [successors]
    rfl
  rw [releaseTargets, Kahn.take, ← List.foldl_map (f := Prod.fst), htargets]
  simp only [successors]
  congr!

end Counters

/-! ### What a sweep preserves -/

/-- The table of the recursion. -/
def tableAt (g : Graph F β) (hooks : RenderHooks F) : Memo F :=
  evalDepth g hooks (g.entries.length + 1)

theorem notMem_of_toList_eq_nil {s : OrdSet NodeId} (h : s.toList = []) (n : NodeId) : n ∉ s := by
  rw [← OrdSet.mem_toList, h]
  exact List.not_mem_nil

/-- What was taken was evaluated, once and in this order, and has the table of the recursion. -/
structure SweepInv (g : Graph F β) (hooks : RenderHooks F) (live : List NodeId) (time : Rational)
    (s : Sweep F) : Prop where
  queue : Kahn.Inv Edge.source Edge.target g.edges.toList live s.queue
  done : s.done = s.queue.order.length
  evaluated : s.evaluated = s.queue.order
  taken : ∀ n ∈ s.queue.order, s.cache (n, time) = tableAt g hooks (n, time)
  missing : ∀ n, n ∉ s.queue.order → s.cache (n, time) = none

variable {entry : NodeEntry F β} {node : NodeId}

section Run

variable {g : Graph F β} {hooks : RenderHooks F} {live : List NodeId} {time : Rational}

/-- The table of a node is evaluated from the tables of its sources. -/
theorem tableAt_eq (hacyclic : Acyclic (Pulls g)) (hget : g.get node = some entry) :
    tableAt g hooks (node, time) = some (evalNode g hooks (tableAt g hooks) entry node time) := by
  obtain ⟨rank, hlt, hrank⟩ := exists_rank hacyclic
  have hneeds : ∀ k c, (recipe g hooks).Needs k c → rank c < rank k :=
    fun k c ⟨cs, hcs, hc⟩ => hrank k c cs hcs hc
  have htable : (recipe g hooks).IsTable (tableAt g hooks) := by
    rw [tableAt, evalDepth_eq]
    exact Recipe.isTable_recur hneeds hlt
  rw [htable (node, time)]
  simp only [recipe, sources, hget, Option.map_some]

/-- The behaviors of a graph read their inputs at their own time, from the nodes of the edges. -/
structure SameTime (g : Graph F β) : Prop where
  adjust : ∀ id entry input element range, g.get id = some entry →
    NodeBehavior.inputTimeAdjustment entry.behavior entry.core input element range true = range
  source : ∀ id entry input element, g.get id = some entry →
    NodeBehavior.connectedRenderOutput entry.behavior entry.core input element = none

omit [Interpolate F] in
theorem SameTime.upstream_eq (h : SameTime g) (hget : g.get node = some entry)
    (c : NodeId × String × ℤ) : upstream entry time c = (c.1, time) := by
  rw [upstream, renderSource, h.source node entry _ _ hget, adjustedTime,
    h.adjust node entry _ _ _ hget, TimeRange.new_self]
  rfl

/-- Nothing is read at another time, so nothing is pulled. -/
theorem SameTime.pull_eq (h : SameTime g) (fuel : ℕ) (hget : g.get node = some entry)
    (conns : List (NodeId × String × ℤ)) (polls : ℕ) (cache : Memo F) :
    pullAdjustedUpstreams g hooks fuel entry time conns polls cache =
      some (.ok (polls, cache)) := by
  induction conns with
  | nil => rfl
  | cons c rest ih =>
    rw [pullAdjustedUpstreams, h.upstream_eq hget]
    simp [ih]

variable (hacyclic : Acyclic (Pulls g)) (hsame : SameTime g)
  (hcancel : ∀ n, hooks.isCancelled n = false) (hvalid : ∀ n ∈ live, g.isValid n = true)
  (hclosed : ∀ n ∈ live, ∀ m, Feeds g.edges m n → m ∈ live)

include hacyclic hsame hcancel hvalid hclosed

/-- One node of the sweep: it was not evaluated, and everything that feeds it was. -/
theorem SweepInv.step (fuel : ℕ) {s : Sweep F} (h : SweepInv g hooks live time s)
    (hready : node ∈ s.queue.ready) :
    ∃ t, sweepNode g hooks live time fuel node s = some (.ok t) ∧ SweepInv g hooks live time t ∧
      t.queue.order = s.queue.order ++ [node] := by
  obtain ⟨hlive, horder, hopen⟩ := (h.queue.ready node).1 hready
  obtain ⟨entry, hget⟩ := Option.isSome_iff_exists.1 (hvalid node hlive)
  have hsources : ∀ c ∈ g.inputConnections node, c.1 ∈ s.queue.order := by
    intro c hc
    obtain ⟨e, he, rfl⟩ := List.mem_map.1 hc
    obtain ⟨he, htarget⟩ := List.mem_filter.1 he
    have htarget : e.target = node := of_decide_eq_true htarget
    exact Kahn.openEdges_eq_zero.1 hopen e he htarget (hclosed node hlive _ ⟨e, he, rfl, htarget⟩)
  have htable : some (evalNode g hooks s.cache entry node time) = tableAt g hooks (node, time) := by
    rw [tableAt_eq hacyclic hget]
    congr 1
    refine evalNode_congr fun c hc => ?_
    rw [hsame.upstream_eq hget]
    exact h.taken c.1 (hsources c hc)
  have htaken := h.queue.take hready
  have horder' : (Kahn.take Edge.source Edge.target g.edges.toList live s.queue node).order =
      s.queue.order ++ [node] := Kahn.order_foldl_release
  have hmem (n : NodeId) : n ∈ s.queue.order ++ [node] ↔ n ∈ s.queue.order ∨ n = node := by
    rw [List.mem_append, List.mem_singleton]
  let cache := Function.update s.cache (node, time)
    (some (evalNode g hooks s.cache entry node time))
  have hself : cache (node, time) = tableAt g hooks (node, time) :=
    (Function.update_self _ _ _).trans htable
  have hother (n : NodeId) (hn : n ≠ node) : cache (n, time) = s.cache (n, time) :=
    Function.update_of_ne (fun heq => hn (congrArg Prod.fst heq)) _ _
  refine ⟨{ queue := Kahn.take Edge.source Edge.target g.edges.toList live s.queue node
            cache := cache
            done := s.done + 1
            polls := s.polls + 1
            evaluated := s.evaluated ++ [node] }, ?_, ⟨htaken, ?_, ?_, ?_, ?_⟩, horder'⟩
  · rw [sweepNode, hcancel]
    simp only [Bool.false_eq_true, if_false, hget, hsame.pull_eq fuel hget, Sweep.evaluate,
      h.missing node horder, Option.isSome_none, releaseTargets_eq, cache]
  · rw [horder', h.done, List.length_append, List.length_singleton]
  · rw [horder', h.evaluated]
  · intro n hn
    rw [horder', hmem] at hn
    by_cases hne : n = node
    · rw [hne]
      exact hself
    · exact (hother n hne).trans (h.taken n (hn.resolve_right hne))
  · intro n hn
    rw [horder', hmem, not_or] at hn
    exact (hother n hn.2).trans (h.missing n hn.1)

theorem SweepInv.loop (fuel : ℕ) {s : Sweep F} {steps : ℕ} (h : SweepInv g hooks live time s)
    (hsteps : live.length ≤ s.queue.order.length + steps) :
    ∃ t, sweepLoop g hooks live time fuel steps s = some (.ok t) ∧ SweepInv g hooks live time t ∧
      ∀ n, n ∉ t.queue.ready := by
  induction steps generalizing s with
  | zero =>
    have hnil : s.queue.ready.toList = [] := by
      rw [List.eq_nil_iff_forall_not_mem]
      intro n hn
      have := h.queue.length_lt hn
      omega
    exact ⟨s, by rw [sweepLoop, hnil]; rfl, h, notMem_of_toList_eq_nil hnil⟩
  | succ steps ih =>
    rw [sweepLoop]
    rcases hready : s.queue.ready.toList with _ | ⟨node, rest⟩
    · exact ⟨s, rfl, h, notMem_of_toList_eq_nil hready⟩
    · have hmem : node ∈ s.queue.ready := by
        rw [← OrdSet.mem_toList, hready]
        exact List.mem_cons_self
      obtain ⟨t, hstep, ht, horder⟩ :=
        h.step hacyclic hsame hcancel hvalid hclosed fuel hmem
      have hlength : live.length ≤ t.queue.order.length + steps := by
        rw [horder, List.length_append, List.length_singleton]
        omega
      obtain ⟨u, hloop, hu, hdone⟩ := ih ht hlength
      exact ⟨u, by simp only [hstep, hloop], hu, hdone⟩

end Run

/-! ### The sweep and the recursion -/

/-- Every live node was evaluated once, and after everything that feeds it. -/
structure InOrder (g : Graph F β) (live evaluated : List NodeId) : Prop where
  once : evaluated.Nodup
  all : ∀ n, n ∈ evaluated ↔ n ∈ live
  after : ∀ before n rest, evaluated = before ++ n :: rest → ∀ m, Feeds g.edges m n → m ∈ before

section Result

variable {g : Graph F β} {hooks : RenderHooks F} {carried : List (NodeId × NodeId)}
  {input output : NodeId}

omit [Interpolate F] in
theorem isValid_of_endpoints (hends : g.endpoints = some (input, output)) :
    g.isValid output = true := by
  rw [Graph.endpoints] at hends
  rcases hinput : g.endpointOfType Graph.graphInputTypeId with _ | i
  · simp [hinput] at hends
  · simp only [hinput, Option.map_eq_some_iff, Prod.mk.injEq] at hends
    obtain ⟨o, houtput, -, rfl⟩ := hends
    have hfound := List.find?_some houtput
    rw [Graph.isValid]
    rcases hget : g.get o with _ | entry
    · simp [hget] at hfound
    · rfl

omit [Interpolate F] [NodeBehavior F β] in
theorem isValid_of_reaches {live : NodeId → Prop} (hedges : EdgesOk live g.edges) {n : NodeId}
    (houtput : live output) (h : ReflTransGen (Feeds g.edges) n output) : live n := by
  rcases ReflTransGen.cases_head h with rfl | ⟨m, ⟨e, he, rfl, -⟩, -⟩
  · exact houtput
  · exact (hedges.ends e he).1

/-- When all that feeds the output is live and no input is read at another time, the sweep ends,
has evaluated every live node once and after what feeds it, and returns what the recursion has for
the output. -/
theorem evalGraphBfs_eq (hsound : g.Sound carried) (hsame : SameTime g)
    (hcancel : ∀ n, hooks.isCancelled n = false) (hends : g.endpoints = some (input, output))
    (hlive : ∀ n, ReflTransGen (Feeds g.edges) n output → n ∈ liveNodes g input output)
    (time : Rational) :
    ∃ table, evalRecursive g hooks output time = .ok table ∧ ∃ n, ∀ fuel ≥ n,
      evalGraphBfs g hooks fuel time = some (.ok table.shown) ∧
      ∃ s, sweep g hooks fuel (liveNodes g input output) time = some (.ok s) ∧
        s.cache (output, time) = some table ∧ InOrder g (liveNodes g input output) s.evaluated := by
  set live := liveNodes g input output
  have houtput := isValid_of_endpoints hends
  have hreach : ∀ n ∈ live, ReflTransGen (Feeds g.edges) n output := fun n hn =>
    (mem_liveNodes.1 hn).2
  have hvalid : ∀ n ∈ live, g.isValid n = true := fun n hn =>
    isValid_of_reaches hsound.edges houtput (hreach n hn)
  have hclosed : ∀ n ∈ live, ∀ m, Feeds g.edges m n → m ∈ live := fun n hn m hm =>
    hlive m (.head hm (hreach n hn))
  have hacyclic : Acyclic (Pulls g) := acyclic_pulls hsound.edges.acyclic hsame.source
  have hstart : SweepInv g hooks live time
      { queue :=
          { degree := indegree g live
            ready := OrdSet.ofList (live.filter fun node => indegree g live node = 0)
            order := [] }
        cache := fun _ => none
        done := 0
        polls := 0
        evaluated := [] } := by
    refine ⟨?_, rfl, rfl, fun n hn => absurd hn List.not_mem_nil, fun n _ => rfl⟩
    rw [indegree_eq]
    exact Kahn.inv_start
  obtain ⟨entry, hget⟩ := Option.isSome_iff_exists.1 houtput
  obtain ⟨table, htable⟩ : ∃ table, tableAt g hooks (output, time) = some table :=
    ⟨_, tableAt_eq hacyclic hget⟩
  refine ⟨table, ?_, live.length, fun fuel hfuel => ?_⟩
  · rw [evalRecursive, if_pos houtput]
    rw [tableAt] at htable
    rw [htable, Option.getD_some]
  have hsteps : live.length ≤ 0 + fuel := by omega
  obtain ⟨s, hsweep, hs, hready⟩ :=
    hstart.loop hacyclic hsame hcancel hvalid hclosed fuel hsteps
  have hall (n : NodeId) : n ∈ s.queue.order ↔ n ∈ live :=
    ⟨hs.queue.subset n, hs.queue.complete hready hsound.edges.acyclic⟩
  have hcache : s.cache (output, time) = some table := by
    rw [hs.taken output ((hall output).2 (hlive output .refl)), htable]
  have hdone : ¬ s.done < live.length := by
    rw [hs.done, not_lt]
    exact (List.subperm_of_subset nodup_liveNodes fun n hn => (hall n).2 hn).length_le
  refine ⟨?_, s, hsweep, hcache, ?_⟩
  · have hsweep' : sweep g hooks fuel live time = some (.ok s) := hsweep
    rw [evalGraphBfs, hends]
    simp only [live] at hsweep' hdone ⊢
    rw [hsweep', Option.map_some]
    simp only [if_neg hdone, hcache]
  · rw [hs.evaluated]
    refine ⟨hs.queue.nodup, hall, fun before n rest heq m hm => ?_⟩
    obtain ⟨e, he, rfl, rfl⟩ := hm
    have hn : e.target ∈ live := by
      rw [← hall, heq]
      exact List.mem_append_right _ List.mem_cons_self
    exact hs.queue.sources before _ rest heq e he rfl (hclosed _ hn _ ⟨e, he, rfl, rfl⟩)

end Result

/-! ### An input that is fed, and that feeds the output twice -/

/-- A number, and endpoints that relay what they read. -/
inductive Stage where
  | number (x : ℚ)
  | input
  | output

instance : NodeBehavior ℚ Stage where
  typeId b := match b with
    | .number _ => "org.olivevideoeditor.Olive.stage-test"
    | .input => Graph.graphInputTypeId
    | .output => Graph.graphOutputTypeId
  duplicate b _ := some b
  activeElementsAtTime _ _ _ := []
  connectedRenderOutput _ _ _ _ := none
  inputTimeAdjustment _ _ _ _ range _ := range
  value b _ row _ table := match b with
    | .number x => table.push .float (.float x) none
    | _ => table.push .float ((row "first").getD .none) none

/-- A number `(0, 0)`, the input `(1, 0)` that it feeds, and the output `(2, 0)` with two edges
from the input. -/
def staged : List (GraphAction ℚ Stage) :=
  [.addNode .new (.number 7), .addNode twoInputs .input, .addNode twoInputs .output,
    .connect ⟨0, 0⟩ ⟨1, 0⟩ "first" (-1), .connect ⟨1, 0⟩ ⟨2, 0⟩ "first" (-1),
    .connect ⟨1, 0⟩ ⟨2, 0⟩ "second" (-1)]

theorem sound_staged : (run GraphRun.act GraphRun.start staged).Sound := by
  have hi32 : IsI32 (-1) := ⟨by decide, by decide⟩
  exact GraphRun.sound_run ⟨trivial, trivial, trivial, hi32, hi32, hi32, trivial⟩

theorem feeds_staged {a b : NodeId}
    (h : Feeds (run GraphRun.act GraphRun.start staged).graph.edges a b) :
    a = ⟨0, 0⟩ ∧ b = ⟨1, 0⟩ ∨ a = ⟨1, 0⟩ ∧ b = ⟨2, 0⟩ := by
  obtain ⟨e, he, rfl, rfl⟩ := h
  have hall : ∀ e ∈ (run GraphRun.act GraphRun.start staged).graph.edges.toList,
      e.source = ⟨0, 0⟩ ∧ e.target = ⟨1, 0⟩ ∨ e.source = ⟨1, 0⟩ ∧ e.target = ⟨2, 0⟩ := by
    decide
  exact hall e he

theorem feeds_output_staged :
    Feeds (run GraphRun.act GraphRun.start staged).graph.edges ⟨1, 0⟩ ⟨2, 0⟩ := by
  have hany : ∃ e ∈ (run GraphRun.act GraphRun.start staged).graph.edges.toList,
      e.source = ⟨1, 0⟩ ∧ e.target = ⟨2, 0⟩ := by
    decide
  exact hany

theorem evalGraphBfs_eq_staged :
    ∃ table, evalRecursive (run GraphRun.act GraphRun.start staged).graph .offline ⟨2, 0⟩ 0 =
      .ok table ∧ ∃ n, ∀ fuel ≥ n,
      evalGraphBfs (run GraphRun.act GraphRun.start staged).graph .offline fuel 0 =
        some (.ok table.shown) ∧
      ∃ s, sweep (run GraphRun.act GraphRun.start staged).graph .offline fuel
          (liveNodes (run GraphRun.act GraphRun.start staged).graph ⟨1, 0⟩ ⟨2, 0⟩) 0 =
            some (.ok s) ∧
        s.cache (⟨2, 0⟩, 0) = some table ∧
        InOrder (run GraphRun.act GraphRun.start staged).graph
          (liveNodes (run GraphRun.act GraphRun.start staged).graph ⟨1, 0⟩ ⟨2, 0⟩) s.evaluated := by
  have hends : (run GraphRun.act GraphRun.start staged).graph.endpoints =
      some (⟨1, 0⟩, ⟨2, 0⟩) := by
    decide
  refine evalGraphBfs_eq sound_staged ⟨fun _ _ _ _ _ _ => rfl, fun _ _ _ _ _ => rfl⟩
    (fun _ => rfl) hends (fun n hn => mem_liveNodes.2 ⟨?_, hn⟩) 0
  rcases ReflTransGen.cases_tail hn with rfl | ⟨c, hreach, hfeeds⟩
  · exact .inl (.single feeds_output_staged)
  · rcases feeds_staged hfeeds with ⟨-, hc⟩ | ⟨rfl, -⟩
    · exact absurd hc (by decide)
    · exact .inr hreach

/-! ### A node that reads a sibling -/

/-- The stages, and a node that relays what it reads of another node than the one that feeds it. -/
inductive Rerouted where
  | number (x : ℚ)
  | input
  | output
  | reroute (source : NodeId)

instance : NodeBehavior ℚ Rerouted where
  typeId b := match b with
    | .input => Graph.graphInputTypeId
    | .output => Graph.graphOutputTypeId
    | _ => "org.olivevideoeditor.Olive.reroute-test"
  duplicate b _ := some b
  activeElementsAtTime _ _ _ := []
  connectedRenderOutput b _ _ _ := match b with
    | .reroute source => some source
    | _ => none
  inputTimeAdjustment _ _ _ _ range _ := range
  value b _ row _ table := match b with
    | .number x => table.push .float (.float x) none
    | _ => table.push .float ((row "first").getD .none) none

/-- The input `(0, 0)` feeds a node `(1, 0)` and a number `(2, 0)`, and both feed the output
`(3, 0)`. The node reads the number. -/
def rerouted : List (GraphAction ℚ Rerouted) :=
  [.addNode twoInputs .input, .addNode twoInputs (.reroute ⟨2, 0⟩), .addNode twoInputs (.number 7),
    .addNode twoInputs .output, .connect ⟨0, 0⟩ ⟨1, 0⟩ "first" (-1),
    .connect ⟨0, 0⟩ ⟨2, 0⟩ "first" (-1), .connect ⟨1, 0⟩ ⟨3, 0⟩ "first" (-1),
    .connect ⟨2, 0⟩ ⟨3, 0⟩ "second" (-1)]

/-- The counters follow the edges, so the node is swept before the number that it reads. -/
theorem evalGraphBfs_rerouted :
    (run GraphRun.act GraphRun.start rerouted).Sound ∧
    (run GraphRun.act GraphRun.start rerouted).graph.endpoints = some (⟨0, 0⟩, ⟨3, 0⟩) ∧
    (∀ n, ReflTransGen (Feeds (run GraphRun.act GraphRun.start rerouted).graph.edges) n ⟨3, 0⟩ →
      n ∈ liveNodes (run GraphRun.act GraphRun.start rerouted).graph ⟨0, 0⟩ ⟨3, 0⟩) ∧
    evalRecursive (run GraphRun.act GraphRun.start rerouted).graph .offline ⟨3, 0⟩ 0 =
      .ok ⟨[(.float, .float 7, none)]⟩ ∧
    ∀ fuel ≥ 5, evalGraphBfs (run GraphRun.act GraphRun.start rerouted).graph .offline fuel 0 =
      some (.ok .none) := by
  have hi32 : IsI32 (-1) := ⟨by decide, by decide⟩
  have hsound : (run GraphRun.act GraphRun.start rerouted).Sound :=
    GraphRun.sound_run ⟨trivial, trivial, trivial, trivial, hi32, hi32, hi32, hi32, trivial⟩
  have hends : (run GraphRun.act GraphRun.start rerouted).graph.endpoints =
      some (⟨0, 0⟩, ⟨3, 0⟩) := by
    decide
  have hall : ∀ n ∈ (run GraphRun.act GraphRun.start rerouted).graph.nodeIds,
      n ∈ liveNodes (run GraphRun.act GraphRun.start rerouted).graph ⟨0, 0⟩ ⟨3, 0⟩ := by
    decide
  refine ⟨hsound, hends, fun n hn => hall n (Graph.mem_nodeIds ?_), by decide, ?_⟩
  · exact isValid_of_reaches hsound.edges (isValid_of_endpoints hends) hn
  · intro fuel hfuel
    obtain ⟨k, rfl⟩ := Nat.exists_eq_add_of_le' hfuel
    rfl

end Oak.Node
