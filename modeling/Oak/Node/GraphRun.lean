import Oak.Node.Invariant
import Oak.Lib.Machine

/-!
# Runs of a graph

A run calls the operations of a graph in any order. Beside the graph, a run keeps the links that
nodes carried along into the arena and that were not made or removed since.

* `ArenaInvariant` is what the operations are meant to preserve.
* `InRange` leaves out the calls whose numbers or ids the source does not check: an element that
  is shifted past the last `i32`, and an `unlink` of a stale id.

## Main results

* `arenaInvariant_run`: the invariant holds after every run.
* `one_way_link`: a node that was taken out and put back keeps a link that its partner dropped.
-/

namespace Oak.Node

open Oak.Lib

variable {F β : Type*}

/-- The invariant of an arena; the links in `carried` may be recorded on one side only. -/
structure ArenaInvariant (g : Graph F β) (carried : List (NodeId × NodeId)) : Prop where
  free_nodup : g.freeList.Nodup
  mem_free : ∀ i, i ∈ g.freeList ↔ ∃ n, g.entries[i]? = some (.vacant n)
  node_count : g.nodeCount = g.entries.countP fun s => !s.isVacant
  edge_live : ∀ e ∈ g.edges, g.isValid e.source = true ∧ g.isValid e.target = true
  edge_single : ∀ e ∈ g.edges, ∀ e' ∈ g.edges, e.target = e'.target → e.inputKey = e'.inputKey →
    e.element = e'.element → e = e'
  links_symm : ∀ a b, g.isValid a = true → g.isValid b = true → b ∈ g.linksOf a →
    (a, b) ∉ carried → a ∈ g.linksOf b
  acyclic : Acyclic (Feeds g.edges)

variable {g : Graph F β}

theorem FreeListOk.mem_iff_vacant (h : FreeListOk g.shells g.freeList) (i : ℕ) :
    i ∈ g.freeList ↔ ∃ n, g.entries[i]? = some (.vacant n) := by
  rw [h.mem_iff, Graph.shells, List.getElem?_map]
  rcases g.entries[i]? with _ | ⟨n | e⟩ <;> simp [Slot.shell, Slot.generation, Slot.occupant]

theorem FreeListOk.nodeCount_eq (h : FreeListOk g.shells g.freeList) :
    g.nodeCount = g.entries.countP fun s => !s.isVacant := by
  have hvacant : g.freeList.length = g.entries.countP fun s => s.isVacant := by
    rw [h.length_eq, Graph.shells, List.countP_map]
    refine List.countP_congr fun s _ => ?_
    cases s <;> simp [Slot.shell, Slot.occupant, Slot.isVacant]
  have hsplit : g.entries.length = g.entries.countP (fun s => s.isVacant) +
      g.entries.countP fun s => !s.isVacant := by
    rw [List.length_eq_countP_add_countP fun s : Slot F β => s.isVacant]
    simp
  rw [Graph.nodeCount, hvacant]
  omega

theorem Graph.Sound.arenaInvariant {carried : List (NodeId × NodeId)} (h : g.Sound carried) :
    ArenaInvariant g carried where
  free_nodup := h.slots.nodup
  mem_free := h.slots.mem_iff_vacant
  node_count := h.slots.nodeCount_eq
  edge_live := h.edges.ends
  edge_single := h.edges.single
  links_symm a b _ _ hb hcarried := (h.links a b hb hcarried).2
  acyclic := h.edges.acyclic

/-! ### Runs -/

/-- A graph, with the links that nodes carried along. -/
structure GraphRun (F β : Type*) where
  graph : Graph F β
  carried : List (NodeId × NodeId)

/-- The calls of a run. -/
inductive GraphAction (F β : Type*) where
  | addNode (core : NodeCore F) (behavior : β)
  | addEntry (entry : NodeEntry F β) (id : NodeId)
  | takeNode (id : NodeId)
  | removeNode (id : NodeId)
  | connect (source target : NodeId) (input : String) (element : ℤ)
  | disconnect (source target : NodeId) (input : String) (element : ℤ)
  | disconnectInput (target : NodeId) (input : String) (element : ℤ)
  | inputArrayInsert (id : NodeId) (input : String) (index : ℤ)
  | inputArrayRemove (id : NodeId) (input : String) (index : ℤ)
  | link (a b : NodeId)
  | unlink (a b : NodeId)
  | copyNodeAndDependencyGraphMinusItems (root : NodeId)

namespace GraphRun

/-- An empty graph. -/
def start : GraphRun F β := ⟨.new, []⟩

/-- A node enters with its links. -/
def enter (r : GraphRun F β) (core : NodeCore F) (added : Graph F β × NodeId) : GraphRun F β :=
  ⟨added.1, core.links.map (fun l => (added.2, l)) ++ r.carried⟩

/-- A node leaves, unless it is stale. -/
def leave (r : GraphRun F β) (id : NodeId) : Option (Graph F β) → GraphRun F β
  | none => r
  | some g => ⟨g, r.carried.filter fun l => l.1 ≠ id⟩

/-- A call that can fail; a failed call leaves the graph as it was. -/
def attempt (r : GraphRun F β) : Except Error (Graph F β) → GraphRun F β
  | .error _ => r
  | .ok g => { r with graph := g }

/-- One call. -/
def act [NodeBehavior F β] (r : GraphRun F β) : GraphAction F β → GraphRun F β
  | .addNode core behavior => r.enter core (r.graph.addNode core behavior)
  | .addEntry entry id => r.enter entry.core (r.graph.addEntry entry id)
  | .takeNode id => r.leave id ((r.graph.takeNode id).map Prod.fst)
  | .removeNode id => r.leave id ((r.graph.removeNode id).map Prod.fst)
  | .connect source target input element => r.attempt (r.graph.connect source target input element)
  | .disconnect source target input element =>
    { r with graph := r.graph.disconnect source target input element }
  | .disconnectInput target input element =>
    { r with graph := (r.graph.disconnectInput target input element).1 }
  | .inputArrayInsert id input index => r.attempt (r.graph.inputArrayInsert id input index)
  | .inputArrayRemove id input index => r.attempt (r.graph.inputArrayRemove id input index)
  | .link a b => ⟨(r.graph.link a b).1, Graph.relinked a b (r.graph.link a b).2 r.carried⟩
  | .unlink a b => ⟨(r.graph.unlink a b).1, Graph.relinked a b (r.graph.unlink a b).2 r.carried⟩
  | .copyNodeAndDependencyGraphMinusItems root =>
    { r with graph := (r.graph.copyNodeAndDependencyGraphMinusItems root).2.graph }

/-- The elements of a call are numbers of 32 bits, also once they are shifted, and two nodes that
are unlinked are live. -/
def InRange (r : GraphRun F β) : GraphAction F β → Prop
  | .connect _ _ _ element => IsI32 element
  | .inputArrayInsert id input index =>
    ∀ e ∈ r.graph.elementsFrom id input index, e.element + 1 < 2 ^ 31
  | .unlink a b =>
    r.graph.areLinked a b = true → a ≠ b ∧ r.graph.isValid a = true ∧ r.graph.isValid b = true
  | _ => True

/-- The graph of a run is sound. -/
def Sound (r : GraphRun F β) : Prop := r.graph.Sound r.carried

variable {r : GraphRun F β}

theorem Sound.attempt (h : r.Sound) {result : Except Error (Graph F β)}
    (hok : ∀ g, result = .ok g → g.Sound r.carried) : (r.attempt result).Sound := by
  cases result with
  | error e => exact h
  | ok g => exact hok g rfl

theorem Sound.leave (h : r.Sound) {id : NodeId} {result : Option (Graph F β)}
    (hsome : ∀ g, result = some g → ∃ entry, r.graph.takeNode id = some (g, entry)) :
    (r.leave id result).Sound := by
  cases result with
  | none => exact h
  | some g =>
    obtain ⟨entry, htake⟩ := hsome g rfl
    exact Graph.Sound.takeNode h htake

theorem sound_start : (start : GraphRun F β).Sound := Graph.sound_new

theorem sound_act [NodeBehavior F β] {a : GraphAction F β} (h : r.Sound) (ha : r.InRange a) :
    (r.act a).Sound := by
  cases a with
  | addNode core behavior => exact Graph.Sound.allocate h core behavior
  | addEntry entry id => exact Graph.Sound.addEntry h entry id
  | takeNode id =>
    refine Sound.leave h fun g hg => ?_
    obtain ⟨⟨g', entry⟩, htake, rfl⟩ := Option.map_eq_some_iff.1 hg
    exact ⟨entry, htake⟩
  | removeNode id =>
    refine Sound.leave h fun g hg => ?_
    obtain ⟨⟨g', b⟩, hremove, rfl⟩ := Option.map_eq_some_iff.1 hg
    exact Graph.takeNode_of_removeNode hremove
  | connect source target input element =>
    exact Sound.attempt h fun g hg => Graph.Sound.connect h ha hg
  | disconnect source target input element => exact Graph.Sound.disconnect h _ _ _ _
  | disconnectInput target input element => exact Graph.Sound.disconnectInput h _ _ _
  | inputArrayInsert id input index =>
    exact Sound.attempt h fun g hg => Graph.Sound.inputArrayInsert h ha hg
  | inputArrayRemove id input index =>
    exact Sound.attempt h fun g hg => Graph.Sound.inputArrayRemove h hg
  | link a b => exact Graph.Sound.link h a b
  | unlink a b => exact Graph.Sound.unlink h ha
  | copyNodeAndDependencyGraphMinusItems root => exact Graph.Sound.copyDependencyGraph _ root h

theorem sound_run [NodeBehavior F β] {as : List (GraphAction F β)}
    (has : Permitted act InRange start as) : (run act (start : GraphRun F β) as).Sound :=
  invariant_run (fun _ _ => sound_act) sound_start has

/-- The invariant of the arena holds after every run. -/
theorem arenaInvariant_run [NodeBehavior F β] {as : List (GraphAction F β)}
    (has : Permitted act InRange start as) :
    ArenaInvariant (run act (start : GraphRun F β) as).graph
      (run act (start : GraphRun F β) as).carried :=
  (sound_run has).arenaInvariant

/-- A node feeds another one that is linked to it; that one is taken out, put back with its link and
linked again, which repairs the other side. -/
def relinking : List (GraphAction ℚ Plain) :=
  [.addNode .new .plain, .addNode .new .plain, .connect ⟨0, 0⟩ ⟨1, 0⟩ enabledInput (-1),
    .link ⟨0, 0⟩ ⟨1, 0⟩, .takeNode ⟨1, 0⟩,
    .addEntry ⟨{ NodeCore.new with links := [⟨0, 0⟩] }, .plain, 0⟩ ⟨1, 0⟩, .link ⟨0, 0⟩ ⟨1, 0⟩]

theorem arenaInvariant_run_relinking : ArenaInvariant (run act start relinking).graph [] := by
  have hrepaired : (run act start relinking).carried = [] := by decide
  have hrun : ArenaInvariant (run act start relinking).graph (run act start relinking).carried :=
    arenaInvariant_run ⟨trivial, trivial, ⟨by decide, by decide⟩, trivial, trivial, trivial,
      trivial, trivial⟩
  rwa [hrepaired] at hrun

/-- Two nodes are linked, and the second is taken out and put back: it lists the first one, which
does not list it. -/
theorem one_way_link : ∃ entry : NodeEntry ℚ Plain,
    ((run act (start : GraphRun ℚ Plain) [.addNode .empty .plain, .addNode .empty .plain,
      .link ⟨0, 0⟩ ⟨1, 0⟩]).graph.takeNode ⟨1, 0⟩).map Prod.snd = some entry ∧
    ¬ ArenaInvariant (run act (start : GraphRun ℚ Plain) [.addNode .empty .plain,
      .addNode .empty .plain, .link ⟨0, 0⟩ ⟨1, 0⟩, .takeNode ⟨1, 0⟩,
      .addEntry entry ⟨1, 0⟩]).graph [] := by
  refine ⟨⟨{ NodeCore.empty with links := [⟨0, 0⟩] }, .plain, 0⟩, rfl, fun h => ?_⟩
  have hback := h.links_symm ⟨1, 0⟩ ⟨0, 0⟩ (by decide) (by decide)
    (by decide) List.not_mem_nil
  exact absurd hback (by decide)

end GraphRun

end Oak.Node
