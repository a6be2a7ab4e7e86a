import Oak.Node.Copy
import Oak.Node.Heap

/-!
# Filling a graph

The operations that fill a new project with nodes. `Grows n S T g g'` says what a part of such a
construction may do: `g'` has at most `n` more slots than `g`, the nodes of `g` outside `S` are as
they were, and a node of `g` has a new edge into it only when it is in `T`. Nodes that are made on
the way are in neither set, since `g` does not have them.

## Main results

* `Grows.trans`: one part after another.
* `Grows.addNode`, `Grows.modifyBehavior`, `Grows.modifyCore`, `Grows.tryConnect`: the parts.
-/

namespace Oak.Node.Graph

open Oak.Lib

variable {F β : Type*} {g g' g'' : Graph F β} {S U T V : Set NodeId} {n m : ℕ} {id x : NodeId}

/-! ### The operations -/

/-- `get_mut`: the core of a node is changed by `f`, if the node is live. -/
def modifyCore (g : Graph F β) (f : NodeCore F → NodeCore F) (id : NodeId) : Graph F β :=
  match g.get id with
  | none => g
  | some entry => g.setCore id entry (f entry.core)

/-- `connect` at the whole input; a connection that is refused is not made. -/
def tryConnect (g : Graph F β) (source target : NodeId) (input : String) : Graph F β :=
  match g.connect source target input (-1) with
  | .ok g' => g'
  | .error _ => g

variable (f : NodeCore F → NodeCore F)

@[simp] theorem behaviorOf_modifyCore : (g.modifyCore f id).behaviorOf x = g.behaviorOf x := by
  rcases h : g.get id with _ | entry
  · rw [modifyCore, h]
  · rw [modifyCore, h]
    show ((g.setCore id entry (f entry.core)).get x).map NodeEntry.behavior = _
    rw [get_setCore h]
    split_ifs with hx
    · rw [hx, behaviorOf, h]
      rfl
    · rfl

@[simp] theorem freeList_modifyCore : (g.modifyCore f id).freeList = g.freeList := by
  rw [modifyCore]
  split <;> rfl

@[simp] theorem length_modifyCore : (g.modifyCore f id).entries.length = g.entries.length := by
  rw [modifyCore]
  split
  · rfl
  · exact List.length_set

@[simp] theorem edges_modifyCore : (g.modifyCore f id).edges = g.edges := by
  rw [modifyCore]
  split <;> rfl

variable (source target : NodeId) (input : String)

@[simp] theorem behaviorOf_tryConnect :
    (g.tryConnect source target input).behaviorOf x = g.behaviorOf x := by
  rcases h : g.connect source target input (-1) with _ | g'
  · rw [tryConnect, h]
  · rw [tryConnect, h]
    exact congrArg _ (get_connect h)

@[simp] theorem freeList_tryConnect : (g.tryConnect source target input).freeList = g.freeList := by
  rcases h : g.connect source target input (-1) with _ | g'
  · rw [tryConnect, h]
  · rw [tryConnect, h]
    exact (connect_spec h).2.1

@[simp] theorem length_tryConnect :
    (g.tryConnect source target input).entries.length = g.entries.length := by
  rcases h : g.connect source target input (-1) with _ | g'
  · rw [tryConnect, h]
  · rw [tryConnect, h]
    exact congrArg List.length (connect_spec h).1

theorem behaviorOf_target_of_connect {source target : NodeId} {input : String} {element : ℤ}
    (h : g.connect source target input element = .ok g') : g.behaviorOf target ≠ none := by
  obtain ⟨-, entry, -, -, hget, -⟩ := connect_cases h
  rw [behaviorOf, hget]
  simp

theorem mem_edges_tryConnect {source target : NodeId} {input : String} {e : Edge}
    (he : e ∈ (g.tryConnect source target input).edges) :
    e ∈ g.edges ∨ e.target = target ∧ g.behaviorOf target ≠ none := by
  rcases h : g.connect source target input (-1) with _ | g'
  · rw [tryConnect, h] at he
    exact .inl he
  · rw [tryConnect, h] at he
    rw [show (g' : Graph F β).edges = _ from (connect_spec h).2.2, OrdSet.mem_insert] at he
    rcases he with rfl | he
    · exact .inr ⟨rfl, behaviorOf_target_of_connect h⟩
    · exact .inl he

/-! ### A graph with free slot numbers -/

/-- Nothing was removed from the graph, and there are slot numbers for `n` more nodes. -/
structure Room (g : Graph F β) (n : ℕ) : Prop where
  free : g.freeList = []
  lt : g.entries.length + n < u32Size

theorem Room.mono (h : g.Room n) (hm : m ≤ n) : g.Room m := ⟨h.free, by have := h.lt; omega⟩

theorem Room.freeVacant (h : g.Room n) : g.FreeVacant := by
  intro i hi
  rw [h.free] at hi
  exact absurd hi List.not_mem_nil

theorem Room.behaviorOf_addNode (h : g.Room 1) (core : NodeCore F) (behavior : β) :
    g.behaviorOf (g.addNode core behavior).2 = none ∧
      ∀ y, (g.addNode core behavior).1.behaviorOf y =
        if y = (g.addNode core behavior).2 then some behavior else g.behaviorOf y :=
  behaviorOf_allocate h.freeVacant (by have := h.lt; omega) core behavior

/-! ### Growth -/

/-- The edges go into nodes that are there. -/
def Wired (g : Graph F β) : Prop := ∀ e ∈ g.edges, g.behaviorOf e.target ≠ none

theorem Wired.notMem (h : g.Wired) (hx : g.behaviorOf x = none) : ∀ e ∈ g.edges, e.target ≠ x := by
  rintro e he rfl
  exact h e he hx

/-- `g'` is `g` with at most `n` nodes more, changed behaviors in `S` only and new edges into `T`
only. -/
structure Grows (n : ℕ) (S T : Set NodeId) (g g' : Graph F β) : Prop where
  free : g'.freeList = g.freeList
  length : g'.entries.length ≤ g.entries.length + n
  live : ∀ {x}, g'.behaviorOf x = none → g.behaviorOf x = none
  kept : ∀ {x b}, x ∉ S → g.behaviorOf x = some b → g'.behaviorOf x = some b
  edges : ∀ e ∈ g'.edges, e ∈ g.edges ∨ g.behaviorOf e.target = none ∨ e.target ∈ T
  wired : g.Wired → g'.Wired

/-- `U` has no more nodes of `g` than `S`. -/
def Within (g : Graph F β) (U S : Set NodeId) : Prop :=
  ∀ x ∈ U, g.behaviorOf x = none ∨ x ∈ S

theorem Within.of_subset (h : U ⊆ S) : g.Within U S := fun _ hx => .inr (h hx)

theorem within_singleton (h : g.behaviorOf x = none) : g.Within {x} S := by
  rintro _ rfl
  exact .inl h

theorem Within.notMem (h : g.Within U S) {b : β} (hb : g.behaviorOf x = some b) (hx : x ∉ S) :
    x ∉ U := by
  intro hmem
  rcases h x hmem with hnone | hmem
  · rw [hb] at hnone
    exact absurd hnone (by simp)
  · exact hx hmem

namespace Grows

theorem refl (S T : Set NodeId) (g : Graph F β) : Grows 0 S T g g :=
  ⟨rfl, le_rfl, fun h => h, fun _ h => h, fun _ h => .inl h, fun h => h⟩

theorem wired_of_edges (hedges : g'.edges = g.edges)
    (hlive : ∀ {x}, g'.behaviorOf x = none → g.behaviorOf x = none) (h : g.Wired) : g'.Wired := by
  intro e he hnone
  exact h e (hedges ▸ he) (hlive hnone)

theorem room (h : Grows n S T g g') (hroom : g.Room (n + m)) : g'.Room m :=
  ⟨h.free.trans hroom.free, by have := h.length; have := hroom.lt; omega⟩

theorem mono (h : Grows n S T g g') (hn : n ≤ m) (hS : g.Within S U) (hT : g.Within T V) :
    Grows m U V g g' where
  free := h.free
  length := h.length.trans (Nat.add_le_add_left hn _)
  live := h.live
  kept := fun hx hb => h.kept (hS.notMem hb hx) hb
  edges := fun e he => by
    rcases h.edges e he with hold | hnone | hmem
    · exact .inl hold
    · exact .inr (.inl hnone)
    · exact .inr (hT _ hmem)
  wired := h.wired

/-- One part after another. The second one may change what the first one has made. -/
theorem trans (h : Grows n S T g g') (h' : Grows m U V g' g'') (hS : g.Within U S)
    (hT : g.Within V T) : Grows (n + m) S T g g'' where
  free := h'.free.trans h.free
  length := h'.length.trans (by have := h.length; omega)
  live := fun hnone => h.live (h'.live hnone)
  kept := fun hx hb => h'.kept (hS.notMem hb hx) (h.kept hx hb)
  edges := fun e he => by
    rcases h'.edges e he with hold | hnone | hmem
    · exact h.edges e hold
    · exact .inr (.inl (h.live hnone))
    · exact .inr (hT _ hmem)
  wired := fun hw => h'.wired (h.wired hw)

/-- A node is added. -/
theorem addNode (h : g.Room 1) (core : NodeCore F) (behavior : β) :
    Grows 1 S T g (g.addNode core behavior).1 := by
  obtain ⟨hnone, hget⟩ := h.behaviorOf_addNode core behavior
  have hedges : (g.addNode core behavior).1.edges = g.edges := edges_allocate core behavior
  have hlive : ∀ {x}, (g.addNode core behavior).1.behaviorOf x = none →
      g.behaviorOf x = none := by
    intro x hx
    rw [hget] at hx
    split_ifs at hx
    exact hx
  refine ⟨?_, ?_, hlive, fun {x b} _ hb => ?_, fun e he => .inl (hedges ▸ he),
    wired_of_edges hedges hlive⟩
  · rw [Graph.addNode, allocate_append h.free]
  · rw [Graph.addNode, allocate_append h.free, List.length_append]
    rfl
  · rw [hget, if_neg (ne_of_found hb hnone), hb]

/-- The behavior of a node in `S` is changed. -/
theorem modifyBehavior (f : β → β) (hid : id ∈ S) : Grows 0 S T g (g.modifyBehavior f id) := by
  have hedges : (g.modifyBehavior f id).edges = g.edges := edges_modifyBehavior f
  have hlive : ∀ {x}, (g.modifyBehavior f id).behaviorOf x = none → g.behaviorOf x = none := by
    intro x hx
    rw [behaviorOf_modifyBehavior] at hx
    split_ifs at hx
    · exact Option.map_eq_none_iff.1 hx
    · exact hx
  refine ⟨freeList_modifyBehavior f, (length_modifyBehavior f).le, hlive, fun {x b} hx hb => ?_,
    fun e he => .inl (hedges ▸ he), wired_of_edges hedges hlive⟩
  rw [behaviorOf_modifyBehavior, if_neg, hb]
  rintro rfl
  exact hx hid

/-- The core of a node is changed. -/
theorem modifyCore (id : NodeId) : Grows 0 S T g (g.modifyCore f id) := by
  have hedges : (g.modifyCore f id).edges = g.edges := edges_modifyCore f
  have hlive : ∀ {x}, (g.modifyCore f id).behaviorOf x = none → g.behaviorOf x = none :=
    fun hx => by rwa [behaviorOf_modifyCore] at hx
  exact ⟨freeList_modifyCore f, (length_modifyCore f).le, hlive,
    fun _ hb => by rwa [behaviorOf_modifyCore], fun e he => .inl (hedges ▸ he),
    wired_of_edges hedges hlive⟩

/-- A connection into a node in `T` is tried. -/
theorem tryConnect (source : NodeId) {target : NodeId} (input : String)
    (ht : g.behaviorOf target = none ∨ target ∈ T) :
    Grows 0 S T g (g.tryConnect source target input) where
  free := freeList_tryConnect source target input
  length := (length_tryConnect source target input).le
  live := fun hnone => by rwa [behaviorOf_tryConnect] at hnone
  kept := fun _ hb => by rwa [behaviorOf_tryConnect]
  edges := fun e he => by
    rcases mem_edges_tryConnect he with hold | ⟨rfl, -⟩
    · exact .inl hold
    · exact .inr ht
  wired := fun hw e he => by
    rw [behaviorOf_tryConnect]
    rcases mem_edges_tryConnect he with hold | ⟨rfl, hlive⟩
    · exact hw e hold
    · exact hlive

end Grows

end Oak.Node.Graph
