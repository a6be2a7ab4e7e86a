import Oak.Node.Invariant

/-!
# The behaviors in a graph

What the timeline commands see of a graph is the behavior of every live node. This partial map
(`behaviorOf`) is described here under the slot operations, each of which changes it at one id.

## Main results

* `behaviorOf_modifyBehavior`, `behaviorOf_takeNode`, `behaviorOf_addEntry`: the operations as
  updates of a partial map.
* `coreOf_takeNode`, `coreOf_addEntry`: the rest of a node under the same operations.
-/

namespace Oak.Node

open Oak.Lib

variable {F β : Type*}

/-- The entry with another behavior. -/
def NodeEntry.withBehavior (f : β → β) (entry : NodeEntry F β) : NodeEntry F β :=
  { entry with behavior := f entry.behavior }

namespace Graph

variable {g g' : Graph F β} {id x : NodeId} {entry : NodeEntry F β}

/-- The behavior of a live node. -/
def behaviorOf (g : Graph F β) (id : NodeId) : Option β := (g.get id).map NodeEntry.behavior

/-- `get_mut`: the behavior of a node is changed by `f`, if the node is live. -/
def modifyBehavior (g : Graph F β) (f : β → β) (id : NodeId) : Graph F β :=
  match g.get id with
  | none => g
  | some entry => { g with entries := g.entries.set id.index (.live (entry.withBehavior f)) }

theorem behaviorOf_of_get (h : g.get id = some entry) : g.behaviorOf id = some entry.behavior := by
  rw [behaviorOf, h, Option.map_some]

theorem behaviorOf_eq_some_iff {b : β} :
    g.behaviorOf id = some b ↔ ∃ e, g.get id = some e ∧ e.behavior = b := by
  simp [behaviorOf]

theorem isValid_eq_isSome_behaviorOf (g : Graph F β) (id : NodeId) :
    g.isValid id = (g.behaviorOf id).isSome := by
  rw [isValid, behaviorOf, Option.isSome_map]

theorem isValid_of_behaviorOf {b : β} (h : g.behaviorOf id = some b) : g.isValid id = true := by
  rw [isValid_eq_isSome_behaviorOf, h, Option.isSome_some]

/-! ### Changing a behavior -/

variable (f : β → β)

theorem get_modifyBehavior :
    (g.modifyBehavior f id).get x =
      if x = id then (g.get x).map (.withBehavior f) else g.get x := by
  rcases h : g.get id with _ | entry
  · simp only [modifyBehavior, h]
    split_ifs with hx
    · rw [hx, h, Option.map_none]
    · rfl
  · simp only [modifyBehavior, h]
    refine (get_of_replace h rfl (by rfl)).trans ?_
    split_ifs with hx
    · rw [hx, h, Option.map_some]
    · rfl

theorem behaviorOf_modifyBehavior :
    (g.modifyBehavior f id).behaviorOf x =
      if x = id then (g.behaviorOf x).map f else g.behaviorOf x := by
  rw [behaviorOf, get_modifyBehavior]
  split_ifs
  · rw [behaviorOf, Option.map_map, Option.map_map]
    rfl
  · rfl

@[simp] theorem edges_modifyBehavior : (g.modifyBehavior f id).edges = g.edges := by
  rw [modifyBehavior]
  split <;> rfl

@[simp] theorem freeList_modifyBehavior : (g.modifyBehavior f id).freeList = g.freeList := by
  rw [modifyBehavior]
  split <;> rfl

@[simp] theorem length_modifyBehavior :
    (g.modifyBehavior f id).entries.length = g.entries.length := by
  rw [modifyBehavior]
  split
  · rfl
  · exact List.length_set

@[simp] theorem isValid_modifyBehavior : (g.modifyBehavior f id).isValid x = g.isValid x := by
  rw [isValid, get_modifyBehavior]
  split_ifs
  · rw [Option.isSome_map, isValid]
  · rfl

theorem linksOf_modifyBehavior : (g.modifyBehavior f id).linksOf x = g.linksOf x := by
  rw [linksOf, get_modifyBehavior]
  split_ifs
  · rw [linksOf, Option.map_map]
    rfl
  · rfl

theorem vacant_modifyBehavior {i n : ℕ} :
    (g.modifyBehavior f id).entries[i]? = some (.vacant n) ↔ g.entries[i]? = some (.vacant n) := by
  rcases h : g.get id with _ | entry
  · simp only [modifyBehavior, h]
  · obtain ⟨-, hslot, -⟩ := get_eq_some_iff.1 h
    simp only [modifyBehavior, h, List.getElem?_set]
    split_ifs with hi hlt
    · rw [← hi, hslot]
      simp
    · exact absurd (index_lt_of_get h) hlt
    · rfl

theorem Sound.modifyBehavior {carried : List (NodeId × NodeId)} (h : g.Sound carried) (f : β → β)
    (id : NodeId) : (g.modifyBehavior f id).Sound carried where
  slots := by
    refine ⟨by rw [freeList_modifyBehavior]; exact h.slots.nodup, fun i => ?_⟩
    rw [freeList_modifyBehavior, h.slots.mem_iff]
    simp only [shells_eq_vacant_iff, vacant_modifyBehavior]
  edges := by
    rw [edges_modifyBehavior]
    exact h.edges.live_mono fun x hx => (isValid_modifyBehavior f).trans hx
  links a b hb hcarried := by
    rw [linksOf_modifyBehavior] at hb ⊢
    rw [isValid_modifyBehavior]
    exact h.links a b hb hcarried

/-! ### Taking nodes out and putting them back -/

/-- Taking out a node also takes it out of the links of its partners. -/
theorem get_of_takeNode (h : g.takeNode id = some (g', entry)) :
    g'.get x = if x = id then none
      else if x ∈ entry.core.links then
        (g.get x).map (.withLinks fun ls => ls.filter fun l => l ≠ id)
      else g.get x := by
  obtain ⟨hget, -, -, -, -, hgets⟩ := takeNode_spec h
  rw [hgets]
  by_cases hindex : x.index = id.index
  · rcases hother : g.get x with _ | e
    · rw [if_pos hindex, Option.map_none, ite_self, ite_self]
    · rw [if_pos hindex, if_pos (eq_of_index_eq hother hget hindex)]
  · rw [if_neg hindex, if_neg fun hx => hindex (congrArg NodeId.index hx)]

theorem behaviorOf_takeNode (h : g.takeNode id = some (g', entry)) :
    g'.behaviorOf x = if x = id then none else g.behaviorOf x := by
  rw [behaviorOf, get_of_takeNode h]
  split_ifs
  · rfl
  · rw [Option.map_map]
    rfl
  · rfl

theorem vacant_of_takeNode (h : g.takeNode id = some (g', entry)) :
    g'.entries[id.index]? = some (.vacant entry.generation) := by
  obtain ⟨hget, hshells, -⟩ := takeNode_spec h
  rw [← shells_eq_vacant_iff, hshells,
    List.getElem?_set_self (by rw [length_shells]; exact index_lt_of_get hget)]

/-- A slot that is vacant stays so when a node is taken out. -/
theorem vacant_takeNode (h : g.takeNode id = some (g', entry)) {i n : ℕ}
    (hi : g.entries[i]? = some (.vacant n)) : ∃ m, g'.entries[i]? = some (.vacant m) := by
  by_cases hindex : i = id.index
  · exact ⟨_, hindex ▸ vacant_of_takeNode h⟩
  · obtain ⟨-, hshells, -⟩ := takeNode_spec h
    exact ⟨n, by rw [← shells_eq_vacant_iff, hshells, List.getElem?_set_ne (Ne.symm hindex),
      shells_eq_vacant_iff, hi]⟩

theorem get_addEntry_in_place {n : ℕ} (h : g.entries[id.index]? = some (.vacant n))
    (hvalid : id.valid = true) (hgen : entry.generation = id.generation) :
    (g.addEntry entry id).1.get x = if x = id then some entry else g.get x := by
  rw [addEntry_in_place h]
  exact get_of_set rfl (List.getElem?_eq_some_iff.1 h).1 hvalid hgen
    fun hindex _ => get_of_vacant (hindex ▸ h)

theorem behaviorOf_addEntry {n : ℕ} (h : g.entries[id.index]? = some (.vacant n))
    (hvalid : id.valid = true) (hgen : entry.generation = id.generation) :
    (g.addEntry entry id).1.behaviorOf x =
      if x = id then some entry.behavior else g.behaviorOf x := by
  rw [behaviorOf, get_addEntry_in_place h hvalid hgen]
  split_ifs
  · rfl
  · rfl

theorem behaviorOf_allocate (hvacant : g.FreeVacant) (hroom : g.entries.length < u32Size - 1)
    (core : NodeCore F) (behavior : β) :
    g.behaviorOf (g.allocate core behavior).2 = none ∧
      ∀ y, (g.allocate core behavior).1.behaviorOf y =
        if y = (g.allocate core behavior).2 then some behavior else g.behaviorOf y := by
  have hfresh := get_allocate_fresh hvacant hroom core behavior
  refine ⟨by rw [behaviorOf, hfresh, Option.map_none], fun y => ?_⟩
  split_ifs with hy
  · obtain ⟨generation, hself⟩ := get_allocate_self hvacant hroom core behavior
    rw [hy, behaviorOf_of_get hself]
  · rcases hget : g.get y with _ | e
    · rw [behaviorOf, behaviorOf, hget]
      rcases hnew : (g.allocate core behavior).1.get y with _ | e
      · rfl
      · rcases get_allocate_cases hnew with hold | ⟨heq, -⟩
        · exact absurd (hget.symm.trans hold) (by simp)
        · exact absurd heq hy
    · rw [behaviorOf_of_get hget,
        behaviorOf_of_get (get_allocate_of_get hvacant hget core behavior)]

theorem edges_addEntry (e : NodeEntry F β) : (g.addEntry e id).1.edges = g.edges := by
  rw [addEntry]
  split
  · rfl
  · exact edges_allocate _ _

/-! ### The rest of a node -/

/-- The core of a live node. -/
def coreOf (g : Graph F β) (id : NodeId) : Option (NodeCore F) := (g.get id).map NodeEntry.core

theorem coreOf_of_get (h : g.get id = some entry) : g.coreOf id = some entry.core := by
  rw [coreOf, h, Option.map_some]

theorem coreOf_eq_none_iff : g.coreOf id = none ↔ g.behaviorOf id = none := by
  rw [coreOf, behaviorOf, Option.map_eq_none_iff, Option.map_eq_none_iff]

theorem linksOf_eq (g : Graph F β) (id : NodeId) :
    g.linksOf id = ((g.coreOf id).map NodeCore.links).getD [] := by
  rw [linksOf, coreOf, Option.map_map]
  rfl

theorem get_congr_of_parts (hcore : g'.coreOf id = g.coreOf id)
    (hbehavior : g'.behaviorOf id = g.behaviorOf id) : g'.get id = g.get id := by
  rcases h : g.get id with _ | e
  · rw [behaviorOf, behaviorOf, h, Option.map_none, Option.map_eq_none_iff] at hbehavior
    exact hbehavior
  · rcases h' : g'.get id with _ | e'
    · rw [behaviorOf_of_get h, behaviorOf, h'] at hbehavior
      exact absurd hbehavior (by simp)
    · rw [coreOf_of_get h, coreOf_of_get h'] at hcore
      rw [behaviorOf_of_get h, behaviorOf_of_get h'] at hbehavior
      obtain ⟨-, -, hgen⟩ := get_eq_some_iff.1 h
      obtain ⟨-, -, hgen'⟩ := get_eq_some_iff.1 h'
      have hsame : e'.generation = e.generation := hgen'.trans hgen.symm
      obtain ⟨core, behavior, generation⟩ := e
      obtain ⟨core', behavior', generation'⟩ := e'
      exact congrArg some (NodeEntry.mk.injEq .. ▸ ⟨Option.some.inj hcore,
        Option.some.inj hbehavior, hsame⟩)

@[simp] theorem coreOf_modifyBehavior : (g.modifyBehavior f id).coreOf x = g.coreOf x := by
  rw [coreOf, get_modifyBehavior]
  split_ifs
  · rw [Option.map_map]
    rfl
  · rfl

/-- Taking out a node to which no other node has a link. -/
theorem coreOf_takeNode (h : g.takeNode id = some (g', entry))
    (hlinks : ∀ y ∈ entry.core.links, y ≠ id → id ∉ g.linksOf y) :
    g'.coreOf x = if x = id then none else g.coreOf x := by
  rw [coreOf, get_of_takeNode h, coreOf]
  split_ifs with hx hpartner
  · rfl
  · rcases hother : g.get x with _ | e
    · rfl
    · have hnot := hlinks x hpartner hx
      rw [linksOf_of_get hother] at hnot
      have hfilter : (e.core.links.filter fun l => l ≠ id) = e.core.links := by
        refine List.filter_eq_self.2 fun l hl => ?_
        rw [decide_eq_true_eq]
        rintro rfl
        exact hnot hl
      rw [Option.map_some, Option.map_some, Option.map_some, NodeEntry.withLinks, hfilter]
  · rfl

theorem coreOf_addEntry {n : ℕ} (h : g.entries[id.index]? = some (.vacant n))
    (hvalid : id.valid = true) (hgen : entry.generation = id.generation) :
    (g.addEntry entry id).1.coreOf x = if x = id then some entry.core else g.coreOf x := by
  rw [coreOf, get_addEntry_in_place h hvalid hgen]
  split_ifs
  · rfl
  · rfl

end Graph

end Oak.Node
