import Oak.Node.Graph

/-!
# What the slot operations do

Each operation on the slots of an arena is described twice: by the entry that every id finds after
it (`get`), and by the generation and behavior that every slot holds (`shells`). The links of the
nodes are seen through `get` only.

## Main results

* `get_eq_some_iff`: a node is found in its slot, under its generation.
* `get_allocate_cases`, `get_addEntry_cases`, `takeNode_spec`: the slot operations.
* `get_setCore`, `editPair_eq`: the operations on the occupants.
-/

namespace Oak.Node

variable {F β : Type*}

/-- Ids under which different things are found are different. -/
theorem ne_of_found {α : Type*} {f : NodeId → α} {x y : NodeId} {a b : α} (hx : f x = a)
    (hy : f y = b) (hab : a ≠ b := by simp) : x ≠ y := by
  rintro rfl
  exact hab (hx.symm.trans hy)

theorem notMem_of_found {α : Type*} {f : NodeId → α} {x : NodeId} {a b : α} {ids : List NodeId}
    (hids : ∀ y ∈ ids, f y = b) (hx : f x = a) (hab : a ≠ b := by simp) : x ∉ ids := fun hmem =>
  hab (hx.symm.trans (hids x hmem))

/-- The generation of a slot and the behavior of its occupant. -/
def Slot.shell (s : Slot F β) : ℕ × Option β :=
  (s.generation, Option.map NodeEntry.behavior s.occupant)

namespace Graph

variable {g g' : Graph F β} {id x : NodeId} {entry : NodeEntry F β}

/-- What every slot holds. -/
def shells (g : Graph F β) : List (ℕ × Option β) := g.entries.map Slot.shell

theorem length_shells (g : Graph F β) : g.shells.length = g.entries.length := List.length_map _

/-- A node is found in its slot, under its generation. -/
theorem get_eq_some_iff : g.get id = some entry ↔
    id.valid = true ∧ g.entries[id.index]? = some (.live entry) ∧
      entry.generation = id.generation := by
  rw [get]
  split_ifs with hvalid
  · rcases hslot : g.entries[id.index]? with _ | ⟨_ | e⟩
    · simp
    · simp
    · by_cases hgen : e.generation = id.generation
      · simp only [hgen, ↓reduceIte, Option.some.injEq, Slot.live.injEq, hvalid, true_and]
        constructor
        · rintro rfl
          exact ⟨rfl, hgen⟩
        · exact And.left
      · simp only [hgen, ↓reduceIte, reduceCtorEq, Option.some.injEq, Slot.live.injEq, false_iff]
        rintro ⟨-, rfl, h⟩
        exact hgen h
  · simp [hvalid]

theorem generation_of_get (h : g.get id = some entry) : entry.generation = id.generation :=
  (get_eq_some_iff.1 h).2.2

theorem index_lt_of_get (h : g.get id = some entry) : id.index < g.entries.length :=
  (List.getElem?_eq_some_iff.1 (get_eq_some_iff.1 h).2.1).1

theorem slot_of_get (h : g.get id = some entry) : g.slot id.index = .live entry := by
  rw [slot, List.getD_eq_getElem?_getD, (get_eq_some_iff.1 h).2.1, Option.getD_some]

theorem shell_of_get (h : g.get id = some entry) :
    g.shells[id.index]? = some (id.generation, some entry.behavior) := by
  obtain ⟨-, hslot, hgen⟩ := get_eq_some_iff.1 h
  simp [shells, hslot, Slot.shell, Slot.generation, Slot.occupant, hgen]

theorem shells_eq_vacant_iff {i n : ℕ} :
    g.shells[i]? = some (n, none) ↔ g.entries[i]? = some (.vacant n) := by
  rw [shells, List.getElem?_map]
  rcases g.entries[i]? with _ | ⟨m | e⟩
  · simp
  · simp [Slot.shell, Slot.generation, Slot.occupant]
  · simp [Slot.shell, Slot.occupant]

theorem eq_of_index_eq {y : NodeId} {e e' : NodeEntry F β} (hx : g.get x = some e)
    (hy : g.get y = some e') (hindex : x.index = y.index) : x = y := by
  obtain ⟨-, hxslot, hxgen⟩ := get_eq_some_iff.1 hx
  obtain ⟨-, hyslot, hygen⟩ := get_eq_some_iff.1 hy
  rw [hindex, hyslot, Option.some.injEq, Slot.live.injEq] at hxslot
  exact NodeId.ext hindex (by rw [← hxgen, ← hygen, hxslot])

theorem get_congr (h : g'.entries[x.index]? = g.entries[x.index]?) : g'.get x = g.get x := by
  simp only [get, h]

theorem get_of_live (h : g.entries[x.index]? = some (.live entry)) :
    g.get x = if x.valid ∧ x.generation = entry.generation then some entry else none := by
  simp only [get, h]
  by_cases hvalid : x.valid = true
  · by_cases hgen : x.generation = entry.generation
    · simp [hvalid, hgen]
    · simp [hvalid, hgen, Ne.symm hgen]
  · simp [hvalid]

theorem get_of_vacant {n : ℕ} (h : g.entries[x.index]? = some (.vacant n)) : g.get x = none := by
  simp only [get, h, ite_self]

/-- A node that is written into a slot is found under its own id. -/
theorem get_of_set (hset : g'.entries = g.entries.set id.index (.live entry))
    (hlt : id.index < g.entries.length) (hvalid : id.valid = true)
    (hgen : entry.generation = id.generation)
    (hother : x.index = id.index → x ≠ id → g.get x = none) :
    g'.get x = if x = id then some entry else g.get x := by
  by_cases hindex : x.index = id.index
  · have hfilled : g'.entries[x.index]? = some (.live entry) := by
      rw [hset, hindex, List.getElem?_set_self hlt]
    rw [get_of_live hfilled]
    split_ifs with hlive hx hx
    · rfl
    · exact absurd (NodeId.ext hindex (hlive.2.trans hgen)) hx
    · exact absurd ⟨hx ▸ hvalid, (congrArg NodeId.generation hx).trans hgen.symm⟩ hlive
    · exact (hother hindex hx).symm
  · rw [if_neg fun hx => hindex (congrArg NodeId.index hx)]
    exact get_congr (by rw [hset, List.getElem?_set_ne (Ne.symm hindex)])

theorem get_of_replace {old : NodeEntry F β} (h : g.get id = some old)
    (hset : g'.entries = g.entries.set id.index (.live entry))
    (hgen : entry.generation = old.generation) :
    g'.get x = if x = id then some entry else g.get x := by
  obtain ⟨hvalid, -, hold⟩ := get_eq_some_iff.1 h
  refine get_of_set hset (index_lt_of_get h) hvalid (hgen.trans hold) fun hindex hx => ?_
  rcases hget : g.get x with _ | e
  · rfl
  · exact absurd (eq_of_index_eq hget h hindex) hx

/-! ### Links -/

variable (f : List NodeId → List NodeId)

@[simp] theorem freeList_modifyLinks : (g.modifyLinks f id).freeList = g.freeList := by
  rw [modifyLinks]
  split <;> rfl

@[simp] theorem edges_modifyLinks : (g.modifyLinks f id).edges = g.edges := by
  rw [modifyLinks]
  split <;> rfl

@[simp] theorem inputNames_modifyLinks : (g.modifyLinks f id).inputNames = g.inputNames := by
  rw [modifyLinks]
  split <;> rfl

theorem modifyLinks_of_get (h : g.get id = some entry) :
    g.modifyLinks f id =
      { g with entries := g.entries.set id.index (.live (entry.withLinks f)) } := by
  rw [modifyLinks, if_pos (by rw [isValid, h]; rfl), slot_of_get h, Slot.mapLinks]

theorem modifyLinks_of_stale (h : g.get id = none) : g.modifyLinks f id = g := by
  rw [modifyLinks, if_neg (by rw [isValid, h]; simp)]

@[simp] theorem shells_modifyLinks : (g.modifyLinks f id).shells = g.shells := by
  rcases h : g.get id with _ | entry
  · rw [modifyLinks_of_stale f h]
  · obtain ⟨-, hslot, -⟩ := get_eq_some_iff.1 h
    rw [modifyLinks_of_get f h]
    refine List.ext_getElem? fun i => ?_
    simp only [shells, List.getElem?_map, List.getElem?_set]
    split_ifs with hi hlt
    · subst hi
      rw [hslot]
      rfl
    · subst hi
      exact absurd (index_lt_of_get h) hlt
    · rfl

/-- Changing the links of a node changes what its own id finds. -/
theorem get_modifyLinks :
    (g.modifyLinks f id).get x = if x = id then (g.get x).map (.withLinks f) else g.get x := by
  rcases h : g.get id with _ | entry
  · rw [modifyLinks_of_stale f h]
    split_ifs with hx
    · rw [hx, h, Option.map_none]
    · rfl
  · rw [get_of_replace h (congrArg entries (modifyLinks_of_get f h)) rfl]
    split_ifs with hx
    · rw [hx, h, Option.map_some]
    · rfl

/-- Changing the links of several nodes in the same way, any number of times each. -/
theorem foldl_modifyLinks {f : List NodeId → List NodeId} (hf : ∀ ls, f (f ls) = f ls)
    (ids : List NodeId) (g : Graph F β) :
    (ids.foldl (fun h p => h.modifyLinks f p) g).shells = g.shells ∧
    (ids.foldl (fun h p => h.modifyLinks f p) g).freeList = g.freeList ∧
    (ids.foldl (fun h p => h.modifyLinks f p) g).edges = g.edges ∧
    (ids.foldl (fun h p => h.modifyLinks f p) g).inputNames = g.inputNames ∧
    ∀ x, (ids.foldl (fun h p => h.modifyLinks f p) g).get x =
      if x ∈ ids then (g.get x).map (.withLinks f) else g.get x := by
  induction ids generalizing g with
  | nil => simp
  | cons id ids ih =>
    obtain ⟨hshells, hfree, hedges, hnames, hget⟩ := ih (g.modifyLinks f id)
    simp only [List.foldl_cons]
    refine ⟨by rw [hshells, shells_modifyLinks], by rw [hfree, freeList_modifyLinks],
      by rw [hedges, edges_modifyLinks], by rw [hnames, inputNames_modifyLinks], fun x => ?_⟩
    rw [hget, get_modifyLinks]
    by_cases hx : x = id
    · have htwice : (NodeEntry.withLinks f ∘ NodeEntry.withLinks f : NodeEntry F β → _) =
          NodeEntry.withLinks f := by
        funext e
        simp [NodeEntry.withLinks, hf]
      subst hx
      simp [Option.map_map, htwice]
    · simp [hx]

/-! ### Filling a slot -/

theorem allocate_reuse {i : ℕ} {rest : List ℕ} (hfree : g.freeList = i :: rest)
    (core : NodeCore F) (behavior : β) :
    g.allocate core behavior =
      ({ g with
          entries := g.entries.set i
            (.live ⟨core, behavior, ((g.slot i).generation + 1) % u32Size⟩)
          freeList := rest }, ⟨i, ((g.slot i).generation + 1) % u32Size⟩) := by
  simp only [allocate, hfree]

theorem allocate_append (hfree : g.freeList = []) (core : NodeCore F) (behavior : β) :
    g.allocate core behavior =
      ({ g with entries := g.entries ++ [.live ⟨core, behavior, 0⟩] },
        ⟨g.entries.length % u32Size, 0⟩) := by
  simp only [allocate, hfree]

theorem shells_set (i : ℕ) (s : Slot F β) (free : List ℕ) :
    ({ g with entries := g.entries.set i s, freeList := free } : Graph F β).shells =
      g.shells.set i s.shell := List.map_set

theorem shells_concat (s : Slot F β) :
    ({ g with entries := g.entries ++ [s] } : Graph F β).shells = g.shells ++ [s.shell] :=
  List.map_append

theorem get_set_of_get {i n : ℕ} {s : Slot F β} (hi : g.entries[i]? = some (.vacant n))
    (hx : g.get x = some entry) (free : List ℕ) :
    ({ g with entries := g.entries.set i s, freeList := free } : Graph F β).get x = some entry := by
  rw [← hx]
  refine get_congr (List.getElem?_set_ne fun hindex => ?_)
  rw [hindex, (get_eq_some_iff.1 hx).2.1] at hi
  simp at hi

/-- What is found after a slot was filled was there before, or is its new occupant. -/
theorem get_set_cases {i : ℕ} {e : NodeEntry F β} (free : List ℕ)
    (h : ({ g with entries := g.entries.set i (.live e), freeList := free } : Graph F β).get x =
      some entry) :
    g.get x = some entry ∨ x = ⟨i, e.generation⟩ ∧ entry = e := by
  by_cases hindex : x.index = i
  · obtain ⟨-, hslot, hgen⟩ := get_eq_some_iff.1 h
    rw [List.getElem?_set, if_pos hindex.symm] at hslot
    split_ifs at hslot
    · rw [Option.some.injEq, Slot.live.injEq] at hslot
      subst hslot
      exact .inr ⟨NodeId.ext hindex hgen.symm, rfl⟩
  · exact .inl ((get_congr (List.getElem?_set_ne (Ne.symm hindex))).symm.trans h)

/-- The slots on the free list are vacant. -/
def FreeVacant (g : Graph F β) : Prop := ∀ i ∈ g.freeList, ∃ n, g.entries[i]? = some (.vacant n)

theorem get_allocate_of_get (hvacant : g.FreeVacant) (hx : g.get x = some entry)
    (core : NodeCore F) (behavior : β) : (g.allocate core behavior).1.get x = some entry := by
  rcases hlist : g.freeList with _ | ⟨i, rest⟩
  · rw [allocate_append hlist, ← hx]
    exact get_congr (List.getElem?_append_left (index_lt_of_get hx))
  · obtain ⟨n, hi⟩ := hvacant i (hlist ▸ List.mem_cons_self)
    rw [allocate_reuse hlist]
    exact get_set_of_get hi hx rest

/-- What is found after an allocation was there before, or is the new node. -/
theorem get_allocate_cases {core : NodeCore F} {behavior : β}
    (h : (g.allocate core behavior).1.get x = some entry) :
    g.get x = some entry ∨
      x = (g.allocate core behavior).2 ∧ entry.core = core ∧ entry.behavior = behavior := by
  rcases hlist : g.freeList with _ | ⟨i, rest⟩
  · rw [allocate_append hlist] at h ⊢
    rcases Nat.lt_or_ge x.index g.entries.length with hlt | hge
    · exact .inl ((get_congr (List.getElem?_append_left hlt)).symm.trans h)
    · obtain ⟨hvalid, hslot, hgen⟩ := get_eq_some_iff.1 h
      rw [List.getElem?_append_right hge, List.getElem?_singleton] at hslot
      split_ifs at hslot with hzero
      rw [Option.some.injEq, Slot.live.injEq] at hslot
      subst hslot
      have hindex : x.index = g.entries.length := by omega
      have hsmall : g.entries.length < u32Size := by
        have := of_decide_eq_true hvalid
        omega
      exact .inr ⟨NodeId.ext (by rw [hindex, Nat.mod_eq_of_lt hsmall]) hgen.symm, rfl, rfl⟩
  · rw [allocate_reuse hlist] at h ⊢
    rcases get_set_cases rest h with hget | ⟨hx, rfl⟩
    · exact .inl hget
    · exact .inr ⟨hx, rfl, rfl⟩

@[simp] theorem edges_allocate (core : NodeCore F) (behavior : β) :
    (g.allocate core behavior).1.edges = g.edges := by
  rw [allocate]
  split <;> rfl

theorem length_allocate_le (core : NodeCore F) (behavior : β) :
    (g.allocate core behavior).1.entries.length ≤ g.entries.length + 1 := by
  rw [allocate]
  split <;> simp

section

variable (hvacant : g.FreeVacant) (hroom : g.entries.length < u32Size - 1) (core : NodeCore F)
  (behavior : β)

include hvacant hroom

/-- The id of a new node is not one of a live node, as long as there are slot numbers left. -/
theorem get_allocate_fresh : g.get (g.allocate core behavior).2 = none := by
  rcases hlist : g.freeList with _ | ⟨i, rest⟩
  · rw [allocate_append hlist]
    rcases hget : g.get ⟨g.entries.length % u32Size, 0⟩ with _ | e
    · rfl
    · have hlt := index_lt_of_get hget
      rw [Nat.mod_eq_of_lt (by omega)] at hlt
      exact absurd hlt (lt_irrefl _)
  · obtain ⟨n, hi⟩ := hvacant i (hlist ▸ List.mem_cons_self)
    rw [allocate_reuse hlist]
    exact get_of_vacant hi

theorem get_allocate_self :
    ∃ generation, (g.allocate core behavior).1.get (g.allocate core behavior).2 =
      some ⟨core, behavior, generation⟩ := by
  rcases hlist : g.freeList with _ | ⟨i, rest⟩
  · rw [allocate_append hlist]
    refine ⟨0, get_eq_some_iff.2 ⟨decide_eq_true ?_, ?_, rfl⟩⟩
    · rwa [Nat.mod_eq_of_lt (by omega)]
    · simp only [Nat.mod_eq_of_lt (show g.entries.length < u32Size by omega)]
      exact List.getElem?_concat_length
  · obtain ⟨n, hi⟩ := hvacant i (hlist ▸ List.mem_cons_self)
    have hlt : i < g.entries.length := (List.getElem?_eq_some_iff.1 hi).1
    rw [allocate_reuse hlist]
    exact ⟨_, get_eq_some_iff.2 ⟨decide_eq_true (by dsimp only; omega),
      List.getElem?_set_self hlt, rfl⟩⟩

end

theorem addEntry_in_place {n : ℕ} (h : g.entries[id.index]? = some (.vacant n))
    (entry : NodeEntry F β) :
    g.addEntry entry id =
      ({ g with
          entries := g.entries.set id.index (.live entry)
          freeList := g.freeList.filter fun i => i ≠ id.index },
        ⟨id.index, entry.generation⟩) := by
  simp only [addEntry, h]

theorem addEntry_elsewhere (h : ∀ n, g.entries[id.index]? ≠ some (.vacant n))
    (entry : NodeEntry F β) :
    g.addEntry entry id = g.allocate entry.core entry.behavior := by
  rw [addEntry]
  split
  · next n hslot => exact absurd hslot (h n)
  · rfl

theorem get_addEntry_of_get (hvacant : g.FreeVacant) (hx : g.get x = some entry)
    (e : NodeEntry F β) : (g.addEntry e id).1.get x = some entry := by
  by_cases hslot : ∃ n, g.entries[id.index]? = some (.vacant n)
  · obtain ⟨n, hslot⟩ := hslot
    rw [addEntry_in_place hslot]
    exact get_set_of_get hslot hx _
  · rw [addEntry_elsewhere fun n hn => hslot ⟨n, hn⟩]
    exact get_allocate_of_get hvacant hx _ _

/-- What is found after a node was put back was there before, or is that node. -/
theorem get_addEntry_cases {e : NodeEntry F β} (h : (g.addEntry e id).1.get x = some entry) :
    g.get x = some entry ∨
      x = (g.addEntry e id).2 ∧ entry.core = e.core ∧ entry.behavior = e.behavior := by
  by_cases hslot : ∃ n, g.entries[id.index]? = some (.vacant n)
  · obtain ⟨n, hslot⟩ := hslot
    rw [addEntry_in_place hslot] at h ⊢
    rcases get_set_cases _ h with hget | ⟨hx, rfl⟩
    · exact .inl hget
    · exact .inr ⟨hx, rfl, rfl⟩
  · have helsewhere : ∀ n, g.entries[id.index]? ≠ some (.vacant n) := fun n hn => hslot ⟨n, hn⟩
    rw [addEntry_elsewhere helsewhere] at h ⊢
    exact get_allocate_cases h

/-! ### Taking a node out -/

/-- What `take_node` leaves: an empty slot on top of the free list, no edge to the node and no
link to it from its partners. -/
theorem takeNode_spec (h : g.takeNode id = some (g', entry)) :
    g.get id = some entry ∧ g'.shells = g.shells.set id.index (entry.generation, none) ∧
      g'.freeList = id.index :: g.freeList ∧
      g'.edges = g.edges.filter (fun e => !(e.source = id || e.target = id)) ∧
      g'.inputNames = g.inputNames ∧
      ∀ x, g'.get x = if x.index = id.index then none
        else if x ∈ entry.core.links then
          (g.get x).map (.withLinks fun ls => ls.filter fun l => l ≠ id)
        else g.get x := by
  rw [takeNode] at h
  rcases hget : g.get id with _ | e
  · simp [hget] at h
  · simp only [hget, Option.some.injEq, Prod.mk.injEq] at h
    obtain ⟨rfl, rfl⟩ := h
    obtain ⟨hshells, hfree, hedges, hnames, hgets⟩ := foldl_modifyLinks
      (f := fun ls : List NodeId => ls.filter fun l => l ≠ id) (by simp [List.filter_filter])
      e.core.links (dropEdgesTouching { g with
        entries := g.entries.set id.index (.vacant e.generation)
        freeList := id.index :: g.freeList } id)
    refine ⟨rfl, ?_, hfree, hedges, hnames, fun x => ?_⟩
    · rw [hshells]
      simp [shells, dropEdgesTouching, List.map_set, Slot.shell, Slot.generation, Slot.occupant]
    · rw [hgets]
      by_cases hx : x.index = id.index
      · have hnone : (dropEdgesTouching { g with
            entries := g.entries.set id.index (.vacant e.generation)
            freeList := id.index :: g.freeList } id).get x = none := by
          refine get_of_vacant (n := e.generation) ?_
          rw [hx]
          exact List.getElem?_set_self (index_lt_of_get hget)
        rw [hnone, if_pos hx]
        split <;> rfl
      · have hsame : (dropEdgesTouching { g with
            entries := g.entries.set id.index (.vacant e.generation)
            freeList := id.index :: g.freeList } id).get x = g.get x :=
          get_congr (List.getElem?_set_ne (Ne.symm hx))
        rw [hsame, if_neg hx]

theorem takeNode_of_removeNode [NodeBehavior F β] {b : β}
    (h : g.removeNode id = some (g', b)) : ∃ entry, g.takeNode id = some (g', entry) := by
  rw [removeNode] at h
  split_ifs at h
  obtain ⟨⟨g₁, entry⟩, htake, heq⟩ := Option.map_eq_some_iff.1 h
  obtain ⟨rfl, -⟩ := Prod.mk.inj heq
  exact ⟨entry, htake⟩

theorem takeNode_isSome_iff : (g.takeNode id).isSome = g.isValid id := by
  rw [takeNode, isValid]
  rcases g.get id with _ | e <;> rfl

/-! ### Changing the occupants -/

/-- The links in a graph are those of the nodes that are found. -/
theorem linksOf_of_get (h : g.get id = some entry) : g.linksOf id = entry.core.links := by
  rw [linksOf, h, Option.map_some, Option.getD_some]

theorem linksOf_of_stale (h : g.get id = none) : g.linksOf id = [] := by
  rw [linksOf, h, Option.map_none, Option.getD_none]

theorem linksOf_congr (h : g'.get id = g.get id) : g'.linksOf id = g.linksOf id := by
  rw [linksOf, linksOf, h]

theorem isValid_iff : g.isValid id = true ↔ ∃ e, g.get id = some e := Option.isSome_iff_exists

theorem isValid_of_get (h : g.get id = some entry) : g.isValid id = true :=
  isValid_iff.2 ⟨entry, h⟩

/-! ### The live nodes -/

theorem mem_nodeIds (h : g.isValid id = true) : id ∈ g.nodeIds := by
  obtain ⟨entry, hget⟩ := isValid_iff.1 h
  obtain ⟨hvalid, hslot, hgen⟩ := get_eq_some_iff.1 hget
  refine List.mem_filterMap.2 ⟨(.live entry, id.index), ?_, ?_⟩
  · rw [List.mem_zipIdx_iff_getElem?]
    exact hslot
  · have hsmall : id.index < u32Size := by
      have := of_decide_eq_true hvalid
      omega
    rw [Slot.occupant, Option.map_some, Nat.mod_eq_of_lt hsmall, hgen]

theorem length_nodeIds_le (g : Graph F β) : g.nodeIds.length ≤ g.entries.length := by
  refine (List.length_filterMap_le _ _).trans ?_
  rw [List.length_zipIdx]

theorem mem_nodeIds_iff (hroom : g.entries.length < u32Size) :
    id ∈ g.nodeIds ↔ g.isValid id = true := by
  refine ⟨fun hid => ?_, mem_nodeIds⟩
  obtain ⟨⟨s, i⟩, hs, hentry⟩ := List.mem_filterMap.1 hid
  obtain ⟨entry, hoccupant, rfl⟩ := Option.map_eq_some_iff.1 hentry
  have hslot : g.entries[i]? = some s := List.mk_mem_zipIdx_iff_getElem?.1 hs
  have hlt : i < g.entries.length := (List.getElem?_eq_some_iff.1 hslot).1
  have hlive : s = .live entry := by
    cases s with
    | vacant n => exact absurd hoccupant (by simp [Slot.occupant])
    | live e => rw [Option.some.inj hoccupant]
  have hsmall : i % u32Size = i := Nat.mod_eq_of_lt (hlt.trans hroom)
  suffices hget : g.get ⟨i % u32Size, entry.generation⟩ = some entry from isValid_of_get hget
  refine get_eq_some_iff.2 ⟨?_, ?_, rfl⟩
  · have hbound : i < u32Size - 1 := by omega
    exact decide_eq_true (hsmall.symm ▸ hbound)
  · rw [hsmall, hslot, hlive]

theorem pairwise_nodeIds (hroom : g.entries.length < u32Size) :
    g.nodeIds.Pairwise fun a b => a.index < b.index := by
  have hslots : g.entries.zipIdx.Pairwise fun s t => s.2 < t.2 ∧ t.2 < g.entries.length := by
    rw [List.pairwise_iff_getElem]
    intro i j hi hj hij
    rw [List.length_zipIdx] at hj
    simp only [List.getElem_zipIdx, Nat.zero_add]
    exact ⟨hij, hj⟩
  refine hslots.filterMap _ fun s t hst a ha b hb => ?_
  obtain ⟨-, -, rfl⟩ := Option.map_eq_some_iff.1 ha
  obtain ⟨-, -, rfl⟩ := Option.map_eq_some_iff.1 hb
  obtain ⟨hlt, hbound⟩ := hst
  simp only [Nat.mod_eq_of_lt (hlt.trans (hbound.trans hroom)),
    Nat.mod_eq_of_lt (hbound.trans hroom)]
  exact hlt

theorem nodup_nodeIds (hroom : g.entries.length < u32Size) : g.nodeIds.Nodup :=
  (pairwise_nodeIds hroom).imp fun hab heq => absurd hab (by rw [heq]; exact lt_irrefl _)

@[simp] theorem isValid_modifyLinks : (g.modifyLinks f id).isValid x = g.isValid x := by
  rw [isValid, get_modifyLinks]
  split_ifs <;> simp [isValid]

theorem linksOf_modifyLinks (hx : g.isValid x) :
    (g.modifyLinks f id).linksOf x = if x = id then f (g.linksOf x) else g.linksOf x := by
  obtain ⟨e, he⟩ := isValid_iff.1 hx
  rw [linksOf, get_modifyLinks, linksOf_of_get he, he]
  split_ifs <;> rfl

section

variable (h : g.get id = some entry) (core : NodeCore F)

include h

/-- A new core for a node changes what its own id finds. -/
theorem get_setCore :
    (g.setCore id entry core).get x = if x = id then some { entry with core := core }
      else g.get x :=
  get_of_replace h rfl rfl

theorem shells_setCore : (g.setCore id entry core).shells = g.shells := by
  obtain ⟨-, hslot, -⟩ := get_eq_some_iff.1 h
  refine List.ext_getElem? fun i => ?_
  simp only [setCore, shells, List.getElem?_map, List.getElem?_set]
  split_ifs with hi hlt
  · subst hi
    rw [hslot]
    rfl
  · subst hi
    exact absurd (index_lt_of_get h) hlt
  · rfl

theorem isValid_setCore : (g.setCore id entry core).isValid x = g.isValid x := by
  rw [isValid, get_setCore h]
  split_ifs with hx
  · rw [hx, isValid_of_get h, Option.isSome_some]
  · rfl

end

theorem linksOf_setCore (h : g.get id = some entry) {core : NodeCore F}
    (hcore : core.links = entry.core.links) :
    (g.setCore id entry core).linksOf x = g.linksOf x := by
  rw [linksOf, get_setCore h]
  split_ifs with hx
  · rw [hx, linksOf_of_get h, ← hcore]
    rfl
  · rfl

/-! ### What the edits of edges say -/

section

variable {source target : NodeId} {input : String} {element index : ℤ}

@[simp] theorem entries_internInput : (g.internInput input).entries = g.entries := by
  rw [internInput]
  split <;> rfl

@[simp] theorem freeList_internInput : (g.internInput input).freeList = g.freeList := by
  rw [internInput]
  split <;> rfl

@[simp] theorem edges_internInput : (g.internInput input).edges = g.edges := by
  rw [internInput]
  split <;> rfl

theorem connect_cases (h : g.connect source target input element = .ok g') :
    ∃ es et i, g.get source = some es ∧ g.get target = some et ∧
      et.core.getInput input = some i ∧ i.isConnectable = true ∧
      (i.isArray = true ∨ element = -1) ∧ g.connectedOutput target input element = none ∧
      g.reaches target source = false ∧
      g' = { g.internInput input with
        edges := g.edges.insert ⟨source, target, hashStr input, element⟩ } := by
  rw [connect] at h
  split at h
  · next es et hs ht =>
    split at h
    · exact absurd h (by simp)
    · next i hi =>
      split_ifs at h with hconnectable harray _ hconnected hreaches
      refine ⟨es, et, i, hs, ht, hi, by simpa using hconnectable, ?_, by simpa using hconnected,
        by simpa using hreaches, (Except.ok.inj h).symm⟩
      by_cases hi : i.isArray = true
      · exact .inl hi
      · exact .inr (by simpa [hi] using harray)
  · exact absurd h (by simp)

theorem inputArrayInsert_cases (h : g.inputArrayInsert id input index = .ok g') :
    ∃ entry, g.get id = some entry ∧ 0 ≤ index ∧
      g' = { g.setCore id entry (entry.core.inputArrayInsert input index.toNat) with
        edges := moveEdges (fun e => some { e with element := toI32 (e.element + 1) })
          (g.elementsFrom id input index) g.edges } := by
  rw [inputArrayInsert] at h
  split at h
  · exact absurd h (by simp)
  next entry hget =>
  split at h
  · exact absurd h (by simp)
  split_ifs at h with _ hrange
  refine ⟨entry, hget, ?_, (Except.ok.inj h).symm⟩
  by_contra hneg
  simp [not_le.1 hneg] at hrange

theorem inputArrayRemove_cases (h : g.inputArrayRemove id input index = .ok g') :
    ∃ entry, g.get id = some entry ∧ 0 ≤ index ∧
      g' = { g.setCore id entry (entry.core.inputArrayRemove input index.toNat) with
        edges := moveEdges
          (fun e => if index < e.element then some { e with element := toI32 (e.element - 1) }
            else none)
          (g.elementsFrom id input index) g.edges } := by
  rw [inputArrayRemove] at h
  split at h
  · exact absurd h (by simp)
  next entry hget =>
  split at h
  · exact absurd h (by simp)
  split_ifs at h with _ hrange
  refine ⟨entry, hget, ?_, (Except.ok.inj h).symm⟩
  by_contra hneg
  simp [not_le.1 hneg] at hrange

end

/-- The two slots of an edit of links are different: the placeholders do not show. -/
theorem editPair_eq {a b : NodeId} {ea eb : NodeEntry F β} (ha : g.get a = some ea)
    (hb : g.get b = some eb) (hab : a ≠ b) (f h : List NodeId → List NodeId) :
    g.editPair a b f h = (g.modifyLinks f a).modifyLinks h b := by
  have hindex : a.index ≠ b.index := fun hindex => hab (eq_of_index_eq ha hb hindex)
  have hb' : (g.modifyLinks f a).get b = some eb := by
    rw [get_modifyLinks, if_neg (Ne.symm hab), hb]
  have hslot : ({ g with entries := g.entries.set a.index (.vacant ea.generation) } :
      Graph F β).slot b.index = .live eb := by
    rw [slot, List.getD_eq_getElem?_getD, List.getElem?_set_ne hindex, (get_eq_some_iff.1 hb).2.1,
      Option.getD_some]
  rw [modifyLinks_of_get h hb', modifyLinks_of_get f ha]
  simp only [editPair, slot_of_get ha, slot_of_get hb, Slot.generation, hslot, Slot.mapLinks]
  refine congrArg (fun entries => ({ g with entries := entries } : Graph F β)) ?_
  refine List.ext_getElem? fun i => ?_
  simp only [List.getElem?_set, List.length_set]
  split_ifs <;> rfl

end Graph

end Oak.Node
