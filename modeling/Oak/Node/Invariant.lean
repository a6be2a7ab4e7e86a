import Oak.Node.Slots

/-!
# What the graph operations preserve

The invariants of `oak-node/src/graph.rs`, and that every operation preserves them.

* The free list holds the vacant slots, each once (`FreeListOk`).
* The edges join live nodes, an element of an input has at most one of them, and they close no
  cycle (`EdgesOk`).
* A link between two nodes is recorded in both (`LinksOk`). The exception are the links that a node
  carried along when it was put into the arena: `take_node` leaves the links of the node it takes
  out, and removes those of its partners.

A graph with the three of them is `Sound`.

## Main results

* `Sound.allocate`, `Sound.addEntry`, `Sound.takeNode`: the slot operations.
* `Sound.connect`, `Sound.inputArrayInsert`, `Sound.inputArrayRemove`: the edge operations.
* `Sound.link`, `Sound.unlink`: the link operations.
* `Sound.copyDependencyGraph`: copies, by induction on the depth of the recursion.
-/

namespace Oak.Node

open Oak.Lib Relation

/-! ### The free list -/

/-- The free list holds the vacant slots, each once. -/
structure FreeListOk {β : Type*} (shells : List (ℕ × Option β)) (freeList : List ℕ) : Prop where
  nodup : freeList.Nodup
  mem_iff : ∀ i, i ∈ freeList ↔ ∃ n, shells[i]? = some (n, none)

namespace FreeListOk

variable {β : Type*} {shells : List (ℕ × Option β)} {freeList : List ℕ}

theorem fill (h : FreeListOk shells freeList) {i : ℕ} (hi : i ∈ freeList) (k : ℕ) (b : β) :
    FreeListOk (shells.set i (k, some b)) (freeList.filter fun j => j ≠ i) := by
  obtain ⟨n, hn⟩ := (h.mem_iff i).1 hi
  have hlt : i < shells.length := (List.getElem?_eq_some_iff.1 hn).1
  refine ⟨h.nodup.filter _, fun j => ?_⟩
  rw [List.mem_filter, h.mem_iff, List.getElem?_set]
  by_cases hij : i = j
  · subst hij
    simp [hlt]
  · simp [hij, Ne.symm hij]

theorem fill_top {i : ℕ} {rest : List ℕ} (h : FreeListOk shells (i :: rest)) (k : ℕ) (b : β) :
    FreeListOk (shells.set i (k, some b)) rest := by
  have hrest : ((i :: rest).filter fun j => j ≠ i) = rest := by
    have hi : i ∉ rest := (List.nodup_cons.1 h.nodup).1
    rw [List.filter_cons_of_neg (by simp), List.filter_eq_self]
    intro j hj
    simp [ne_of_mem_of_not_mem hj hi]
  have hfill := h.fill List.mem_cons_self k b
  rwa [hrest] at hfill

theorem concat (h : FreeListOk shells freeList) (k : ℕ) (b : β) :
    FreeListOk (shells ++ [(k, some b)]) freeList := by
  refine ⟨h.nodup, fun j => ?_⟩
  rw [h.mem_iff]
  rcases Nat.lt_trichotomy j shells.length with hj | rfl | hj
  · rw [List.getElem?_append_left hj]
  · simp
  · rw [List.getElem?_eq_none hj.le, List.getElem?_eq_none (by simp; omega)]

theorem vacate (h : FreeListOk shells freeList) {i k : ℕ} {b : β}
    (hi : shells[i]? = some (k, some b)) (n : ℕ) :
    FreeListOk (shells.set i (n, none)) (i :: freeList) := by
  have hlt : i < shells.length := (List.getElem?_eq_some_iff.1 hi).1
  have hfree : i ∉ freeList := by
    intro hmem
    obtain ⟨m, hm⟩ := (h.mem_iff i).1 hmem
    simp [hi] at hm
  refine ⟨List.nodup_cons.2 ⟨hfree, h.nodup⟩, fun j => ?_⟩
  rw [List.mem_cons, h.mem_iff, List.getElem?_set]
  by_cases hij : i = j
  · subst hij
    simp [hlt]
  · simp [hij, Ne.symm hij]

theorem length_eq (h : FreeListOk shells freeList) :
    freeList.length = shells.countP fun s => s.2.isNone := by
  have hperm : freeList.Perm ((List.range shells.length).filter fun i =>
      shells[i]?.any fun s => s.2.isNone) := by
    refine (List.perm_ext_iff_of_nodup h.nodup (List.nodup_range.filter _)).2 fun i => ?_
    rw [h.mem_iff, List.mem_filter, List.mem_range]
    constructor
    · rintro ⟨n, hn⟩
      exact ⟨(List.getElem?_eq_some_iff.1 hn).1, by simp [hn]⟩
    · rintro ⟨hi, hnone⟩
      rw [List.getElem?_eq_getElem hi, Option.any_some, Option.isNone_iff_eq_none] at hnone
      exact ⟨shells[i].1, by rw [List.getElem?_eq_getElem hi, ← hnone]⟩
  have hslots : (List.range shells.length).map (fun i => shells[i]?) = shells.map some := by
    refine List.ext_getElem (by simp) fun i hi _ => ?_
    have hlt : i < shells.length := by simpa using hi
    simp [hlt]
  have hcount : ((List.range shells.length).map fun i => shells[i]?).countP
      (fun o => o.any fun s => s.2.isNone) = shells.countP fun s => s.2.isNone := by
    rw [hslots, List.countP_map]
    rfl
  rw [hperm.length_eq, ← List.countP_eq_length_filter, ← hcount, List.countP_map]
  rfl

end FreeListOk

/-! ### The edges -/

/-- Along an edge. -/
def Feeds (edges : OrdSet Edge) (a b : NodeId) : Prop :=
  ∃ e ∈ edges, e.source = a ∧ e.target = b

/-- A number of 32 bits. -/
def IsI32 (n : ℤ) : Prop := -2 ^ 31 ≤ n ∧ n < 2 ^ 31

theorem toI32_of_isI32 {n : ℤ} (h : IsI32 n) : toI32 n = n := by
  obtain ⟨hlow, hhigh⟩ := h
  exact Int.bmod_eq_of_le (by simpa using hlow) (by simpa using hhigh)

/-- The edges join live nodes, an element of an input has at most one of them, and they close no
cycle. -/
structure EdgesOk (live : NodeId → Prop) (edges : OrdSet Edge) : Prop where
  ends : ∀ e ∈ edges, live e.source ∧ live e.target
  single : ∀ e ∈ edges, ∀ e' ∈ edges, e.target = e'.target → e.inputKey = e'.inputKey →
    e.element = e'.element → e = e'
  element : ∀ e ∈ edges, IsI32 e.element
  acyclic : Acyclic (Feeds edges)

namespace EdgesOk

variable {live live' : NodeId → Prop} {edges edges' : OrdSet Edge}

theorem empty : EdgesOk live ∅ := by
  refine ⟨by simp, by simp, by simp, fun a ha => ?_⟩
  obtain ⟨b, ⟨e, he, -⟩, -⟩ := TransGen.head'_iff.1 ha
  exact absurd he (OrdSet.notMem_empty e)

theorem mono (h : EdgesOk live edges) (hsub : ∀ e ∈ edges', e ∈ edges)
    (hlive : ∀ e ∈ edges', live e.source → live e.target → live' e.source ∧ live' e.target) :
    EdgesOk live' edges' where
  ends e he := hlive e he (h.ends e (hsub e he)).1 (h.ends e (hsub e he)).2
  single e he e' he' := h.single e (hsub e he) e' (hsub e' he')
  element e he := h.element e (hsub e he)
  acyclic := h.acyclic.mono fun _ _ ⟨e, he, hfeeds⟩ => ⟨e, hsub e he, hfeeds⟩

theorem live_mono (h : EdgesOk live edges) (hlive : ∀ x, live x → live' x) :
    EdgesOk live' edges :=
  h.mono (fun _ he => he) fun _ _ hs ht => ⟨hlive _ hs, hlive _ ht⟩

/-- A new edge into a free element, whose target does not reach its source. -/
theorem insert (h : EdgesOk live edges) {e : Edge} (hs : live e.source) (ht : live e.target)
    (hfree : ∀ e' ∈ edges, e'.target = e.target → e'.inputKey = e.inputKey →
      e'.element ≠ e.element)
    (he : IsI32 e.element) (hreach : ¬ ReflTransGen (Feeds edges) e.target e.source) :
    EdgesOk live (edges.insert e) := by
  refine ⟨fun x hx => ?_, fun x hx y hy htarget hkey hel => ?_, fun x hx => ?_, ?_⟩
  · rcases OrdSet.mem_insert.1 hx with rfl | hx
    · exact ⟨hs, ht⟩
    · exact h.ends x hx
  · rcases OrdSet.mem_insert.1 hx with hxe | hxold <;>
      rcases OrdSet.mem_insert.1 hy with hye | hyold
    · rw [hxe, hye]
    · rw [hxe] at htarget hkey hel
      exact absurd hel.symm (hfree y hyold htarget.symm hkey.symm)
    · rw [hye] at htarget hkey hel
      exact absurd hel (hfree x hxold htarget hkey)
    · exact h.single x hxold y hyold htarget hkey hel
  · rcases OrdSet.mem_insert.1 hx with rfl | hx
    · exact he
    · exact h.element x hx
  · refine (acyclic_insert h.acyclic hreach).mono ?_
    rintro a b ⟨x, hx, rfl, rfl⟩
    rcases OrdSet.mem_insert.1 hx with rfl | hx
    · exact .inr ⟨rfl, rfl⟩
    · exact .inl ⟨x, hx, rfl, rfl⟩

end EdgesOk

variable {f : Edge → Option Edge}

/-- An edge after a move was there before, or is what one of the moved edges became. -/
theorem Graph.mem_moveEdges {moves : List Edge} {edges : OrdSet Edge} {a : Edge}
    (h : a ∈ Graph.moveEdges f moves edges) :
    a ∈ edges ∧ a ∉ moves ∨ ∃ e ∈ moves, f e = some a := by
  induction moves generalizing edges with
  | nil => exact .inl ⟨h, List.not_mem_nil⟩
  | cons e moves ih =>
    rw [Graph.moveEdges, List.foldl_cons] at h
    rcases ih h with ⟨hmem, hnot⟩ | ⟨e', he', hf⟩
    · rcases hfe : f e with _ | shifted
      · rw [hfe, OrdSet.mem_erase] at hmem
        exact .inl ⟨hmem.1, List.not_mem_cons_of_ne_of_not_mem hmem.2 hnot⟩
      · rw [hfe, OrdSet.mem_insert, OrdSet.mem_erase] at hmem
        rcases hmem with rfl | hmem
        · exact .inr ⟨e, List.mem_cons_self, hfe⟩
        · exact .inl ⟨hmem.1, List.not_mem_cons_of_ne_of_not_mem hmem.2 hnot⟩
    · exact .inr ⟨e', List.mem_cons_of_mem e he', hf⟩

variable {id : NodeId}

namespace EdgesOk

variable {live : NodeId → Prop} {edges : OrdSet Edge}

/-- The edges into the elements of an input from `index` on move by `d` elements, and stay at or
above `index`. -/
theorem move (h : EdgesOk live edges) {key : ℕ} {index d : ℤ} {moves : List Edge}
    (hmoves : ∀ e, e ∈ moves ↔
      e ∈ edges ∧ e.target = id ∧ e.inputKey = key ∧ index ≤ e.element)
    (hf : ∀ e ∈ moves, ∀ e', f e = some e' → e' = { e with element := e.element + d } ∧
      index ≤ e.element + d ∧ IsI32 (e.element + d)) :
    EdgesOk live (Graph.moveEdges f moves edges) := by
  -- every edge comes from one with the same ends
  have hcases (a : Edge) (ha : a ∈ Graph.moveEdges f moves edges) : a ∈ edges ∧ a ∉ moves ∨
      ∃ e ∈ moves, a = { e with element := e.element + d } ∧ index ≤ a.element ∧
        IsI32 a.element := by
    rcases Graph.mem_moveEdges ha with ha | ⟨e, he, hfe⟩
    · exact .inl ha
    · obtain ⟨rfl, hindex, hi32⟩ := hf e he a hfe
      exact .inr ⟨e, he, rfl, hindex, hi32⟩
  -- an edge that stays is not at an element that another one moves to
  have hapart (a e : Edge) (ha : a ∈ edges ∧ a ∉ moves) (he : e ∈ moves)
      (hindex : index ≤ a.element) (ht : a.target = e.target) (hk : a.inputKey = e.inputKey) :
      False := by
    obtain ⟨-, htarget, hkey, -⟩ := (hmoves e).1 he
    exact ha.2 ((hmoves a).2 ⟨ha.1, ht.trans htarget, hk.trans hkey, hindex⟩)
  refine ⟨fun a ha => ?_, fun a ha b hb ht hk hel => ?_, fun a ha => ?_, ?_⟩
  · rcases hcases a ha with ha | ⟨e, he, rfl, -⟩
    · exact h.ends a ha.1
    · exact h.ends e ((hmoves e).1 he).1
  · rcases hcases a ha with ha | ⟨e, he, rfl, hea, -⟩ <;>
      rcases hcases b hb with hb | ⟨e', he', rfl, heb, -⟩
    · exact h.single a ha.1 b hb.1 ht hk hel
    · exact (hapart a e' ha he' (hel ▸ heb) ht hk).elim
    · exact (hapart b e hb he (hel ▸ hea) ht.symm hk.symm).elim
    · have hsame : e = e' :=
        h.single e ((hmoves e).1 he).1 e' ((hmoves e').1 he').1 ht hk (add_right_cancel hel)
      rw [hsame]
  · rcases hcases a ha with ha | ⟨e, -, -, -, hi32⟩
    · exact h.element a ha.1
    · exact hi32
  · refine h.acyclic.mono ?_
    rintro x y ⟨a, ha, rfl, rfl⟩
    rcases hcases a ha with ha | ⟨e, he, rfl, -⟩
    · exact ⟨a, ha.1, rfl, rfl⟩
    · exact ⟨e, ((hmoves e).1 he).1, rfl, rfl⟩

end EdgesOk

/-! ### Sound graphs -/

variable {input : String} {index : ℤ}

namespace Graph

variable {F β : Type*} {g g' : Graph F β} {carried : List (NodeId × NodeId)}

/-- A link is recorded in both nodes, unless its node carried it along. -/
def LinksOk (g : Graph F β) (carried : List (NodeId × NodeId)) : Prop :=
  ∀ a b, b ∈ g.linksOf a → (a, b) ∉ carried → g.isValid b = true ∧ a ∈ g.linksOf b

/-- The links that nodes carried along, after two nodes were linked or unlinked. -/
def relinked (a b : NodeId) (changed : Bool) (carried : List (NodeId × NodeId)) :
    List (NodeId × NodeId) :=
  if changed then carried.filter fun l => l ≠ (a, b) && l ≠ (b, a) else carried

/-! ### Copies -/

section Copies

variable {s : CopyState F β}

/-- What the copies of the sources and the new edges preserve. -/
theorem copyInputs_induction {P : CopyState F β → Prop} {C : NodeId × String × ℤ → Prop}
    {copySource : NodeId → CopyState F β → Option NodeId × CopyState F β} {copy : NodeId}
    (hsource : ∀ c s, C c → P s → P (copySource c.1 s).2)
    (hconnect : ∀ c s source g, C c → P s →
      s.graph.connect source copy c.2.1 c.2.2 = .ok g → P { s with graph := g })
    {connections : List (NodeId × String × ℤ)} (hconnections : ∀ c ∈ connections, C c) (h : P s) :
    P (copyInputs copySource copy connections s).2 := by
  induction connections generalizing s with
  | nil => exact h
  | cons c rest ih =>
    obtain ⟨hc, hrest⟩ := List.forall_mem_cons.1 hconnections
    have hcopied := hsource c s hc h
    obtain ⟨source, input, element⟩ := c
    rw [copyInputs]
    split
    · next t heq =>
      rw [heq] at hcopied
      exact hcopied
    · next sourceCopy t heq =>
      rw [heq] at hcopied
      split
      · next g hconnected => exact ih hrest (hconnect _ _ _ _ hc hcopied hconnected)
      · exact ih hrest hcopied

/-- What a new node without links and new edges preserve, by induction on the depth. -/
theorem copyDependencyGraph_induction [NodeBehavior F β] {P : Graph F β → Prop} {E : ℤ → Prop}
    (hadd : ∀ g core (behavior : β), core.links = [] → P g → P (g.addNode core behavior).1)
    (helement : ∀ g id, P g → ∀ c ∈ g.inputConnections id, E c.2.2)
    (hconnect : ∀ g g' source copy input element, E element → P g →
      g.connect source copy input element = .ok g' → P g')
    (fuel : ℕ) (node : NodeId) (h : P s.graph) :
    P (copyDependencyGraph fuel node s).2.graph := by
  induction fuel generalizing node s with
  | zero => exact h
  | succ fuel ih =>
    rw [copyDependencyGraph]
    split
    · exact h
    split
    · exact h
    split
    · exact h
    split_ifs
    · exact h
    · have hinputs (core : NodeCore F) (behavior : β) (created : NodeId → Option NodeId)
          (hlinks : core.links = []) : P (copyInputs (copyDependencyGraph fuel)
            (s.graph.addNode core behavior).2
            ((s.graph.addNode core behavior).1.inputConnections node)
            ⟨(s.graph.addNode core behavior).1, created⟩).2.graph := by
        have hadded := hadd s.graph core behavior hlinks h
        exact copyInputs_induction (P := fun s => P s.graph) (C := fun c => E c.2.2)
          (fun c s _ h => ih c.1 h) (fun _ _ _ _ hc h => hconnect _ _ _ _ _ _ hc h)
          (helement _ node hadded) hadded
      dsimp only
      split
      · next heq => exact (congrArg (fun r => P r.2.graph) heq).mp (hinputs _ _ _ rfl)
      · next heq => exact (congrArg (fun r => P r.2.graph) heq).mp (hinputs _ _ _ rfl)

end Copies

/-- What every operation preserves. -/
structure Sound (g : Graph F β) (carried : List (NodeId × NodeId)) : Prop where
  slots : FreeListOk g.shells g.freeList
  edges : EdgesOk (fun id => g.isValid id = true) g.edges
  links : g.LinksOk carried

theorem sound_new : (new : Graph F β).Sound [] := by
  refine ⟨⟨List.nodup_nil, fun i => ?_⟩, EdgesOk.empty, fun a b hb => ?_⟩
  · simp [new, shells]
  · rw [linksOf_of_stale (by simp [new, get])] at hb
    exact absurd hb List.not_mem_nil

namespace Sound

section

variable (h : g.Sound carried)

include h

/-- A graph in which the same nodes are found with the same links. -/
theorem frame (hvalid : ∀ x, g'.isValid x = g.isValid x) (hlinks : ∀ x, g'.linksOf x = g.linksOf x)
    (hshells : g'.shells = g.shells) (hfree : g'.freeList = g.freeList)
    (hedges : EdgesOk (fun id => g.isValid id = true) g'.edges) : g'.Sound carried := by
  refine ⟨?_, ?_, fun a b hb hcarried => ?_⟩
  · rw [hshells, hfree]
    exact h.slots
  · exact hedges.live_mono fun x hx => (hvalid x).trans hx
  · rw [hlinks] at hb ⊢
    rw [hvalid]
    exact h.links a b hb hcarried

theorem freeVacant : g.FreeVacant := by
  intro i hi
  obtain ⟨n, hn⟩ := (h.slots.mem_iff i).1 hi
  exact ⟨n, shells_eq_vacant_iff.1 hn⟩

theorem add {core : NodeCore F} (hslots : FreeListOk g'.shells g'.freeList)
    (hedges : g'.edges = g.edges) (hkeep : ∀ x e, g.get x = some e → g'.get x = some e)
    (hnew : ∀ x e, g'.get x = some e → g.get x = some e ∨ x = id ∧ e.core = core) :
    g'.Sound (core.links.map (fun l => (id, l)) ++ carried) := by
  have hlive (x : NodeId) (hx : g.isValid x = true) : g'.isValid x = true := by
    obtain ⟨e, he⟩ := isValid_iff.1 hx
    exact isValid_of_get (hkeep x e he)
  refine ⟨hslots, hedges ▸ h.edges.live_mono hlive, fun a b hb hcarried => ?_⟩
  rw [List.mem_append, not_or] at hcarried
  rcases ha : g'.get a with _ | e
  · rw [linksOf_of_stale ha] at hb
    exact absurd hb List.not_mem_nil
  · rw [linksOf_of_get ha] at hb
    rcases hnew a e ha with hold | ⟨rfl, rfl⟩
    · obtain ⟨hvalid, hback⟩ := h.links a b (by rwa [linksOf_of_get hold]) hcarried.2
      obtain ⟨eb, heb⟩ := isValid_iff.1 hvalid
      rw [linksOf_of_get heb] at hback
      exact ⟨hlive b hvalid, by rwa [linksOf_of_get (hkeep b eb heb)]⟩
    · exact absurd (List.mem_map.2 ⟨b, hb, rfl⟩) hcarried.1

theorem allocate (core : NodeCore F) (behavior : β) :
    (g.allocate core behavior).1.Sound
      (core.links.map (fun l => ((g.allocate core behavior).2, l)) ++ carried) := by
  refine h.add ?_ ?_ (fun x e hx => get_allocate_of_get h.freeVacant hx core behavior)
    fun x e hx => (get_allocate_cases hx).imp_right fun hnew => ⟨hnew.1, hnew.2.1⟩
  · rcases hlist : g.freeList with _ | ⟨i, rest⟩
    · rw [allocate_append hlist, shells_concat]
      exact h.slots.concat _ _
    · rw [allocate_reuse hlist, shells_set]
      exact (hlist ▸ h.slots).fill_top _ _
  · rw [edges_allocate]

theorem addEntry (entry : NodeEntry F β) (id : NodeId) :
    (g.addEntry entry id).1.Sound
      (entry.core.links.map (fun l => ((g.addEntry entry id).2, l)) ++ carried) := by
  by_cases hslot : ∃ n, g.entries[id.index]? = some (.vacant n)
  · obtain ⟨n, hslot⟩ := hslot
    have hfree : id.index ∈ g.freeList :=
      (h.slots.mem_iff _).2 ⟨n, by rw [shells, List.getElem?_map, hslot]; rfl⟩
    refine h.add ?_ ?_ (fun x e hx => get_addEntry_of_get h.freeVacant hx entry)
      fun x e hx => (get_addEntry_cases hx).imp_right fun hnew => ⟨hnew.1, hnew.2.1⟩
    · rw [addEntry_in_place hslot, shells_set]
      exact h.slots.fill hfree _ _
    · rw [addEntry_in_place hslot]
  · rw [addEntry_elsewhere fun n hn => hslot ⟨n, hn⟩]
    exact h.allocate entry.core entry.behavior

/-- A node leaves, with the links that it carried along. -/
theorem takeNode {entry : NodeEntry F β} (htake : g.takeNode id = some (g', entry)) :
    g'.Sound (carried.filter fun l => l.1 ≠ id) := by
  obtain ⟨hget, hshells, hfree, hedges, -, hgets⟩ := takeNode_spec htake
  have hlive (x : NodeId) : g'.isValid x = true ↔ g.isValid x = true ∧ x ≠ id := by
    rw [isValid_iff, isValid_iff, hgets]
    by_cases hx : x.index = id.index
    · rw [if_pos hx]
      simp only [reduceCtorEq, exists_false, false_iff, not_and, not_not]
      rintro ⟨e, he⟩
      exact eq_of_index_eq he hget hx
    · have hne : x ≠ id := fun heq => hx (congrArg NodeId.index heq)
      rw [if_neg hx]
      split_ifs
      · simp [hne]
      · simp [hne]
  -- the links of the nodes that stay
  have hlinks (x y : NodeId) (hx : g'.isValid x = true) :
      y ∈ g'.linksOf x ↔ y ∈ g.linksOf x ∧ (x ∈ entry.core.links → y ≠ id) := by
    obtain ⟨hxlive, hne⟩ := (hlive x).1 hx
    obtain ⟨e, he⟩ := isValid_iff.1 hxlive
    have hindex : x.index ≠ id.index := fun hindex => hne (eq_of_index_eq he hget hindex)
    rw [linksOf, hgets, if_neg hindex, linksOf_of_get he, he]
    split_ifs with hpartner <;> simp [NodeEntry.withLinks, hpartner]
  refine ⟨?_, ?_, fun a b hb hcarried => ?_⟩
  · rw [hshells, hfree]
    exact h.slots.vacate (shell_of_get hget) _
  · rw [hedges]
    refine h.edges.mono (fun e he => (OrdSet.mem_filter.1 he).1) fun e he hs ht => ?_
    obtain ⟨-, hid⟩ := OrdSet.mem_filter.1 he
    simp only [Bool.not_or, Bool.and_eq_true, Bool.not_eq_true', decide_eq_false_iff_not] at hid
    exact ⟨(hlive _).2 ⟨hs, hid.1⟩, (hlive _).2 ⟨ht, hid.2⟩⟩
  · have ha : g'.isValid a = true := by
      rcases haget : g'.get a with _ | e
      · rw [linksOf_of_stale haget] at hb
        exact absurd hb List.not_mem_nil
      · exact isValid_of_get haget
    obtain ⟨hb, hpartner⟩ := (hlinks a b ha).1 hb
    have hane : a ≠ id := ((hlive a).1 ha).2
    obtain ⟨hvalid, hback⟩ := h.links a b hb fun hc =>
      hcarried (List.mem_filter.2 ⟨hc, by simp [hane]⟩)
    have hbne : b ≠ id := by
      rintro rfl
      rw [linksOf_of_get hget] at hback
      exact hpartner hback rfl
    have hblive := (hlive b).2 ⟨hvalid, hbne⟩
    exact ⟨hblive, (hlinks b a hblive).2 ⟨hback, fun _ => hane⟩⟩

theorem erase_edges {edges : OrdSet Edge} (hsub : ∀ e ∈ edges, e ∈ g.edges) :
    ({ g with edges := edges } : Graph F β).Sound carried :=
  h.frame (fun _ => rfl) (fun _ => rfl) rfl rfl (h.edges.mono hsub fun _ _ hs ht => ⟨hs, ht⟩)

theorem disconnect (source target : NodeId) (input : String) (element : ℤ) :
    (g.disconnect source target input element).Sound carried :=
  h.erase_edges fun _ he => (OrdSet.mem_erase.1 he).1

theorem disconnectInput (target : NodeId) (input : String) (element : ℤ) :
    (g.disconnectInput target input element).1.Sound carried := by
  rw [Graph.disconnectInput]
  split
  · exact h
  · exact h.disconnect _ _ _ _

/-- A connection is made only where it closes no cycle. -/
theorem connect {source target : NodeId} {element : ℤ} (helement : IsI32 element)
    (hconnect : g.connect source target input element = .ok g') : g'.Sound carried := by
  obtain ⟨es, et, i, hs, ht, -, -, -, hconnected, hreaches, rfl⟩ := connect_cases hconnect
  have hget (x : NodeId) : ({ g.internInput input with
      edges := g.edges.insert ⟨source, target, hashStr input, element⟩ } : Graph F β).get x =
        g.get x := get_congr (by rw [entries_internInput])
  refine h.frame (fun x => congrArg Option.isSome (hget x)) (fun x => linksOf_congr (hget x))
    (congrArg (List.map Slot.shell) entries_internInput) freeList_internInput ?_
  refine h.edges.insert (isValid_of_get hs) (isValid_of_get ht) ?_ helement fun hpath => ?_
  · intro e he htarget hkey hel
    rw [connectedOutput, Option.map_eq_none_iff, List.find?_eq_none] at hconnected
    exact hconnected e he (by simp [htarget, hkey, hel])
  · exact absurd (hreaches.symm.trans ((search_eq_true_iff (by omega)).2 hpath)) (by simp)

end

theorem mem_elementsFrom (e : Edge) :
    e ∈ g.elementsFrom id input index ↔
      e ∈ g.edges ∧ e.target = id ∧ e.inputKey = hashStr input ∧ index ≤ e.element := by
  simp [elementsFrom, OrdSet.mem_toList, and_assoc]

/-- The elements from the new one on move up. -/
theorem inputArrayInsert (h : g.Sound carried)
    (helement : ∀ e ∈ g.elementsFrom id input index, e.element + 1 < 2 ^ 31)
    (hinsert : g.inputArrayInsert id input index = .ok g') : g'.Sound carried := by
  obtain ⟨entry, hget, hindex, rfl⟩ := inputArrayInsert_cases hinsert
  refine h.frame (fun x => isValid_setCore hget _)
    (fun x => linksOf_setCore hget (NodeCore.links_inputArrayInsert _ _ _))
    (shells_setCore hget _) rfl ?_
  dsimp only
  refine h.edges.move (d := 1) mem_elementsFrom fun e he e' he' => ?_
  have hlow : index ≤ e.element := ((mem_elementsFrom e).1 he).2.2.2
  have hhigh := helement e he
  have hi32 : IsI32 (e.element + 1) := ⟨by omega, hhigh⟩
  rw [toI32_of_isI32 hi32, Option.some.injEq] at he'
  exact ⟨he'.symm, by omega, hi32⟩

/-- The elements past the removed one move down. -/
theorem inputArrayRemove (h : g.Sound carried)
    (hremove : g.inputArrayRemove id input index = .ok g') : g'.Sound carried := by
  obtain ⟨entry, hget, hindex, rfl⟩ := inputArrayRemove_cases hremove
  refine h.frame (fun x => isValid_setCore hget _)
    (fun x => linksOf_setCore hget (NodeCore.links_inputArrayRemove _ _ _))
    (shells_setCore hget _) rfl ?_
  dsimp only
  refine h.edges.move (d := -1) mem_elementsFrom fun e he e' he' => ?_
  have hold := h.edges.element e ((mem_elementsFrom e).1 he).1
  split_ifs at he' with hlt
  have hi32 : IsI32 (e.element - 1) := ⟨by have := hold.1; omega, by have := hold.2; omega⟩
  rw [toI32_of_isI32 hi32, Option.some.injEq] at he'
  exact ⟨he'.symm, by omega, hi32⟩

/-- The links of two nodes change, in both nodes or in neither. -/
theorem editPair (h : g.Sound carried) {a b : NodeId} {carried' : List (NodeId × NodeId)}
    {f k : List NodeId → List NodeId} (ha : g.isValid a = true) (hb : g.isValid b = true)
    (hab : a ≠ b)
    (hf : ∀ x, x ≠ b → (x ∈ f (g.linksOf a) ↔ x ∈ g.linksOf a))
    (hk : ∀ x, x ≠ a → (x ∈ k (g.linksOf b) ↔ x ∈ g.linksOf b))
    (hboth : b ∈ f (g.linksOf a) ↔ a ∈ k (g.linksOf b))
    (hcarried : ∀ l ∈ carried, l ≠ (a, b) → l ≠ (b, a) → l ∈ carried') :
    (g.editPair a b f k).Sound carried' := by
  obtain ⟨ea, hea⟩ := isValid_iff.1 ha
  obtain ⟨eb, heb⟩ := isValid_iff.1 hb
  rw [editPair_eq hea heb hab]
  have hvalid (x : NodeId) :
      ((g.modifyLinks f a).modifyLinks k b).isValid x = g.isValid x := by simp
  have hla : ((g.modifyLinks f a).modifyLinks k b).linksOf a = f (g.linksOf a) := by
    rw [linksOf_modifyLinks _ (by simpa using ha), if_neg hab, linksOf_modifyLinks _ ha, if_pos rfl]
  have hlb : ((g.modifyLinks f a).modifyLinks k b).linksOf b = k (g.linksOf b) := by
    rw [linksOf_modifyLinks _ (by simpa using hb), if_pos rfl, linksOf_modifyLinks _ hb,
      if_neg (Ne.symm hab)]
  have hother (x : NodeId) (hxa : x ≠ a) (hxb : x ≠ b) :
      ((g.modifyLinks f a).modifyLinks k b).linksOf x = g.linksOf x := by
    refine linksOf_congr ?_
    rw [get_modifyLinks, if_neg hxb, get_modifyLinks, if_neg hxa]
  -- a link that is not between the two is where it was
  have hmem (x y : NodeId) (hxy : ¬ (x = a ∧ y = b)) (hyx : ¬ (x = b ∧ y = a)) :
      y ∈ ((g.modifyLinks f a).modifyLinks k b).linksOf x ↔ y ∈ g.linksOf x := by
    by_cases hxa : x = a
    · subst hxa
      rw [hla]
      exact hf y fun hy => hxy ⟨rfl, hy⟩
    · by_cases hxb : x = b
      · subst hxb
        rw [hlb]
        exact hk y fun hy => hyx ⟨rfl, hy⟩
      · rw [hother x hxa hxb]
  refine ⟨by simpa using h.slots, by simpa using h.edges, fun x y hy hout => ?_⟩
  rw [hvalid]
  by_cases hxy : x = a ∧ y = b
  · obtain ⟨rfl, rfl⟩ := hxy
    rw [hla] at hy
    exact ⟨hb, by rw [hlb]; exact hboth.1 hy⟩
  · by_cases hyx : x = b ∧ y = a
    · obtain ⟨rfl, rfl⟩ := hyx
      rw [hlb] at hy
      exact ⟨ha, by rw [hla]; exact hboth.2 hy⟩
    · rw [hmem x y hxy hyx] at hy
      obtain ⟨hylive, hback⟩ := h.links x y hy fun hin =>
        hout (hcarried _ hin (fun heq => hxy (Prod.mk.inj heq)) fun heq => hyx (Prod.mk.inj heq))
      exact ⟨hylive, (hmem y x (fun hc => hyx hc.symm) fun hc => hxy hc.symm).2 hback⟩

/-- Each of two nodes lists the other afterwards. -/
theorem link (h : g.Sound carried) (a b : NodeId) :
    (g.link a b).1.Sound (relinked a b (g.link a b).2 carried) := by
  rw [Graph.link]
  dsimp only
  split
  · exact h
  next hrefused =>
  split
  · exact h
  next hboth =>
    simp only [Bool.or_eq_true, decide_eq_true_eq, Bool.not_eq_true', not_or,
      Bool.not_eq_false] at hrefused
    refine h.editPair hrefused.1.2 hrefused.2 hrefused.1.1 (fun x hx => ?_) (fun x hx => ?_) ?_
      fun l hl hab hba => List.mem_filter.2 ⟨hl, by simp [hab, hba]⟩
    · split_ifs <;> simp [hx]
    · split_ifs <;> simp [hx]
    · split_ifs <;> simp_all

/-- Neither of two live nodes lists the other afterwards. -/
theorem unlink (h : g.Sound carried) {a b : NodeId}
    (hlive : g.areLinked a b = true → a ≠ b ∧ g.isValid a = true ∧ g.isValid b = true) :
    (g.unlink a b).1.Sound (relinked a b (g.unlink a b).2 carried) := by
  rw [Graph.unlink]
  split_ifs with hlinked
  · obtain ⟨hne, ha, hb⟩ := hlive hlinked
    exact h.editPair ha hb hne (fun x hx => by simp [hx]) (fun x hx => by simp [hx]) (by simp)
      fun l hl hab hba => List.mem_filter.2 ⟨hl, by simp [hab, hba]⟩
  · exact h

theorem isI32_inputConnections (h : g.Sound carried) (id : NodeId) :
    ∀ c ∈ g.inputConnections id, IsI32 c.2.2 := by
  intro c hc
  obtain ⟨e, he, rfl⟩ := List.mem_map.1 hc
  exact h.edges.element e (List.mem_filter.1 he).1

/-- A copy brings no links along. -/
theorem copyDependencyGraph [NodeBehavior F β] (fuel : ℕ) (node : NodeId) {s : CopyState F β}
    (h : s.graph.Sound carried) :
    (Graph.copyDependencyGraph fuel node s).2.graph.Sound carried := by
  refine copyDependencyGraph_induction (P := fun g => g.Sound carried)
    (fun g core behavior hlinks h => ?_)
    (fun _ id h => h.isI32_inputConnections id)
    (fun _ _ _ _ _ _ helement h hconnect => h.connect helement hconnect) fuel node h
  have hadded := h.allocate core behavior
  rwa [hlinks, List.map_nil, List.nil_append] at hadded

end Sound

end Graph

end Oak.Node
