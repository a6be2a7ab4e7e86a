import Oak.Node.Slots
import Oak.Lib.Machine

/-!
# Node identities in the arena

Every node that `add_node` puts into the arena is a node of its own. A run of the slot operations
(`ArenaRun`) hands out ids: one for every added node, and one for every node that is put back. It
remembers for which node each was issued (`names`) and which nodes are out of the arena (`held`).

`StableIds` is what the generations of the slots are for: an id is issued for one node only, and
finds no other. `add_entry` puts a node back under its old generation. A slot that was used in
between goes back to that generation, and its next fresh occupant gets an id that is in use.

## Main results

* `reissued_id`: a run in which two nodes get the same id.
* `stableIds_run`: ids are stable in every run that puts a node back only into a slot that still
  has the node's generation, and runs out of neither generations nor slots.
-/

namespace Oak.Node

open Oak.Core Oak.Lib

/-- A behavior with the number of the node it belongs to. -/
structure Named (β : Type*) where
  behavior : β
  node : ℕ
  deriving DecidableEq, Repr

instance {F β : Type*} [NodeBehavior F β] : NodeBehavior F (Named β) where
  typeId b := NodeBehavior.typeId b.behavior
  duplicate b core := (NodeBehavior.duplicate b.behavior core).map fun c => ⟨c, b.node⟩
  activeElementsAtTime b := NodeBehavior.activeElementsAtTime b.behavior
  connectedRenderOutput b := NodeBehavior.connectedRenderOutput b.behavior
  inputTimeAdjustment b := NodeBehavior.inputTimeAdjustment b.behavior
  value b := NodeBehavior.value b.behavior

/-- A run of slot operations. -/
structure ArenaRun (F β : Type*) where
  graph : Graph F (Named β)
  /-- The nodes that were taken out and not put back, with the ids they were taken from. -/
  held : List (NodeEntry F (Named β) × NodeId)
  /-- The ids handed out, with the node each was issued for. -/
  names : List (NodeId × ℕ)
  /-- The number of nodes added so far. -/
  count : ℕ

/-- The slot operations of a run. `readd k` puts the `k`-th node back that is out. -/
inductive SlotAction (F β : Type*) where
  | add (core : NodeCore F) (behavior : β)
  | remove (id : NodeId)
  | take (id : NodeId)
  | readd (k : ℕ)

namespace ArenaRun

variable {F β : Type*}

/-- An empty arena. -/
def start : ArenaRun F β := ⟨.new, [], [], 0⟩

/-- One operation. -/
def act [NodeBehavior F β] (r : ArenaRun F β) : SlotAction F β → ArenaRun F β
  | .add core behavior =>
    let added := r.graph.addNode core ⟨behavior, r.count⟩
    { r with graph := added.1, names := (added.2, r.count) :: r.names, count := r.count + 1 }
  | .remove id =>
    match r.graph.removeNode id with
    | none => r
    | some (g, _) => { r with graph := g }
  | .take id =>
    match r.graph.takeNode id with
    | none => r
    | some (g, entry) => { r with graph := g, held := (entry, id) :: r.held }
  | .readd k =>
    match r.held[k]? with
    | none => r
    | some (entry, id) =>
      let added := r.graph.addEntry entry id
      { r with
        graph := added.1
        held := r.held.eraseIdx k
        names := (added.2, entry.behavior.node) :: r.names }

/-- An id is issued for one node only, and finds no other. -/
structure StableIds (r : ArenaRun F β) : Prop where
  issued : ∀ id m n, (id, m) ∈ r.names → (id, n) ∈ r.names → m = n
  found : ∀ id n entry, (id, n) ∈ r.names → r.graph.get id = some entry → entry.behavior.node = n

/-- There is a slot for one more node, and its next generation is a number of 32 bits. -/
def HasRoom (g : Graph F (Named β)) : Prop :=
  match g.freeList with
  | i :: _ => (g.slot i).generation + 1 < u32Size
  | [] => g.entries.length < u32Size

/-- A node is put back into its slot only while the slot still has the generation of the node, and
a node that is put elsewhere finds room. -/
def Orderly (r : ArenaRun F β) : SlotAction F β → Prop
  | .add _ _ => HasRoom r.graph
  | .readd k => ∀ entry id, r.held[k]? = some (entry, id) →
    match r.graph.entries[id.index]? with
    | some (.vacant generation) => generation = entry.generation
    | _ => HasRoom r.graph
  | _ => True

/-! ### Ids and slots -/

/-- Every id that was handed out was issued for one node, and is not ahead of its slot; the
occupant of a slot is the node that its id was issued for. -/
structure Behind (shells : List (ℕ × Option (Named β))) (names : List (NodeId × ℕ)) : Prop where
  issued : ∀ id m n, (id, m) ∈ names → (id, n) ∈ names → m = n
  behind : ∀ id n, (id, n) ∈ names → ∃ s, shells[id.index]? = some s ∧ id.generation ≤ s.1
  live : ∀ i k b, shells[i]? = some (k, some b) → (⟨i, k⟩, b.node) ∈ names

section Behind

variable {shells : List (ℕ × Option (Named β))} {names : List (NodeId × ℕ)}

/-- An occupant under a generation that is new for its slot, or under the id it had before. -/
theorem Behind.fill (h : Behind shells names) {i k : ℕ} {b : Named β} {old : ℕ × Option (Named β)}
    (hi : shells[i]? = some old) (hk : old.1 ≤ k)
    (hid : old.1 < k ∨ (⟨i, k⟩, b.node) ∈ names) :
    Behind (shells.set i (k, some b)) ((⟨i, k⟩, b.node) :: names) := by
  have hlt : i < shells.length := (List.getElem?_eq_some_iff.1 hi).1
  have hsame (n : ℕ) (hn : (⟨i, k⟩, n) ∈ names) : n = b.node := by
    rcases hid with hid | hid
    · obtain ⟨s, hs, hle⟩ := h.behind _ _ hn
      rw [hi, Option.some.injEq] at hs
      subst hs
      exact absurd hid (not_lt.2 hle)
    · exact h.issued _ _ _ hn hid
  refine ⟨fun id m n hm hn => ?_, fun id n hn => ?_, fun j l c hj => ?_⟩
  · rcases List.mem_cons.1 hm with hm | hm <;> rcases List.mem_cons.1 hn with hn | hn
    · rw [(Prod.mk.inj hm).2, (Prod.mk.inj hn).2]
    · rw [(Prod.mk.inj hm).2, hsame n ((Prod.mk.inj hm).1 ▸ hn)]
    · rw [(Prod.mk.inj hn).2, hsame m ((Prod.mk.inj hn).1 ▸ hm)]
    · exact h.issued id m n hm hn
  · rw [List.getElem?_set]
    rcases List.mem_cons.1 hn with hn | hn
    · obtain ⟨rfl, -⟩ := Prod.mk.inj hn
      exact ⟨(k, some b), by simp [hlt], le_rfl⟩
    · obtain ⟨s, hs, hle⟩ := h.behind id n hn
      by_cases hindex : i = id.index
      · rw [← hindex, hi, Option.some.injEq] at hs
        exact ⟨(k, some b), by rw [if_pos hindex, if_pos hlt], (hs ▸ hle).trans hk⟩
      · exact ⟨s, by simpa [hindex] using hs, hle⟩
  · rw [List.getElem?_set] at hj
    split_ifs at hj with hij
    · obtain ⟨rfl, hb⟩ := Prod.mk.inj (Option.some.inj hj)
      rw [Option.some.injEq] at hb
      subst hij hb
      exact List.mem_cons_self
    · exact List.mem_cons_of_mem _ (h.live j l c hj)

theorem Behind.concat (h : Behind shells names) (b : Named β) :
    Behind (shells ++ [(0, some b)]) ((⟨shells.length, 0⟩, b.node) :: names) := by
  have hbound (id : NodeId) (n : ℕ) (hn : (id, n) ∈ names) : id.index < shells.length := by
    obtain ⟨s, hs, -⟩ := h.behind id n hn
    exact (List.getElem?_eq_some_iff.1 hs).1
  have hnew (n : ℕ) : (⟨shells.length, 0⟩, n) ∉ names := fun hn =>
    absurd (hbound _ _ hn) (lt_irrefl _)
  refine ⟨fun id m n hm hn => ?_, fun id n hn => ?_, fun j l c hj => ?_⟩
  · rcases List.mem_cons.1 hm with hm | hm <;> rcases List.mem_cons.1 hn with hn | hn
    · rw [(Prod.mk.inj hm).2, (Prod.mk.inj hn).2]
    · exact absurd ((Prod.mk.inj hm).1 ▸ hn) (hnew n)
    · exact absurd ((Prod.mk.inj hn).1 ▸ hm) (hnew m)
    · exact h.issued id m n hm hn
  · rcases List.mem_cons.1 hn with hn | hn
    · obtain ⟨rfl, -⟩ := Prod.mk.inj hn
      exact ⟨(0, some b), by simp, le_rfl⟩
    · obtain ⟨s, hs, hle⟩ := h.behind id n hn
      exact ⟨s, by rw [List.getElem?_append_left (hbound id n hn), hs], hle⟩
  · rcases Nat.lt_or_ge j shells.length with hlt | hge
    · rw [List.getElem?_append_left hlt] at hj
      exact List.mem_cons_of_mem _ (h.live j l c hj)
    · rw [List.getElem?_append_right hge, List.getElem?_singleton] at hj
      split_ifs at hj with hzero
      obtain ⟨rfl, hb⟩ := Prod.mk.inj (Option.some.inj hj)
      rw [Option.some.injEq] at hb
      obtain rfl : j = shells.length := by omega
      exact hb ▸ List.mem_cons_self

theorem Behind.vacate (h : Behind shells names) {i k : ℕ} {o : Option (Named β)}
    (hi : shells[i]? = some (k, o)) : Behind (shells.set i (k, none)) names := by
  have hlt : i < shells.length := (List.getElem?_eq_some_iff.1 hi).1
  refine ⟨h.issued, fun id n hn => ?_, fun j l c hj => ?_⟩
  · obtain ⟨s, hs, hle⟩ := h.behind id n hn
    rw [List.getElem?_set]
    by_cases hindex : i = id.index
    · rw [← hindex, hi, Option.some.injEq] at hs
      subst hs
      exact ⟨(k, none), by rw [if_pos hindex, if_pos hlt], hle⟩
    · exact ⟨s, by simpa [hindex] using hs, hle⟩
  · rw [List.getElem?_set] at hj
    split_ifs at hj with hij
    · simp at hj
    · exact h.live j l c hj

end Behind

variable {g : Graph F (Named β)}

/-- A node that is allocated where there is room gets an id of its own. -/
theorem Behind.allocate {names : List (NodeId × ℕ)} (h : Behind g.shells names)
    (hfree : ∀ i ∈ g.freeList, i < g.shells.length) (hroom : HasRoom g) (core : NodeCore F)
    (b : Named β) :
    Behind (g.allocate core b).1.shells (((g.allocate core b).2, b.node) :: names) ∧
      g.shells.length ≤ (g.allocate core b).1.shells.length ∧
      ∀ i ∈ (g.allocate core b).1.freeList, i ∈ g.freeList := by
  rcases hlist : g.freeList with _ | ⟨i, rest⟩
  · rw [HasRoom, hlist] at hroom
    rw [Graph.allocate_append hlist, Graph.shells_concat, Nat.mod_eq_of_lt hroom,
      ← Graph.length_shells]
    exact ⟨h.concat b, by simp, by simp [hlist]⟩
  · rw [HasRoom, hlist] at hroom
    have hlt : i < g.shells.length := hfree i (hlist ▸ List.mem_cons_self)
    have hgen : (g.shells[i]?.map Prod.fst) = some (g.slot i).generation := by
      rw [Graph.length_shells] at hlt
      simp [Graph.shells, Graph.slot, Slot.shell, hlt]
    obtain ⟨old, hold, hgen⟩ := Option.map_eq_some_iff.1 hgen
    rw [Graph.allocate_reuse hlist, Graph.shells_set, Nat.mod_eq_of_lt hroom]
    have hnext : old.1 < (g.slot i).generation + 1 := hgen ▸ Nat.lt_succ_self _
    exact ⟨h.fill hold hnext.le (.inl hnext), by simp, fun j hj => List.mem_cons_of_mem i hj⟩

/-! ### Orderly runs -/

/-- What an orderly run preserves. -/
structure Ordered (r : ArenaRun F β) : Prop where
  names : Behind r.graph.shells r.names
  held : ∀ entry id, (entry, id) ∈ r.held →
    entry.generation = id.generation ∧ (id, entry.behavior.node) ∈ r.names
  free : ∀ i ∈ r.graph.freeList, i < r.graph.shells.length

theorem ordered_start : Ordered (start : ArenaRun F β) := by
  refine ⟨⟨?_, ?_, ?_⟩, ?_, ?_⟩ <;> simp [start, Graph.new, Graph.shells]

theorem Ordered.stableIds {r : ArenaRun F β} (h : Ordered r) : StableIds r := by
  refine ⟨h.names.issued, fun id n entry hn hget => ?_⟩
  exact h.names.issued id _ _ (h.names.live _ _ _ (Graph.shell_of_get hget)) hn

variable {r : ArenaRun F β}

theorem Ordered.allocate (h : Ordered r) (hroom : HasRoom r.graph) (core : NodeCore F)
    (b : Named β) {count : ℕ} {held : List (NodeEntry F (Named β) × NodeId)}
    (hheld : ∀ x ∈ held, x ∈ r.held) :
    Ordered (⟨(r.graph.allocate core b).1, held,
      ((r.graph.allocate core b).2, b.node) :: r.names, count⟩ : ArenaRun F β) := by
  obtain ⟨hnames, hlen, hfree⟩ := h.names.allocate h.free hroom core b
  refine ⟨hnames, fun entry id hx => ?_, fun i hi => (h.free i (hfree i hi)).trans_le hlen⟩
  exact (h.held entry id (hheld _ hx)).imp_right (List.mem_cons_of_mem _)

variable {entry : NodeEntry F (Named β)}

theorem Ordered.take (h : Ordered r) {id : NodeId} (htake : r.graph.takeNode id = some (g, entry)) :
    Ordered { r with graph := g } ∧
      Ordered { r with graph := g, held := (entry, id) :: r.held } := by
  obtain ⟨hget, hshells, hfree, -⟩ := Graph.takeNode_spec htake
  have hshell := Graph.shell_of_get hget
  have hlt := (List.getElem?_eq_some_iff.1 hshell).1
  rw [Graph.generation_of_get hget] at hshells
  have hnames : Behind g.shells r.names := hshells ▸ h.names.vacate hshell
  have hbound (i : ℕ) (hi : i ∈ g.freeList) : i < g.shells.length := by
    rw [hshells, List.length_set]
    rcases List.mem_cons.1 (hfree ▸ hi) with rfl | hi
    · exact hlt
    · exact h.free i hi
  refine ⟨⟨hnames, h.held, hbound⟩, ⟨hnames, fun e x hx => ?_, hbound⟩⟩
  rcases List.mem_cons.1 hx with hx | hx
  · obtain ⟨rfl, rfl⟩ := Prod.mk.inj hx
    exact ⟨Graph.generation_of_get hget, h.names.live _ _ _ hshell⟩
  · exact h.held e x hx

/-- A node goes back into the slot that still has its generation. -/
theorem Ordered.putBack (h : Ordered r) {k : ℕ} {id : NodeId}
    (hheld : r.held[k]? = some (entry, id))
    (hslot : r.graph.entries[id.index]? = some (.vacant entry.generation)) :
    Ordered { r with
      graph := (r.graph.addEntry entry id).1
      held := r.held.eraseIdx k
      names := ((r.graph.addEntry entry id).2, entry.behavior.node) :: r.names } := by
  obtain ⟨hgen, hname⟩ := h.held entry id (List.mem_of_getElem? hheld)
  have hshell : r.graph.shells[id.index]? = some (entry.generation, none) := by
    simp [Graph.shells, hslot, Slot.shell, Slot.generation, Slot.occupant]
  rw [Graph.addEntry_in_place hslot]
  refine ⟨?_, fun e x hx => ?_, fun i hi => ?_⟩
  · have hfill := h.names.fill (b := entry.behavior) hshell le_rfl
      (.inr (by rw [hgen]; exact hname))
    rwa [Graph.shells_set]
  · exact (h.held e x (List.mem_of_mem_eraseIdx hx)).imp_right (List.mem_cons_of_mem _)
  · rw [Graph.shells_set, List.length_set]
    exact h.free i (List.mem_of_mem_filter hi)

variable [NodeBehavior F β]

theorem ordered_act {a : SlotAction F β} (h : Ordered r) (ha : r.Orderly a) :
    Ordered (r.act a) := by
  rcases a with ⟨core, behavior⟩ | id | id | k
  · exact h.allocate ha core ⟨behavior, r.count⟩ fun _ hx => hx
  · rw [act]
    rcases hremove : r.graph.removeNode id with _ | ⟨g, b⟩
    · exact h
    · obtain ⟨entry, htake⟩ := Graph.takeNode_of_removeNode hremove
      exact (h.take htake).1
  · rw [act]
    rcases htake : r.graph.takeNode id with _ | ⟨g, entry⟩
    · exact h
    · exact (h.take htake).2
  · rw [act]
    rcases hheld : r.held[k]? with _ | ⟨entry, id⟩
    · exact h
    · have hput := ha entry id hheld
      by_cases hvacant : ∃ n, r.graph.entries[id.index]? = some (.vacant n)
      · obtain ⟨n, hslot⟩ := hvacant
        rw [hslot] at hput
        obtain rfl : n = entry.generation := hput
        exact h.putBack hheld hslot
      · have helsewhere : ∀ n, r.graph.entries[id.index]? ≠ some (.vacant n) :=
          fun n hn => hvacant ⟨n, hn⟩
        have hroom : HasRoom r.graph := by
          split at hput
          · next n hn => exact absurd hn (helsewhere n)
          · exact hput
        simp only [Graph.addEntry_elsewhere helsewhere]
        exact h.allocate hroom entry.core entry.behavior fun _ => List.mem_of_mem_eraseIdx

/-- Ids are stable in every orderly run. -/
theorem stableIds_run {as : List (SlotAction F β)} (has : Permitted act Orderly start as) :
    StableIds (run act (start : ArenaRun F β) as) :=
  (invariant_run (fun _ _ => ordered_act) ordered_start has).stableIds

/-- A node goes back into its slot, and another one into a new slot after its own was used. -/
theorem stableIds_run_plain :
    StableIds (run act (start : ArenaRun ℚ Plain)
      [.add .empty .plain, .take ⟨0, 0⟩, .readd 0, .take ⟨0, 0⟩, .add .empty .plain,
        .readd 0]) := by
  refine stableIds_run ⟨?_, trivial, ?_, trivial, ?_, ?_, trivial⟩
  · exact Nat.two_pow_pos 32
  · rintro entry id hheld
    cases hheld
    rfl
  · show 0 + 1 < 2 ^ 32
    decide
  · rintro entry id hheld
    cases hheld
    show 1 < 2 ^ 32
    decide

/-- The second node is removed after it used the slot of the first one, which is then put back
and taken out again: the third node gets the id of the second. -/
theorem reissued_id : ¬ ∀ as : List (SlotAction ℚ Plain), StableIds (run act start as) := by
  intro hstable
  have hids := hstable [.add .empty .plain, .take ⟨0, 0⟩, .add .empty .plain, .remove ⟨0, 1⟩,
    .readd 0, .take ⟨0, 0⟩, .add .empty .plain]
  have hsame : 1 = 2 := hids.issued ⟨0, 1⟩ 1 2 (by decide) (by decide)
  omega

end ArenaRun

end Oak.Node
