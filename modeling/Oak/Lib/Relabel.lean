import Mathlib.Data.Finset.Card

/-!
# A relation under new labels

Some things are related one to another, and each gets a new label, which may be the old label of
another one. If every pair is found again among the pairs in which only the second one is relabelled
(in either direction), then no thing has more predecessors than its new label had.

* `into V R w` are the predecessors of `w`.
* `displaced V R μ` are the things with a predecessor that get another label.

## Main results

* `card_into_le`: the predecessors under the new label.
* `exists_mem_displaced`: the displaced things trade places among themselves.
-/

namespace Oak.Lib.Relabel

variable {α : Type*} [DecidableEq α] {V : Finset α} {R : α → α → Prop} [DecidableRel R]
  {μ : α → α} {x y : α}

/-- The predecessors of a label. -/
def into (V : Finset α) (R : α → α → Prop) [DecidableRel R] (w : α) : Finset α :=
  V.filter fun y => R y w

/-- What has a predecessor and another label than before. -/
def displaced (V : Finset α) (R : α → α → Prop) [DecidableRel R] (μ : α → α) : Finset α :=
  V.filter fun l => (into V R l).Nonempty ∧ μ l ≠ l

theorem mem_displaced : x ∈ displaced V R μ ↔ x ∈ V ∧ (∃ y ∈ V, R y x) ∧ μ x ≠ x := by
  simp [displaced, into, Finset.Nonempty]

/-- The things are related to each other only, in one direction, and every related pair is found
again when the second one has its new label. -/
structure Found (V : Finset α) (R : α → α → Prop) (μ : α → α) : Prop where
  injOn : Set.InjOn μ V
  closed : ∀ x ∈ V, ∀ y, R x y → y ∈ V
  asymm : ∀ x y, R x y → ¬ R y x
  found : ∀ x ∈ V, ∀ y ∈ V, R x y → R x (μ y) ∨ R y (μ x)

/-- Nothing has more predecessors than its new label. -/
theorem Found.card_into_le (h : Found V R μ) (hx : x ∈ V) :
    (into V R x).card ≤ (into V R (μ x)).card := by
  have hdisjoint : Disjoint (V.filter (R x)) (into V R x) := by
    rw [Finset.disjoint_left]
    intro y hy hyx
    exact h.asymm x y (Finset.mem_filter.1 hy).2 (Finset.mem_filter.1 hyx).2
  have hsub : V.filter (R x) ∪ into V R x ⊆
      (V.filter fun y => R x (μ y)) ∪ into V R (μ x) := by
    intro y hy
    rcases Finset.mem_union.1 hy with hy | hy
    · obtain ⟨hyV, hxy⟩ := Finset.mem_filter.1 hy
      rcases h.found x hx y hyV hxy with hfound | hfound
      · exact Finset.mem_union_left _ (Finset.mem_filter.2 ⟨hyV, hfound⟩)
      · exact Finset.mem_union_right _ (Finset.mem_filter.2 ⟨hyV, hfound⟩)
    · obtain ⟨hyV, hyx⟩ := Finset.mem_filter.1 hy
      rcases h.found y hyV x hx hyx with hfound | hfound
      · exact Finset.mem_union_right _ (Finset.mem_filter.2 ⟨hyV, hfound⟩)
      · exact Finset.mem_union_left _ (Finset.mem_filter.2 ⟨hyV, hfound⟩)
  have hleft : (V.filter fun y => R x (μ y)).card ≤ (V.filter (R x)).card := by
    refine Finset.card_le_card_of_injOn μ (fun y hy => ?_) fun y hy z hz => ?_
    · have hfound := (Finset.mem_filter.1 hy).2
      exact Finset.mem_filter.2 ⟨h.closed x hx (μ y) hfound, hfound⟩
    · exact h.injOn (Finset.mem_filter.1 hy).1 (Finset.mem_filter.1 hz).1
  have hunion := (Finset.card_le_card hsub).trans (Finset.card_union_le _ _)
  rw [Finset.card_union_of_disjoint hdisjoint] at hunion
  omega

/-- The new label of a displaced thing is a displaced thing. -/
theorem Found.mem_displaced (h : Found V R μ) (hx : x ∈ displaced V R μ) :
    μ x ∈ displaced V R μ := by
  obtain ⟨hxV, ⟨y, hy, hyx⟩, hne⟩ := Relabel.mem_displaced.1 hx
  have hsome : 0 < (into V R x).card := Finset.card_pos.2 ⟨y, Finset.mem_filter.2 ⟨hy, hyx⟩⟩
  obtain ⟨z, hz⟩ := Finset.card_pos.1 (hsome.trans_le (h.card_into_le hxV))
  obtain ⟨hzV, hzx⟩ := Finset.mem_filter.1 hz
  have hlabel : μ x ∈ V := h.closed z hzV _ hzx
  exact Relabel.mem_displaced.2 ⟨hlabel, ⟨z, hzV, hzx⟩, fun heq => hne (h.injOn hlabel hxV heq)⟩

/-- A displaced thing has given its old label to a displaced thing. -/
theorem Found.exists_mem_displaced (h : Found V R μ) (hx : x ∈ displaced V R μ) :
    ∃ p ∈ displaced V R μ, μ p = x := by
  have hsub : (displaced V R μ).image μ ⊆ displaced V R μ := by
    intro y hy
    obtain ⟨z, hz, rfl⟩ := Finset.mem_image.1 hy
    exact h.mem_displaced hz
  have hcard : ((displaced V R μ).image μ).card = (displaced V R μ).card :=
    Finset.card_image_of_injOn fun y hy z hz =>
      h.injOn (Finset.mem_filter.1 hy).1 (Finset.mem_filter.1 hz).1
  have himage := Finset.eq_of_subset_of_card_le hsub hcard.ge
  rw [← himage] at hx
  exact Finset.mem_image.1 hx

end Oak.Lib.Relabel
