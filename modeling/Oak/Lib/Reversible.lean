import Mathlib.Data.List.Basic

/-!
# Reversible operations with a state of their own

An operation that can be run forward and backward on a document may carry a state that both
directions read and rewrite: a saved length, a detached object, an id handed out by the first
run. This file says what it means for such an operation to be reversible, without fixing the
state it carries.

* `Before c d d'` says that `c` stands before the step from `d` to `d'`: run forward on `d` it
  gives `d'`, run backward on `d'` it then gives `d`, and so on for as long as the two directions
  alternate. `After c d d'` is the same for an operation that stands behind the step.
* `Chain R es d ds` threads a list of operations through the list of documents they leave.

## Main results

* `Before.forward`, `After.backward`: one run turns each of the two relations into the other.
* `Chain.append_iff`, `Chain.concat_iff`: chains are cut and extended at any place.
-/

namespace Oak.Lib

/-- An operation that carries its own state and runs forward and backward on a document. -/
class Reversible (C D : Type*) where
  /-- Run the operation; the new operation and the new document. -/
  forward : C → D → C × D
  /-- Take the operation back; the new operation and the new document. -/
  backward : C → D → C × D

namespace Reversible

variable {C D : Type*} [Reversible C D]

/-- Two sets of operation states between which `forward` on `d` and `backward` on `d'`
alternate for ever. -/
structure Alternates (I J : C → Prop) (d d' : D) : Prop where
  run : ∀ c, I c → (forward c d).2 = d' ∧ J (forward c d).1
  unrun : ∀ c, J c → (backward c d').2 = d ∧ I (backward c d').1

/-- `c` stands before the step from `d` to `d'`. -/
def Before (c : C) (d d' : D) : Prop := ∃ I J : C → Prop, Alternates I J d d' ∧ I c

/-- `c` stands behind the step from `d` to `d'`. -/
def After (c : C) (d d' : D) : Prop := ∃ I J : C → Prop, Alternates I J d d' ∧ J c

theorem Before.forward {c : C} {d d' : D} (h : Before c d d') :
    (forward c d).2 = d' ∧ After (Reversible.forward c d).1 d d' := by
  obtain ⟨I, J, halt, hc⟩ := h
  exact ⟨(halt.run c hc).1, I, J, halt, (halt.run c hc).2⟩

theorem After.backward {c : C} {d d' : D} (h : After c d d') :
    (backward c d').2 = d ∧ Before (Reversible.backward c d').1 d d' := by
  obtain ⟨I, J, halt, hc⟩ := h
  exact ⟨(halt.unrun c hc).1, I, J, halt, (halt.unrun c hc).2⟩

/-- The documents that `Before` and `After` relate may be read off any pair of predicates that
one forward and one backward run exchange. -/
theorem before_of_alternates {I J : C → Prop} {c : C} {d d' : D} (h : Alternates I J d d')
    (hc : I c) : Before c d d' := ⟨I, J, h, hc⟩

theorem after_of_alternates {I J : C → Prop} {c : C} {d d' : D} (h : Alternates I J d d')
    (hc : J c) : After c d d' := ⟨I, J, h, hc⟩

end Reversible

variable {E D : Type*} {R : E → D → D → Prop}

/-- `Chain R es d ds`: from `d`, the operations `es` pass one after the other through the
documents `ds`. -/
inductive Chain (R : E → D → D → Prop) : List E → D → List D → Prop
  | nil (d : D) : Chain R [] d []
  | cons {e es d d' ds} (he : R e d d') (hes : Chain R es d' ds) :
      Chain R (e :: es) d (d' :: ds)

variable {ds : List D} {es : List E} {d : D}

namespace Chain

theorem length_eq (h : Chain R es d ds) : es.length = ds.length := by
  induction h with
  | nil => rfl
  | cons _ _ ih => simp only [List.length_cons, ih]

@[simp] theorem nil_iff : Chain R [] d ds ↔ ds = [] := by
  constructor
  · intro h
    cases h
    rfl
  · rintro rfl
    exact .nil d

@[simp] theorem cons_cons_iff {e : E} {d d' : D} :
    Chain R (e :: es) d (d' :: ds) ↔ R e d d' ∧ Chain R es d' ds := by
  constructor
  · intro h
    cases h with
    | cons he hes => exact ⟨he, hes⟩
  · rintro ⟨he, hes⟩
    exact .cons he hes

/-- A chain is cut where both of its lists are: the second part starts at the document the
first part leaves. -/
theorem append_iff {es fs : List E} {ds gs : List D} (hlen : es.length = ds.length) :
    Chain R (es ++ fs) d (ds ++ gs) ↔ Chain R es d ds ∧ Chain R fs (ds.getLastD d) gs := by
  induction es generalizing d ds with
  | nil =>
    obtain rfl := List.eq_nil_of_length_eq_zero hlen.symm
    simp
  | cons e es ih =>
    cases ds with
    | nil => simp at hlen
    | cons d' ds =>
      have hlen' : es.length = ds.length := by simpa using hlen
      rw [List.cons_append, List.cons_append, cons_cons_iff, ih hlen', cons_cons_iff,
        List.getLastD_cons, and_assoc]

/-- Extending a chain by one operation. -/
theorem concat_iff {e : E} {d d' : D} (hlen : es.length = ds.length) :
    Chain R (es ++ [e]) d (ds ++ [d']) ↔ Chain R es d ds ∧ R e (ds.getLastD d) d' := by
  rw [append_iff hlen, cons_cons_iff, nil_iff]
  simp

/-- A chain without its first operation starts at the document that operation left. -/
theorem tail (h : Chain R es d ds) (hne : es ≠ []) : Chain R es.tail (ds.headD d) ds.tail := by
  cases h with
  | nil => exact absurd rfl hne
  | cons _ hes => exact hes

/-- Operations that move nothing leave the document they found. -/
theorem getLastD_take_of_still (h : Chain R es d ds) {n : ℕ}
    (hstill : ∀ i e, i < n → es[i]? = some e → ∀ a b, R e a b → a = b) :
    (ds.take n).getLastD d = d := by
  induction h generalizing n with
  | nil => simp
  | @cons e es d d' ds he hes ih =>
    rcases n with _ | n
    · rfl
    · obtain rfl : d = d' := hstill 0 e n.succ_pos rfl d d' he
      rw [List.take_succ_cons, List.getLastD_cons]
      exact ih fun i e hi => hstill (i + 1) e (Nat.succ_lt_succ hi)

/-- A property that every operation passes in both directions holds at both ends of a chain or
at neither. -/
theorem getLastD_iff {Q : D → Prop} (hQ : ∀ e a b, R e a b → (Q b ↔ Q a)) (h : Chain R es d ds) :
    Q (ds.getLastD d) ↔ Q d := by
  induction h with
  | nil => rfl
  | cons he _ ih => rw [List.getLastD_cons, ih, hQ _ _ _ he]

end Chain

end Oak.Lib
