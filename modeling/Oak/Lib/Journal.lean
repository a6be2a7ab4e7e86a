import Mathlib.Data.List.Nodup
import Mathlib.Data.Nat.Init

/-!
# Journals of reversible changes

A state is a family of cells, and a row of a journal records for one cell the value before a
command and the value after it. Rows are applied forward with their new values and backward with
their old ones. A journal holds the rows of one command after another, and some of its rows may be
dropped from it later.

* `RowStore` says how rows act on the cells of a state.
* `RowStore.IsDiff a b rows`: the rows are the difference between two states.
* `RowStore.IsLog states head rows`: the rows of the commands `1`, …, `head` lead through the
  states.
* `Kept rows kept`: what is left of a journal after rows were dropped.

## Main results

* `RowStore.IsDiff.forward_eq`, `RowStore.IsDiff.backward_eq`: the rows of one command, forward
  and backward.
* `RowStore.IsLog.forward_span`, `RowStore.IsLog.backward_span`: the rows between two commands lead
  from the state of the one to the state of the other.
* `Kept.span_eq`: what is dropped outside of a span does not change the span.
-/

namespace Oak.Lib

/-- Rows of a journal over the cells of a state. A cell may read a value it is given as another
one: `norm`. -/
structure RowStore (σ κ V ρ : Type*) [DecidableEq κ] where
  get : σ → κ → V
  set : σ → κ → V → σ
  norm : κ → V → V
  key : ρ → κ
  old : ρ → V
  new : ρ → V
  get_set : ∀ s k v j, get (set s k v) j = if j = k then norm k v else get s j
  ext : ∀ s t, (∀ k, get s k = get t k) → s = t

namespace RowStore

variable {σ κ V ρ : Type*} [DecidableEq κ] (S : RowStore σ κ V ρ)

/-- Apply the new values, first row first. -/
def forward (s : σ) (rows : List ρ) : σ := rows.foldl (fun s r => S.set s (S.key r) (S.new r)) s

/-- Apply the old values, last row first. -/
def backward (s : σ) (rows : List ρ) : σ := rows.foldr (fun r s => S.set s (S.key r) (S.old r)) s

/-- The rows with their values exchanged. -/
def swap : RowStore σ κ V ρ := { S with old := S.new, new := S.old }

theorem backward_eq_forward (s : σ) (rows : List ρ) :
    S.backward s rows = S.swap.forward s rows.reverse := by
  rw [backward, forward, List.foldl_reverse]
  rfl

theorem forward_append (s : σ) (rows rows' : List ρ) :
    S.forward s (rows ++ rows') = S.forward (S.forward s rows) rows' := List.foldl_append

theorem backward_append (s : σ) (rows rows' : List ρ) :
    S.backward s (rows ++ rows') = S.backward (S.backward s rows') rows := List.foldr_append

variable {rows : List ρ}

theorem get_forward_of_forall_ne {k : κ} (h : ∀ r ∈ rows, S.key r ≠ k) (s : σ) :
    S.get (S.forward s rows) k = S.get s k := by
  induction rows generalizing s with
  | nil => rfl
  | cons r rows ih =>
    refine (ih (fun r' hr' => h r' (List.mem_cons_of_mem r hr')) _).trans ?_
    rw [S.get_set, if_neg (h r List.mem_cons_self).symm]

theorem get_forward_of_mem (hrows : (rows.map S.key).Nodup) {r : ρ} (hr : r ∈ rows) (s : σ) :
    S.get (S.forward s rows) (S.key r) = S.norm (S.key r) (S.new r) := by
  induction rows generalizing s with
  | nil => cases hr
  | cons r' rows ih =>
    rw [List.map_cons, List.nodup_cons] at hrows
    obtain rfl | hr := List.mem_cons.1 hr
    · have hrest : ∀ r'' ∈ rows, S.key r'' ≠ S.key r := fun r'' hr'' heq =>
        hrows.1 (heq ▸ List.mem_map_of_mem hr'')
      refine (S.get_forward_of_forall_ne hrest _).trans ?_
      rw [S.get_set, if_pos rfl]
    · exact ih hrows.2 hr _

/-- The rows are the difference between `a` and `b`: one row for each cell that differs, with its
two values. -/
structure IsDiff (a b : σ) (rows : List ρ) : Prop where
  nodup : (rows.map S.key).Nodup
  old_eq : ∀ r ∈ rows, S.norm (S.key r) (S.old r) = S.get a (S.key r)
  new_eq : ∀ r ∈ rows, S.norm (S.key r) (S.new r) = S.get b (S.key r)
  frame : ∀ k, (∀ r ∈ rows, S.key r ≠ k) → S.get a k = S.get b k

variable {S}

theorem IsDiff.swap {a b : σ} (h : S.IsDiff a b rows) :
    S.swap.IsDiff b a rows.reverse where
  nodup := by
    rw [List.map_reverse, List.nodup_reverse]
    exact h.nodup
  old_eq r hr := h.new_eq r (List.mem_reverse.1 hr)
  new_eq r hr := h.old_eq r (List.mem_reverse.1 hr)
  frame k hk := (h.frame k fun r hr => hk r (List.mem_reverse.2 hr)).symm

/-- The rows lead from the one state to the other. -/
theorem IsDiff.forward_eq {a b : σ} (h : S.IsDiff a b rows) : S.forward a rows = b := by
  refine S.ext _ _ fun k => ?_
  by_cases hk : ∃ r ∈ rows, S.key r = k
  · obtain ⟨r, hr, rfl⟩ := hk
    rw [S.get_forward_of_mem h.nodup hr, h.new_eq r hr]
  · push Not at hk
    rw [S.get_forward_of_forall_ne hk, h.frame k hk]

/-- The rows lead back. -/
theorem IsDiff.backward_eq {a b : σ} (h : S.IsDiff a b rows) : S.backward b rows = a := by
  rw [S.backward_eq_forward]
  exact h.swap.forward_eq

end RowStore

/-! ### Spans of a journal -/

variable {a b : ℕ}

section Span

variable {ρ : Type*} {seq : ρ → ℕ}

/-- The rows of the commands after `a` up to `b`. -/
def span (seq : ρ → ℕ) (a b : ℕ) (rows : List ρ) : List ρ :=
  rows.filter fun r => a < seq r ∧ seq r ≤ b

theorem span_self (a : ℕ) (rows : List ρ) : span seq a a rows = [] := by
  refine List.filter_eq_nil_iff.2 fun r _ => ?_
  rw [decide_eq_true_iff]
  omega

theorem span_succ {rows : List ρ} (hrows : rows.Pairwise fun r r' => seq r ≤ seq r') (hab : a ≤ b) :
    span seq a (b + 1) rows = span seq a b rows ++ rows.filter fun r => seq r = b + 1 := by
  induction rows with
  | nil => rfl
  | cons r rows ih =>
    rw [List.pairwise_cons] at hrows
    have ih := ih hrows.2
    unfold span at ih ⊢
    by_cases hnext : seq r = b + 1
    · -- no row behind the first row of the next command belongs to the span
      have hnil : rows.filter (fun r => decide (a < seq r ∧ seq r ≤ b)) = [] := by
        refine List.filter_eq_nil_iff.2 fun r' hr' => ?_
        have hle := hrows.1 r' hr'
        rw [decide_eq_true_iff]
        omega
      rw [hnil, List.nil_append] at ih
      rw [List.filter_cons_of_pos (by rw [decide_eq_true_iff]; omega),
        List.filter_cons_of_neg (by rw [decide_eq_true_iff]; omega),
        List.filter_cons_of_pos (by rw [decide_eq_true_iff]; exact hnext), ih, hnil,
        List.nil_append]
    · by_cases hin : a < seq r ∧ seq r ≤ b
      · rw [List.filter_cons_of_pos (by rw [decide_eq_true_iff]; omega),
          List.filter_cons_of_pos (by rw [decide_eq_true_iff]; exact hin),
          List.filter_cons_of_neg (by rw [decide_eq_true_iff]; exact hnext), ih,
          List.cons_append]
      · rw [List.filter_cons_of_neg (by rw [decide_eq_true_iff]; omega),
          List.filter_cons_of_neg (by rw [decide_eq_true_iff]; exact hin),
          List.filter_cons_of_neg (by rw [decide_eq_true_iff]; exact hnext), ih]

/-- What is left of a journal. -/
def Kept (rows kept : List ρ) : Prop := ∃ p : ρ → Bool, kept = rows.filter p

theorem Kept.refl (rows : List ρ) : Kept rows rows := ⟨fun _ => true, by simp⟩

variable {rows kept : List ρ}

theorem Kept.filter (h : Kept rows kept) (q : ρ → Bool) : Kept rows (kept.filter q) := by
  obtain ⟨p, rfl⟩ := h
  exact ⟨fun r => q r && p r, List.filter_filter⟩

theorem Kept.append (seq : ρ → ℕ) (h : Kept rows kept) {head : ℕ} (hrows : ∀ r ∈ rows, seq r ≤ head)
    {new : List ρ} (hnew : ∀ r ∈ new, head < seq r) : Kept (rows ++ new) (kept ++ new) := by
  obtain ⟨p, rfl⟩ := h
  refine ⟨fun r => p r || decide (head < seq r), ?_⟩
  rw [List.filter_append]
  congr 1
  · refine List.filter_congr fun r hr => ?_
    have hle := hrows r hr
    rw [decide_eq_false (by omega), Bool.or_false]
  · refine (List.filter_eq_self.2 fun r hr => ?_).symm
    rw [decide_eq_true (hnew r hr), Bool.or_true]

/-- What is dropped outside of a span does not change the span. -/
theorem Kept.span_eq (h : Kept rows kept) (hin : ∀ r ∈ rows, a < seq r → seq r ≤ b → r ∈ kept) :
    span seq a b kept = span seq a b rows := by
  obtain ⟨p, rfl⟩ := h
  rw [span, span, List.filter_filter]
  refine List.filter_congr fun r hr => ?_
  by_cases hspan : a < seq r ∧ seq r ≤ b
  · have hp : p r = true := (List.mem_filter.1 (hin r hr hspan.1 hspan.2)).2
    rw [hp, Bool.and_true]
  · rw [decide_eq_false hspan, Bool.false_and]

end Span

/-! ### Logs -/

namespace RowStore

variable {σ κ V ρ : Type*} [DecidableEq κ] {S : RowStore σ κ V ρ} {seq : ρ → ℕ} {states : ℕ → σ}
  {head : ℕ} {rows : List ρ}

/-- The rows of the commands `1`, …, `head`, each the difference between two states. -/
structure IsLog (S : RowStore σ κ V ρ) (seq : ρ → ℕ) (states : ℕ → σ) (head : ℕ) (rows : List ρ) :
    Prop where
  sorted : rows.Pairwise fun r r' => seq r ≤ seq r'
  bound : ∀ r ∈ rows, 0 < seq r ∧ seq r ≤ head
  diff : ∀ j < head, S.IsDiff (states j) (states (j + 1)) (rows.filter fun r => seq r = j + 1)

theorem isLog_nil (states : ℕ → σ) : S.IsLog seq states 0 [] where
  sorted := .nil
  bound _ hr := absurd hr List.not_mem_nil
  diff j hj := absurd hj (Nat.not_lt_zero j)

section

variable (h : S.IsLog seq states head rows)

include h

theorem IsLog.append {new : List ρ} (hnew : S.IsDiff (states head) (states (head + 1)) new)
    (hseq : ∀ r ∈ new, seq r = head + 1) : S.IsLog seq states (head + 1) (rows ++ new) where
  sorted := by
    refine List.pairwise_append.2 ⟨h.sorted, ?_, fun r hr r' hr' => ?_⟩
    · refine List.pairwise_of_forall_mem_list fun r hr r' hr' => ?_
      have hr := hseq r hr
      have hr' := hseq r' hr'
      omega
    · have hle := (h.bound r hr).2
      rw [hseq r' hr']
      omega
  bound r hr := by
    obtain hr | hr := List.mem_append.1 hr
    · have hle := h.bound r hr
      omega
    · rw [hseq r hr]
      omega
  diff j hj := by
    rw [List.filter_append]
    obtain hlt | rfl := Nat.lt_succ_iff_lt_or_eq.1 hj
    · have hnil : new.filter (fun r => decide (seq r = j + 1)) = [] := by
        refine List.filter_eq_nil_iff.2 fun r hr => ?_
        rw [hseq r hr, decide_eq_true_iff]
        omega
      rw [hnil, List.append_nil]
      exact h.diff j hlt
    · have hnil : rows.filter (fun r => decide (seq r = j + 1)) = [] := by
        refine List.filter_eq_nil_iff.2 fun r hr => ?_
        have hle := (h.bound r hr).2
        rw [decide_eq_true_iff]
        omega
      have hself : new.filter (fun r => decide (seq r = j + 1)) = new :=
        List.filter_eq_self.2 fun r hr => decide_eq_true (hseq r hr)
      rw [hnil, hself]
      exact hnew

theorem IsLog.congr {states' : ℕ → σ} (heq : ∀ j ≤ head, states j = states' j) :
    S.IsLog seq states' head rows where
  sorted := h.sorted
  bound := h.bound
  diff j hj := heq j (Nat.le_of_lt hj) ▸ heq (j + 1) hj ▸ h.diff j hj

/-- Replay: the rows of a span lead from the state before it to the state after it. -/
theorem IsLog.forward_span (hab : a ≤ b) (hb : b ≤ head) :
    S.forward (states a) (span seq a b rows) = states b := by
  induction b, hab using Nat.le_induction with
  | base =>
    rw [span_self]
    rfl
  | succ b hab ih =>
    rw [span_succ h.sorted hab, S.forward_append, ih (by omega)]
    exact (h.diff b (by omega)).forward_eq

/-- Undo: the rows of a span lead back. -/
theorem IsLog.backward_span (hab : a ≤ b) (hb : b ≤ head) :
    S.backward (states b) (span seq a b rows) = states a := by
  induction b, hab using Nat.le_induction with
  | base =>
    rw [span_self]
    rfl
  | succ b hab ih =>
    rw [span_succ h.sorted hab, S.backward_append, (h.diff b (by omega)).backward_eq]
    exact ih (by omega)

end

end RowStore

end Oak.Lib
