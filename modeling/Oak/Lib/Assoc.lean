import Mathlib.Data.List.Nodup
import Mathlib.Data.List.Perm.Basic

/-!
# Association lists

## Main results

* `lookup_of_nodup`, `mem_of_lookup`: an entry is found under its key when the keys differ.
* `perm_cons_filter`: an entry, and what is left when its key is removed.
-/

namespace Oak.Lib

variable {κ γ : Type*} {entries : List (κ × γ)}

/-- Every entry is found under its key when the keys differ. -/
theorem lookup_of_nodup [BEq κ] [LawfulBEq κ] (hnodup : (entries.map Prod.fst).Nodup)
    {x : κ × γ} (hx : x ∈ entries) : entries.lookup x.1 = some x.2 := by
  induction entries with
  | nil => exact absurd hx List.not_mem_nil
  | cons y entries ih =>
    rw [List.map_cons, List.nodup_cons] at hnodup
    rw [List.lookup_cons]
    rcases List.mem_cons.1 hx with rfl | hmem
    · rw [BEq.rfl]
    · have hne : x.1 ≠ y.1 := fun heq => hnodup.1 (heq ▸ List.mem_map_of_mem hmem)
      rw [beq_eq_false_iff_ne.2 hne]
      exact ih hnodup.2 hmem

theorem mem_of_lookup [BEq κ] [LawfulBEq κ] {k : κ} {v : γ} (h : entries.lookup k = some v) :
    (k, v) ∈ entries := by
  obtain ⟨l, l', rfl, -⟩ := List.lookup_eq_some_iff.1 h
  exact List.mem_append_right l List.mem_cons_self

/-- A removal takes off the one entry that the key has. -/
theorem perm_cons_filter [DecidableEq κ] (hnodup : (entries.map Prod.fst).Nodup) {k : κ} {v : γ}
    (h : entries.lookup k = some v) :
    entries.Perm ((k, v) :: entries.filter fun e => e.1 ≠ k) := by
  obtain ⟨l, l', rfl, -⟩ := List.lookup_eq_some_iff.1 h
  rw [List.map_append, List.map_cons, List.nodup_middle, List.nodup_cons] at hnodup
  have hkeep (l'' : List (κ × γ)) (hsub : ∀ e ∈ l'', e ∈ l ++ l') :
      l''.filter (fun e => e.1 ≠ k) = l'' := by
    refine List.filter_eq_self.2 fun e he => decide_eq_true fun heq => hnodup.1 ?_
    rw [← List.map_append]
    exact List.mem_map.2 ⟨e, hsub e he, heq⟩
  rw [List.filter_append, List.filter_cons_of_neg (by simp),
    hkeep l fun e he => List.mem_append_left _ he, hkeep l' fun e he => List.mem_append_right _ he]
  exact List.perm_middle

end Oak.Lib
