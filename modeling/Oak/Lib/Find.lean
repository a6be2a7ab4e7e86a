import Mathlib.Data.List.Infix

/-!
# The first occurrence of a pattern

`findSplit pat s` cuts a list at the first occurrence of a pattern into what stands before it and
what stands after it.

## Main results

* `findSplit_append_of_some`: an occurrence stays the first one when the list grows at its end.
* `findSplit_append_of_none`: a list without the pattern is skipped, when what follows begins with
  an element that the pattern has at its start only.
-/

namespace Oak.Lib

variable {α : Type*} [DecidableEq α]

/-- What stands before and after the first occurrence of `pat`. -/
def findSplit (pat : List α) : List α → Option (List α × List α)
  | [] => if pat = [] then some ([], []) else none
  | c :: s =>
    if pat <+: c :: s then some ([], (c :: s).drop pat.length)
    else (findSplit pat s).map fun p => (c :: p.1, p.2)

theorem findSplit_append_self (pat a : List α) : findSplit pat (pat ++ a) = some ([], a) := by
  rcases hs : pat ++ a with _ | ⟨c, s⟩
  · obtain ⟨rfl, rfl⟩ := List.append_eq_nil_iff.1 hs
    rfl
  · rw [findSplit, if_pos (hs ▸ List.prefix_append pat a), ← hs, List.drop_left]

variable {pat s b a : List α}

theorem findSplit_eq_some (h : findSplit pat s = some (b, a)) : s = b ++ pat ++ a := by
  induction s generalizing b with
  | nil =>
    by_cases hpat : pat = []
    · rw [findSplit, if_pos hpat] at h
      cases h
      simp [hpat]
    · rw [findSplit, if_neg hpat] at h
      cases h
  | cons c s ih =>
    by_cases hpre : pat <+: c :: s
    · rw [findSplit, if_pos hpre] at h
      cases h
      exact (List.prefix_iff_eq_append.1 hpre).symm
    · rw [findSplit, if_neg hpre] at h
      obtain ⟨p, hp, heq⟩ := Option.map_eq_some_iff.1 h
      cases heq
      rw [ih hp]
      rfl

theorem length_of_findSplit (h : findSplit pat s = some (b, a)) :
    s.length = b.length + pat.length + a.length := by
  rw [findSplit_eq_some h, List.length_append, List.length_append]

/-- An occurrence stays the first one when the list grows at its end. -/
theorem findSplit_append_of_some (h : findSplit pat s = some (b, a)) (t : List α) :
    findSplit pat (s ++ t) = some (b, a ++ t) := by
  induction s generalizing b with
  | nil =>
    obtain ⟨h₁, ha⟩ := List.append_eq_nil_iff.1 (findSplit_eq_some h).symm
    obtain ⟨hb, hpat⟩ := List.append_eq_nil_iff.1 h₁
    subst hb hpat ha
    exact findSplit_append_self [] t
  | cons c s ih =>
    have hlen : pat.length ≤ (c :: s).length := by
      rw [length_of_findSplit h]
      omega
    by_cases hpre : pat <+: c :: s
    · rw [findSplit, if_pos hpre] at h
      cases h
      have hgrown : pat <+: c :: (s ++ t) := hpre.trans (List.prefix_append _ t)
      rw [List.cons_append, findSplit, if_pos hgrown, ← List.cons_append,
        List.drop_append_of_le_length hlen]
    · rw [findSplit, if_neg hpre] at h
      obtain ⟨p, hp, heq⟩ := Option.map_eq_some_iff.1 h
      cases heq
      rw [List.cons_append, findSplit, if_neg, ih hp]
      · rfl
      · rw [← List.cons_append, List.isPrefix_append_of_length hlen]
        exact hpre

/-- A list without the pattern is skipped. No occurrence begins in it and ends behind it, for the
pattern has the first element behind it at its start only. -/
theorem findSplit_append_of_none {pat s : List α} (h : findSplit pat s = none) {d : α}
    (hd : d ∉ pat.tail) (t : List α) :
    findSplit pat (s ++ d :: t) = (findSplit pat (d :: t)).map fun p => (s ++ p.1, p.2) := by
  induction s with
  | nil => simp
  | cons c s ih =>
    have hpre : ¬ pat <+: c :: s := by
      intro hpre
      rw [findSplit, if_pos hpre] at h
      cases h
    rw [findSplit, if_neg hpre, Option.map_eq_none_iff] at h
    rw [List.cons_append, findSplit, if_neg, ih h, Option.map_map]
    · rfl
    · intro hstraddle
      rw [← List.cons_append] at hstraddle
      rcases le_or_gt pat.length (c :: s).length with hle | hgt
      · exact hpre ((List.isPrefix_append_of_length hle).1 hstraddle)
      · -- the pattern reaches past `c :: s`, so it holds `d` behind its first element
        have hin : c :: s ++ [d] <+: pat :=
          List.prefix_of_prefix_length_le (by simp) hstraddle
            (by rw [List.length_append, List.length_singleton]; omega)
        obtain ⟨rest, hrest⟩ := hin
        refine hd ?_
        rw [← hrest]
        simp

theorem findSplit_eq_none_of_notMem {c : α} {pat s : List α} (h : c ∉ s) :
    findSplit (c :: pat) s = none := by
  induction s with
  | nil => rfl
  | cons d s ih =>
    rw [List.mem_cons, not_or] at h
    rw [findSplit, if_neg, ih h.2]
    · rfl
    · rw [List.cons_prefix_cons]
      exact fun hpre => h.1 hpre.1

/-- Pieces without the pattern, each of which begins with an element that the pattern has at its
start only, are skipped. -/
theorem findSplit_flatten_of_none {pat : List α} {pieces : List (List α)} {d : α}
    (hd : d ∉ pat.tail) (hpieces : ∀ s ∈ pieces, findSplit pat s = none ∧ s.head? = some d)
    (t : List α) : findSplit pat (pieces.flatten ++ d :: t) =
      (findSplit pat (d :: t)).map fun p => (pieces.flatten ++ p.1, p.2) := by
  induction pieces with
  | nil => simp
  | cons s pieces ih =>
    have ih := ih fun u hu => hpieces u (List.mem_cons_of_mem s hu)
    -- what follows `s` begins with `d` again
    have hnext : ∃ u, pieces.flatten ++ d :: t = d :: u := by
      rcases pieces with _ | ⟨u, pieces⟩
      · exact ⟨t, rfl⟩
      · have hu := (hpieces u (by simp)).2
        obtain ⟨v, rfl⟩ := List.head?_eq_some_iff.1 hu
        exact ⟨v ++ pieces.flatten ++ d :: t, by simp⟩
    obtain ⟨u, hu⟩ := hnext
    rw [List.flatten_cons, List.append_assoc, hu,
      findSplit_append_of_none (hpieces s List.mem_cons_self).1 hd, ← hu, ih, Option.map_map]
    congr 1
    funext p
    simp

end Oak.Lib
