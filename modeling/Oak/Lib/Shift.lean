import Mathlib.Logic.Function.Basic
import Mathlib.Data.Int.Basic

/-!
# Shifting numbered entries in place

Entries numbered by integers are moved up or down by one place, one entry after the other, as an
array stored in a map is shifted.

* `moveEntry` moves one entry, and overwrites what is there; an absent entry moves nothing.
* `shiftUp`, `shiftDown` move `count` entries from `start` on.
* `Relocated σ old new` is the specification: entry `e` of `old` is entry `σ e` of `new`, and `new`
  has no other.

## Main results

* `relocated_shiftUp_iff`: the upward loop relocates the entries if and only if there is none
  above them.
* `relocated_shiftDown`: the downward loop relocates the entries.
* `Relocated.lowered_raised`: a downward shift undoes an upward one.
-/

namespace Oak.Lib

variable {α : Type*}

/-- The entry at `source`, if there is one, moves to `target`. -/
def moveEntry (entries : ℤ → Option α) (source target : ℤ) : ℤ → Option α :=
  match entries source with
  | none => entries
  | some a => Function.update (Function.update entries source none) target (some a)

theorem moveEntry_target (entries : ℤ → Option α) (source target : ℤ) :
    moveEntry entries source target target = (entries source).or (entries target) := by
  unfold moveEntry
  cases h : entries source with
  | none => rfl
  | some a => exact Function.update_self ..

theorem moveEntry_source (entries : ℤ → Option α) {source target : ℤ} (hne : source ≠ target) :
    moveEntry entries source target source = none := by
  unfold moveEntry
  cases h : entries source with
  | none => exact h
  | some a =>
    dsimp only
    rw [Function.update_of_ne hne, Function.update_self]

theorem moveEntry_of_ne (entries : ℤ → Option α) {source target e : ℤ} (hs : e ≠ source)
    (ht : e ≠ target) : moveEntry entries source target e = entries e := by
  unfold moveEntry
  cases h : entries source with
  | none => rfl
  | some a =>
    dsimp only
    rw [Function.update_of_ne ht, Function.update_of_ne hs]

/-- The `count` entries from `start` on move up by one, the last one first. -/
def shiftUp (start count : ℕ) (entries : ℤ → Option α) : ℤ → Option α :=
  (List.range' (start + 1) count).reverse.foldl (fun v e => moveEntry v (e - 1 : ℕ) e) entries

/-- The `count` entries above `start` move down by one, the first one first. -/
def shiftDown (start count : ℕ) (entries : ℤ → Option α) : ℤ → Option α :=
  (List.range' start count).foldl (fun v e => moveEntry v (e + 1 : ℕ) e) entries

variable {e : ℤ}

section Up

variable (start count : ℕ) (entries : ℤ → Option α)

theorem shiftUp_succ : shiftUp start (count + 1) entries =
    shiftUp start count (moveEntry entries (start + count : ℤ) (start + count + 1 : ℤ)) := by
  have hsource : ((start + 1 + count - 1 : ℕ) : ℤ) = start + count := by omega
  have htarget : ((start + 1 + count : ℕ) : ℤ) = start + count + 1 := by omega
  rw [shiftUp, shiftUp, List.range'_1_concat, List.reverse_append, List.reverse_singleton,
    List.singleton_append, List.foldl_cons, hsource, htarget]

variable {start count} in
theorem shiftUp_outside (he : e < start ∨ start + count < e) :
    shiftUp start count entries e = entries e := by
  induction count generalizing entries with
  | zero => rfl
  | succ count ih =>
    rw [shiftUp_succ, ih _ (by omega), moveEntry_of_ne _ (by omega) (by omega)]

/-- The topmost place keeps its entry when nothing moves there. -/
theorem shiftUp_top : shiftUp start (count + 1) entries (start + count + 1) =
    (entries (start + count)).or (entries (start + count + 1)) := by
  rw [shiftUp_succ, shiftUp_outside _ (by omega), moveEntry_target]

variable {start count} in
theorem shiftUp_inside (hlow : start < e) (hhigh : e < start + count) :
    shiftUp start count entries e = entries (e - 1) := by
  induction count generalizing entries with
  | zero => omega
  | succ count ih =>
    rw [shiftUp_succ]
    rcases Int.lt_or_eq_of_le (show e ≤ start + count by omega) with hlt | rfl
    · rw [ih _ hlt, moveEntry_of_ne _ (by omega) (by omega)]
    · -- the entry here has moved up already, and the one below takes its place
      obtain ⟨k, rfl⟩ : ∃ k, count = k + 1 := ⟨count - 1, by omega⟩
      have hplace : (start + (k + 1 : ℕ) : ℤ) = start + k + 1 := by omega
      rw [hplace, shiftUp_top, moveEntry_source _ (by omega), Option.or_none,
        moveEntry_of_ne _ (by omega) (by omega)]
      exact congrArg entries (by omega)

variable {start count entries} in
/-- The entries move up when there is none at the topmost place. -/
theorem shiftUp_moved (hfree : entries (start + count) = none) (hlow : start ≤ e)
    (hhigh : e < start + count) : shiftUp start count entries (e + 1) = entries e := by
  obtain ⟨k, rfl⟩ : ∃ k, count = k + 1 := ⟨count - 1, by omega⟩
  rcases Int.lt_or_eq_of_le (show e ≤ start + k by omega) with hlt | rfl
  · rw [shiftUp_inside _ (by omega) (by omega)]
    exact congrArg entries (by omega)
  · rw [shiftUp_top, show (start + k + 1 : ℤ) = start + (k + 1 : ℕ) by omega, hfree,
      Option.or_none]

end Up

section Down

variable (start count : ℕ) (entries : ℤ → Option α)

theorem shiftDown_succ : shiftDown start (count + 1) entries =
    shiftDown (start + 1) count (moveEntry entries (start + 1 : ℤ) start) := by
  rw [shiftDown, shiftDown, List.range'_succ, List.foldl_cons]
  rfl

variable {start count entries}

theorem shiftDown_outside (he : e < start ∨ start + count < e) :
    shiftDown start count entries e = entries e := by
  induction count generalizing start entries with
  | zero => rfl
  | succ count ih =>
    rw [shiftDown_succ, ih (by omega), moveEntry_of_ne _ (by omega) (by omega)]

theorem shiftDown_top (hfree : entries start = none) :
    shiftDown start count entries (start + count) = none := by
  induction count generalizing start entries with
  | zero => simpa [shiftDown] using hfree
  | succ count ih =>
    have hleft : moveEntry entries (start + 1) start (start + 1 : ℕ) = none :=
      moveEntry_source entries (by omega)
    have hplace : (start + (count + 1 : ℕ) : ℤ) = (start + 1 : ℕ) + count := by omega
    rw [shiftDown_succ, hplace, ih hleft]

theorem shiftDown_inside (hfree : entries start = none) (hlow : start ≤ e)
    (hhigh : e < start + count) : shiftDown start count entries e = entries (e + 1) := by
  induction count generalizing start entries with
  | zero => omega
  | succ count ih =>
    have hleft : moveEntry entries (start + 1) start (start + 1 : ℕ) = none :=
      moveEntry_source entries (by omega)
    rw [shiftDown_succ]
    rcases Int.le_iff_lt_or_eq.1 hlow with hlt | rfl
    · rw [ih hleft (by omega) (by omega), moveEntry_of_ne _ (by omega) (by omega)]
    · rw [shiftDown_outside (by omega), moveEntry_target, hfree, Option.or_none]

end Down

/-! ### Relocation -/

/-- Entry `e` of `old` is entry `σ e` of `new`, and `new` has no other entry. -/
structure Relocated (σ : ℤ → Option ℤ) (old new : ℤ → Option α) : Prop where
  moved : ∀ e e', σ e = some e' → new e' = old e
  fresh : ∀ e', (∀ e, σ e ≠ some e') → new e' = none

/-- Entries from `index` on go up by one. -/
def raised (index e : ℤ) : Option ℤ := some (if index ≤ e then e + 1 else e)

/-- The entry at `index` goes, and the ones above it go down by one. -/
def lowered (index e : ℤ) : Option ℤ :=
  if e = index then none else some (if index < e then e - 1 else e)

/-- Entries below `size`, with the place at `start` emptied after the upward loop. The loop moves
every entry only when there is none from `size` on. -/
theorem relocated_shiftUp_iff {start size : ℕ} (hstart : start ≤ size) {bound : ℤ}
    {entries : ℤ → Option α} (hbound : ∀ e, bound ≤ e → entries e = none) :
    Relocated (raised start) entries
        (Function.update (shiftUp start (size - start) entries) start none) ↔
      ∀ e : ℤ, size ≤ e → entries e = none := by
  obtain ⟨count, rfl⟩ := Nat.exists_eq_add_of_le hstart
  rw [Nat.add_sub_cancel_left]
  constructor
  · intro h
    -- above the loop an entry is what the one below it is
    have hstep (e : ℤ) (he : (start + count : ℕ) ≤ e) (hnext : entries (e + 1) = none) :
        entries e = none := by
      have hmoved := h.moved e (e + 1) (by simp [raised]; omega)
      rwa [Function.update_of_ne (by omega), shiftUp_outside _ (by omega), hnext, eq_comm]
        at hmoved
    have hdown (k : ℕ) (e : ℤ) (he : (start + count : ℕ) ≤ e) (hk : bound ≤ e + k) :
        entries e = none := by
      induction k generalizing e with
      | zero => exact hbound e (by omega)
      | succ k ih => exact hstep e he (ih (e + 1) (by omega) (by omega))
    exact fun e he => hdown (bound - e).toNat e he (by omega)
  · intro habove
    refine ⟨fun e e' he => ?_, fun e' he' => ?_⟩
    · obtain rfl := Option.some.inj he
      split_ifs with hlow
      · rw [Function.update_of_ne (by omega)]
        by_cases hhigh : e < start + count
        · exact shiftUp_moved (habove _ (by omega)) hlow hhigh
        · rw [shiftUp_outside _ (by omega), habove e (by omega), habove (e + 1) (by omega)]
      · rw [Function.update_of_ne (by omega), shiftUp_outside _ (by omega)]
    · by_cases hplace : e' = start
      · rw [hplace, Function.update_self]
      · by_cases hlow : e' < start
        · exact absurd (by simp [raised]; omega) (he' e')
        · exact absurd (by simp [raised]; omega) (he' (e' - 1))

/-- The entry at `start` is emptied before the downward loop, and the topmost place after it. -/
theorem relocated_shiftDown {start size : ℕ} (hstart : start < size) {entries : ℤ → Option α}
    (habove : ∀ e : ℤ, size ≤ e → entries e = none) :
    Relocated (lowered start) entries
      (Function.update
        (shiftDown start (size - 1 - start) (Function.update entries start none))
        ((size - 1 : ℕ) : ℤ) none) := by
  obtain ⟨count, rfl⟩ := Nat.exists_eq_add_of_lt hstart
  have hcount : start + count + 1 - 1 - start = count := by omega
  have htop : ((start + count + 1 - 1 : ℕ) : ℤ) = start + count := by omega
  have hfree : Function.update entries start none start = none := Function.update_self ..
  have htail : shiftDown start count (Function.update entries start none) (start + count) = none :=
    shiftDown_top hfree
  have hidle := Function.update_eq_self (start + count : ℤ)
    (shiftDown start count (Function.update entries start none))
  rw [htail] at hidle
  rw [hcount, htop, hidle]
  refine ⟨fun e e' he => ?_, fun e' he' => ?_⟩
  · simp only [lowered, Option.ite_none_left_eq_some, Option.some.injEq] at he
    obtain ⟨hne, rfl⟩ := he
    split_ifs with hlt
    · by_cases hhigh : e ≤ start + count
      · rw [shiftDown_inside hfree (by omega) (by omega), Function.update_of_ne (by omega)]
        exact congrArg entries (by omega)
      · rw [habove e (by omega)]
        rcases Int.lt_or_eq_of_le (show start + count + 1 ≤ e by omega) with hgt | rfl
        · rw [shiftDown_outside (by omega), Function.update_of_ne (by omega),
            habove (e - 1) (by omega)]
        · rwa [show (start + count + 1 - 1 : ℤ) = start + count by omega]
    · rw [shiftDown_outside (by omega), Function.update_of_ne hne]
  · by_cases hlow : e' < start
    · exact absurd (by simp [lowered]; omega) (he' e')
    · exact absurd (by simp [lowered]; omega) (he' (e' + 1))

theorem lowered_of_raised {index e e' : ℤ} (h : raised index e = some e') :
    lowered index e' = some e := by
  obtain rfl := Option.some.inj h
  simp only [lowered]
  split_ifs <;> first | omega | (congr 1; omega) | rfl

/-- Raising and then lowering at the same place brings every entry back. -/
theorem Relocated.lowered_raised {index : ℤ} {old mid new : ℤ → Option α}
    (hup : Relocated (raised index) old mid) (hdown : Relocated (lowered index) mid new) :
    new = old := by
  funext e
  obtain ⟨e', he'⟩ : ∃ e', raised index e = some e' := ⟨_, rfl⟩
  rw [hdown.moved e' e (lowered_of_raised he'), hup.moved e e' he']

end Oak.Lib
