import Mathlib.Algebra.Order.Field.Basic
import Oak.Lib.Bisect
import Oak.Lib.Hermite

/-!
# Parametric curves

The curves of `oak-plugin/src/param_curve.rs`. Numbers are those of an ordered field.

An access outside the control points is `none`.

* `Curve.Ordered`: the keys ascend, and every slope is that of the neighbours.
* `Curve.Interpolates`: what an ordered curve is evaluated to.

## Main results

* `Curve.Ordered.interpolates`: an ordered curve interpolates its control points.
* `run_ordered`: the edits keep curves ordered.
-/

namespace Oak.Plugin

open Oak.Lib Polynomial

/-- `ControlPoint`. -/
structure ControlPoint (K : Type*) where
  key : K
  value : K
  slope : K
  deriving DecidableEq

/-- `Curve`. -/
structure Curve (K : Type*) where
  points : List (ControlPoint K)
  deriving DecidableEq

variable {K : Type*} [Field K] [LinearOrder K]

/-- `ControlPoint::new`. -/
def ControlPoint.new (key value : K) : ControlPoint K := ⟨key, value, 0⟩

/-- `slope_at`. -/
def slopeAt (points : List (ControlPoint K)) (i : ℕ) : K :=
  let n := points.length
  if n < 2 then 0
  else
    let (a, b) := if i = 0 then (0, 1) else if i = n - 1 then (n - 2, n - 1) else (i - 1, i + 1)
    match points[a]?, points[b]? with
    | some a, some b =>
      let dx := b.key - a.key
      if dx = 0 then 0 else (b.value - a.value) / dx
    | _, _ => 0

/-- A round of the loop of `recompute_slopes`. -/
def recomputeSlope (points : List (ControlPoint K)) (i : ℕ) : List (ControlPoint K) :=
  points.modify i fun p => { p with slope := slopeAt points i }

/-- `recompute_slopes`. -/
def recomputeSlopes (points : List (ControlPoint K)) : List (ControlPoint K) :=
  (List.range points.length).foldl recomputeSlope points

namespace Curve

/-- `empty`. -/
def empty : Curve K := ⟨[]⟩

/-- `identity`. -/
def identity (lo hi : K) : Curve K := ⟨recomputeSlopes [.new lo lo, .new hi hi]⟩

/-- `from_pairs`. -/
def fromPairs (pairs : List (K × K)) : Curve K :=
  ⟨recomputeSlopes (pairs.map fun p => .new p.1 p.2)⟩

/-- `evaluate`. -/
def evaluate (c : Curve K) (x : K) : Option K :=
  let n := c.points.length
  if n = 0 then some x
  else if n = 1 then c.points[0]?.map ControlPoint.value
  else do
    let first ← c.points[0]?
    if x ≤ first.key then some first.value
    else do
      let last ← c.points[n - 1]?
      if last.key ≤ x then some last.value
      else
        let i := partitionPoint (fun p : ControlPoint K => p.key ≤ x) c.points
        if i = 0 then none
        else do
          let a ← c.points[i - 1]?
          let b ← c.points[i]?
          let h := b.key - a.key
          if h ≤ 0 then some a.value
          else some (hermite a.value a.slope b.value b.slope h ((x - a.key) / h))

variable (c : Curve K)

/-- `upsert`, with what it returns. -/
def upsert (key value : K) : Bool × Curve K :=
  let same := c.points.findIdx fun p => p.key = key
  if same < c.points.length then
    (false, ⟨recomputeSlopes (c.points.modify same fun p => { p with value := value })⟩)
  else
    let idx := partitionPoint (fun p : ControlPoint K => p.key < key) c.points
    (true, ⟨recomputeSlopes (c.points.insertIdx idx (.new key value))⟩)

/-- `set_nth`, with what it returns. -/
def setNth (nth : ℕ) (key value : K) : Except Unit Unit × Curve K :=
  if c.points.length ≤ nth then (.error (), c)
  else (.ok (), (upsert ⟨c.points.eraseIdx nth⟩ key value).2)

/-- `delete_nth`, with what it returns. -/
def deleteNth (nth : ℕ) : Except Unit Unit × Curve K :=
  if c.points.length ≤ nth then (.error (), c)
  else (.ok (), ⟨recomputeSlopes (c.points.eraseIdx nth)⟩)

/-- `clear`. -/
def clear (_ : Curve K) : Curve K := ⟨[]⟩

/-! ### What curves are for -/

/-- The keys ascend, and every slope is the difference quotient of the neighbours; a point at an end
is its own neighbour there. -/
structure Ordered (c : Curve K) : Prop where
  keys : c.points.Pairwise fun a b => a.key < b.key
  slopes : ∀ i p a b, c.points[i]? = some p → c.points[i - 1]? = some a →
    c.points[min (i + 1) (c.points.length - 1)]? = some b →
      p.slope = (b.value - a.value) / (b.key - a.key)

/-- The values of a curve: those of its points at their keys, those of the ends outside, and between
two neighbours the cubic with their values and slopes. -/
structure Interpolates (c : Curve K) : Prop where
  at_key : ∀ p ∈ c.points, c.evaluate p.key = some p.value
  before : ∀ p, c.points.head? = some p → ∀ x ≤ p.key, c.evaluate x = some p.value
  after : ∀ p, c.points.getLast? = some p → ∀ x, p.key ≤ x → c.evaluate x = some p.value
  between : ∀ i a b, c.points[i]? = some a → c.points[i + 1]? = some b →
    ∃ P : K[X], IsHermite a.key a.value a.slope b.key b.value b.slope P ∧
      ∀ x, a.key ≤ x → x ≤ b.key → c.evaluate x = some (P.eval x)
  bracket : ∀ p q, c.points.head? = some p → c.points.getLast? = some q → ∀ x, p.key ≤ x →
    x < q.key → ∃! i, ∃ a b, c.points[i]? = some a ∧ c.points[i + 1]? = some b ∧ a.key ≤ x ∧
      x < b.key

/-- How a curve comes about. -/
inductive Start : Curve K → Prop
  | empty : Start empty
  | identity {lo hi : K} (h : lo < hi) : Start (identity lo hi)
  | fromPairs {pairs : List (K × K)} (h : pairs.Pairwise fun p q => p.1 < q.1) :
      Start (fromPairs pairs)

/-- An edit. -/
inductive Edit (K : Type*) where
  | upsert (key value : K)
  | setNth (nth : ℕ) (key value : K)
  | deleteNth (nth : ℕ)
  | clear

/-- A curve after an edit. -/
def edit : Edit K → Curve K
  | .upsert key value => (c.upsert key value).2
  | .setNth nth key value => (c.setNth nth key value).2
  | .deleteNth nth => (c.deleteNth nth).2
  | .clear => c.clear

/-- A curve after a sequence of edits. -/
def run (edits : List (Edit K)) : Curve K := edits.foldl edit c

end Curve

/-! ### Slopes -/

variable {points : List (ControlPoint K)} {i : ℕ} {a b : ControlPoint K}

theorem slopeAt_eq (hi : i < points.length) (ha : points[i - 1]? = some a)
    (hb : points[min (i + 1) (points.length - 1)]? = some b) :
    slopeAt points i = (b.value - a.value) / (b.key - a.key) := by
  have hquotient {c d : ℕ} (hc : c = i - 1) (hd : d = min (i + 1) (points.length - 1)) :
      (match points[c]?, points[d]? with
        | some a, some b => if b.key - a.key = 0 then 0 else (b.value - a.value) / (b.key - a.key)
        | _, _ => 0) = (b.value - a.value) / (b.key - a.key) := by
    rw [hc, hd, ha, hb]
    dsimp only
    split_ifs with hzero
    · rw [hzero, div_zero]
    · rfl
  rw [slopeAt]
  dsimp only
  by_cases hn : points.length < 2
  · -- the only point is its own neighbour
    have hsame : min (i + 1) (points.length - 1) = i - 1 := by omega
    rw [hsame, ha] at hb
    rw [if_pos hn, Option.some.inj hb, sub_self, zero_div]
  rw [if_neg hn]
  by_cases hfirst : i = 0
  · rw [if_pos hfirst]
    exact hquotient (by omega) (by omega)
  rw [if_neg hfirst]
  by_cases hlast : i = points.length - 1
  · rw [if_pos hlast]
    exact hquotient (by omega) (by omega)
  · rw [if_neg hlast]
    exact hquotient rfl (by omega)

/-- What the slopes are computed from. -/
def keyValue (p : ControlPoint K) : K × K := (p.key, p.value)

theorem slopeAt_congr {points' : List (ControlPoint K)}
    (h : points.map keyValue = points'.map keyValue) (i : ℕ) :
    slopeAt points i = slopeAt points' i := by
  have hlength : points.length = points'.length := by
    rw [← List.length_map (f := keyValue), h, List.length_map]
  have hat (j : ℕ) : points[j]?.map keyValue = points'[j]?.map keyValue := by
    rw [← List.getElem?_map, h, List.getElem?_map]
  have hmatch (c d : ℕ) : (match points[c]?, points[d]? with
        | some a, some b => if b.key - a.key = 0 then 0 else (b.value - a.value) / (b.key - a.key)
        | _, _ => 0) = (match points'[c]?, points'[d]? with
        | some a, some b => if b.key - a.key = 0 then 0 else (b.value - a.value) / (b.key - a.key)
        | _, _ => 0) := by
    have hc := hat c
    have hd := hat d
    generalize points[c]? = pc, points'[c]? = pc', points[d]? = pd, points'[d]? = pd' at hc hd ⊢
    rcases pc with _ | p <;> rcases pc' with _ | p'
    · rfl
    · cases hc
    · cases hc
    rcases pd with _ | q <;> rcases pd' with _ | q'
    · rfl
    · cases hd
    · cases hd
    obtain ⟨hkey, hvalue⟩ := Prod.mk.inj (Option.some.inj hc)
    obtain ⟨hkey', hvalue'⟩ := Prod.mk.inj (Option.some.inj hd)
    dsimp only
    rw [hkey, hvalue, hkey', hvalue']
  rw [slopeAt, slopeAt, hlength]
  dsimp only
  split_ifs
  · rfl
  · exact hmatch 0 1
  · exact hmatch (points'.length - 2) (points'.length - 1)
  · exact hmatch (i - 1) (i + 1)

/-- The loop sets one slope after the other, and no slope depends on another one. -/
theorem getElem?_foldl_recomputeSlope (points : List (ControlPoint K)) (n i : ℕ) :
    ((List.range n).foldl recomputeSlope points)[i]? =
      points[i]?.map fun p => if i < n then { p with slope := slopeAt points i } else p := by
  induction n generalizing i with
  | zero => cases h : points[i]? <;> simp [h]
  | succ n ih =>
    have hmap :
        ((List.range n).foldl recomputeSlope points).map keyValue = points.map keyValue := by
      refine List.ext_getElem? fun j => ?_
      rw [List.getElem?_map, List.getElem?_map, ih]
      cases points[j]? with
      | none => rfl
      | some p =>
        rw [Option.map_some, Option.map_some, Option.map_some]
        split_ifs <;> rfl
    rw [List.range_succ, List.foldl_append, List.foldl_cons, List.foldl_nil, recomputeSlope,
      List.getElem?_modify, Option.map_eq_map, slopeAt_congr hmap, ih]
    cases points[i]? with
    | none => rfl
    | some p =>
      rw [Option.map_some, Option.map_some, Option.map_some]
      by_cases hlast : n = i
      · rw [if_pos hlast, if_neg (by omega), if_pos (by omega), hlast]
      · rw [if_neg hlast]
        by_cases hlt : i < n
        · rw [if_pos hlt, if_pos (by omega)]
        · rw [if_neg hlt, if_neg (by omega)]

theorem getElem?_recomputeSlopes (points : List (ControlPoint K)) (i : ℕ) :
    (recomputeSlopes points)[i]? =
      points[i]?.map fun p => { p with slope := slopeAt points i } := by
  rw [recomputeSlopes, getElem?_foldl_recomputeSlope]
  rcases lt_or_ge i points.length with hi | hi
  · rw [List.getElem?_eq_getElem hi, Option.map_some, Option.map_some, if_pos hi]
  · rw [List.getElem?_eq_none hi, Option.map_none, Option.map_none]

theorem map_keyValue_recomputeSlopes (points : List (ControlPoint K)) :
    (recomputeSlopes points).map keyValue = points.map keyValue := by
  refine List.ext_getElem? fun i => ?_
  rw [List.getElem?_map, List.getElem?_map, getElem?_recomputeSlopes, Option.map_map]
  rfl

theorem Curve.ordered_recomputeSlopes (h : points.Pairwise fun a b => a.key < b.key) :
    Curve.Ordered ⟨recomputeSlopes points⟩ := by
  have hmap := map_keyValue_recomputeSlopes points
  constructor
  · have hkeys : (points.map keyValue).Pairwise fun a b => a.1 < b.1 := List.pairwise_map.2 h
    rw [← hmap] at hkeys
    have hpairs := List.pairwise_map.1 hkeys
    exact hpairs
  · intro i p a b hp ha hb
    rw [← slopeAt_eq (List.getElem?_eq_some_iff.1 hp).1 ha hb, slopeAt_congr hmap]
    dsimp only at hp
    rw [getElem?_recomputeSlopes] at hp
    obtain ⟨q, -, rfl⟩ := Option.map_eq_some_iff.1 hp
    rfl

/-! ### Edits -/

namespace Curve

variable {c : Curve K}

omit [Field K] in
theorem pairwise_modify (h : points.Pairwise fun a b => a.key < b.key) (i : ℕ) (value : K) :
    (points.modify i fun p => { p with value := value }).Pairwise fun a b => a.key < b.key := by
  have hmap : (points.modify i fun p => { p with value := value }).map ControlPoint.key =
      points.map ControlPoint.key := by
    refine List.ext_getElem? fun j => ?_
    rw [List.getElem?_map, List.getElem?_map, List.getElem?_modify, Option.map_eq_map,
      Option.map_map]
    cases points[j]? with
    | none => rfl
    | some p =>
      rw [Option.map_some, Option.map_some, Function.comp_apply]
      split_ifs <;> rfl
  have hkeys : (points.map ControlPoint.key).Pairwise (· < ·) := List.pairwise_map.2 h
  rw [← hmap] at hkeys
  exact List.pairwise_map.1 hkeys

omit [Field K] in
theorem isPartition_key (h : points.Pairwise fun a b => a.key < b.key) (x : K) :
    IsPartition (fun p : ControlPoint K => p.key < x) points
        (points.takeWhile fun p => p.key < x).length ∧
      IsPartition (fun p : ControlPoint K => p.key ≤ x) points
        (points.takeWhile fun p => p.key ≤ x).length := by
  constructor
  · exact exists_isPartition h fun a b hab hb =>
      decide_eq_true (hab.trans (of_decide_eq_true hb))
  · exact exists_isPartition h fun a b hab hb =>
      decide_eq_true (hab.le.trans (of_decide_eq_true hb))

/-- The points after a new one was put before those that are not below its key. -/
theorem pairwise_insertIdx (h : points.Pairwise fun a b => a.key < b.key) {key : K}
    (hnew : ∀ p ∈ points, p.key ≠ key) (value : K) :
    (points.insertIdx (partitionPoint (fun p : ControlPoint K => p.key < key) points)
      (.new key value)).Pairwise fun a b => a.key < b.key := by
  obtain ⟨hle, hiff⟩ := (isPartition_key h key).1
  rw [partitionPoint_eq (isPartition_key h key).1]
  generalize (points.takeWhile fun p => p.key < key).length = m at hle hiff
  have hsplit := List.take_append_drop m points
  have hbelow : ∀ p ∈ points.take m, p.key < key := by
    intro p hp
    obtain ⟨i, hi⟩ := List.mem_iff_getElem?.1 hp
    rw [List.getElem?_take] at hi
    split_ifs at hi with hlt
    exact of_decide_eq_true ((hiff i p hi).2 hlt)
  have habove : ∀ p ∈ points.drop m, key < p.key := by
    intro p hp
    obtain ⟨i, hi⟩ := List.mem_iff_getElem?.1 hp
    rw [List.getElem?_drop] at hi
    have hnot := mt (hiff (m + i) p hi).1 (by omega)
    rw [decide_eq_true_iff, not_lt] at hnot
    exact lt_of_le_of_ne hnot (hnew p (List.mem_of_mem_drop hp)).symm
  have hinsert := Lib.insertIdx_append (points.take m) (points.drop m) (.new key value)
  rw [List.length_take_of_le hle, hsplit] at hinsert
  rw [hinsert]
  rw [← hsplit] at h
  obtain ⟨hleft, hright, hcross⟩ := List.pairwise_append.1 h
  refine List.pairwise_append.2 ⟨hleft, List.pairwise_cons.2 ⟨habove, hright⟩, fun a ha b hb => ?_⟩
  rcases List.mem_cons.1 hb with rfl | hb
  · exact hbelow a ha
  · exact hcross a ha b hb

theorem ordered_upsert (h : points.Pairwise fun a b => a.key < b.key) (key value : K) :
    (upsert ⟨points⟩ key value).2.Ordered := by
  rw [upsert]
  dsimp only
  split_ifs with hsame
  · exact ordered_recomputeSlopes (pairwise_modify h _ value)
  · refine ordered_recomputeSlopes (pairwise_insertIdx h (fun p hp heq => hsame ?_) value)
    exact List.findIdx_lt_length.2 ⟨p, hp, decide_eq_true heq⟩

theorem ordered_empty : (⟨[]⟩ : Curve K).Ordered :=
  ⟨List.Pairwise.nil, fun i p a b hp => by simp at hp⟩

theorem Ordered.edit (h : c.Ordered) (e : Edit K) : (c.edit e).Ordered := by
  have herase (nth : ℕ) : (c.points.eraseIdx nth).Pairwise fun a b => a.key < b.key :=
    h.keys.sublist (List.eraseIdx_sublist _ _)
  cases e with
  | upsert key value => exact ordered_upsert h.keys key value
  | setNth nth key value =>
    rw [Curve.edit, setNth]
    split_ifs
    · exact h
    · exact ordered_upsert (herase nth) key value
  | deleteNth nth =>
    rw [Curve.edit, deleteNth]
    split_ifs
    · exact h
    · exact ordered_recomputeSlopes (herase nth)
  | clear => exact ordered_empty

/-- The curve of the ends of a range is ordered when the range is. -/
theorem ordered_identity_iff {lo hi : K} : (identity lo hi).Ordered ↔ lo < hi := by
  constructor
  · intro h
    have hkeys : ((identity lo hi).points.map keyValue).Pairwise fun a b => a.1 < b.1 :=
      List.pairwise_map.2 h.keys
    rw [identity, map_keyValue_recomputeSlopes] at hkeys
    exact (List.pairwise_cons.1 hkeys).1 _ (List.mem_singleton.2 rfl)
  · intro h
    refine ordered_recomputeSlopes (List.pairwise_pair.2 h)

theorem Start.ordered (h : Start c) : c.Ordered := by
  cases h with
  | empty => exact ordered_empty
  | identity h => exact ordered_identity_iff.2 h
  | fromPairs h => exact ordered_recomputeSlopes (List.pairwise_map.2 h)

/-- The edits keep curves ordered. -/
theorem run_ordered (h : c.Ordered) (edits : List (Edit K)) : (c.run edits).Ordered :=
  List.foldlRecOn (motive := Ordered) edits _ h fun _ hc e _ => hc.edit e

/-! ### Evaluation -/

section Evaluate

variable {j : ℕ} {p q : ControlPoint K} {x : K}

section

variable (h : points.Pairwise fun a b => a.key < b.key) (ha : points[i]? = some a)
  (hb : points[j]? = some b)

include h ha hb

omit [Field K] in
theorem key_lt (hij : i < j) : a.key < b.key := by
  obtain ⟨hi, rfl⟩ := List.getElem?_eq_some_iff.1 ha
  obtain ⟨hj, rfl⟩ := List.getElem?_eq_some_iff.1 hb
  exact List.pairwise_iff_getElem.1 h i j hi hj hij

omit [Field K] in
theorem key_le (hij : i ≤ j) : a.key ≤ b.key := by
  rcases hij.eq_or_lt with rfl | hlt
  · rw [Option.some.inj (ha.symm.trans hb)]
  · exact (key_lt h ha hb hlt).le

end

theorem evaluate_of_le (hp : c.points[0]? = some p) (hx : x ≤ p.key) :
    c.evaluate x = some p.value := by
  have hpos := (List.getElem?_eq_some_iff.1 hp).1
  rw [evaluate]
  dsimp only
  rw [if_neg (by omega), hp]
  by_cases hone : c.points.length = 1
  · rw [if_pos hone, Option.map_some]
  · rw [if_neg hone, Option.bind_eq_bind, Option.bind_some, if_pos hx]

theorem evaluate_of_ge (h : c.Ordered) (hp : c.points[c.points.length - 1]? = some p)
    (hx : p.key ≤ x) : c.evaluate x = some p.value := by
  have hpos := (List.getElem?_eq_some_iff.1 hp).1
  obtain ⟨first, hfirst⟩ : ∃ first, c.points[0]? = some first :=
    ⟨_, List.getElem?_eq_getElem (by omega)⟩
  by_cases hle : x ≤ first.key
  · -- then both ends are the same point
    have hone : c.points.length = 1 := by
      by_contra hne
      exact absurd ((key_lt h.keys hfirst hp (by omega)).trans_le (hx.trans hle)) (lt_irrefl _)
    rw [hone, hfirst] at hp
    rw [evaluate_of_le hfirst hle, Option.some.inj hp]
  · rw [evaluate]
    dsimp only
    rw [if_neg (by omega)]
    by_cases hone : c.points.length = 1
    · rw [hone] at hp
      rw [if_pos hone, hp, Option.map_some]
    · rw [if_neg hone, hfirst, Option.bind_eq_bind, Option.bind_some, if_neg hle, hp,
        Option.bind_some, if_pos hx]

theorem evaluate_segment [IsStrictOrderedRing K] (h : c.Ordered) (hp : c.points[0]? = some p)
    (hpx : p.key < x) (ha : c.points[i]? = some a) (hb : c.points[i + 1]? = some b)
    (hax : a.key ≤ x) (hxb : x < b.key) :
    c.evaluate x = some (hermite a.value a.slope b.value b.slope (b.key - a.key)
      ((x - a.key) / (b.key - a.key))) := by
  have hlength := (List.getElem?_eq_some_iff.1 hb).1
  obtain ⟨last, hlast⟩ : ∃ last, c.points[c.points.length - 1]? = some last :=
    ⟨_, List.getElem?_eq_getElem (by omega)⟩
  have hxlast : x < last.key := hxb.trans_le (key_le h.keys hb hlast (by omega))
  have hpart := (isPartition_key h.keys x).2
  have hplace : partitionPoint (fun p : ControlPoint K => p.key ≤ x) c.points = i + 1 := by
    rw [partitionPoint_eq hpart]
    have hlower := (hpart.2 i a ha).1 (decide_eq_true hax)
    have hupper := mt (hpart.2 (i + 1) b hb).2 (by rw [decide_eq_true_iff]; exact hxb.not_ge)
    omega
  rw [evaluate]
  dsimp only
  rw [if_neg (by omega), if_neg (by omega), hp, Option.bind_eq_bind, Option.bind_some,
    if_neg hpx.not_ge, hlast, Option.bind_some, if_neg hxlast.not_ge, hplace,
    if_neg (Nat.succ_ne_zero i), Nat.add_sub_cancel, ha, Option.bind_some, hb,
    Option.bind_some, if_neg (sub_pos.2 (hax.trans_lt hxb)).not_ge]

theorem evaluate_key [IsStrictOrderedRing K] (h : c.Ordered) (hp : c.points[i]? = some p) :
    c.evaluate p.key = some p.value := by
  have hlength := (List.getElem?_eq_some_iff.1 hp).1
  by_cases hlast : i = c.points.length - 1
  · exact evaluate_of_ge h (hlast ▸ hp) le_rfl
  by_cases hzero : i = 0
  · exact evaluate_of_le (hzero ▸ hp) le_rfl
  obtain ⟨first, hfirst⟩ : ∃ first, c.points[0]? = some first :=
    ⟨_, List.getElem?_eq_getElem (by omega)⟩
  obtain ⟨next, hnext⟩ : ∃ next, c.points[i + 1]? = some next :=
    ⟨_, List.getElem?_eq_getElem (by omega)⟩
  rw [evaluate_segment h hfirst (key_lt h.keys hfirst hp (by omega)) hp hnext le_rfl
    (key_lt h.keys hp hnext (by omega)), sub_self, zero_div, Oak.Lib.hermite]
  simp

/-- Between two neighbours there is the cubic with their values and slopes. -/
theorem evaluate_between [IsStrictOrderedRing K] (h : c.Ordered) (ha : c.points[i]? = some a)
    (hb : c.points[i + 1]? = some b) :
    ∃ P : K[X], IsHermite a.key a.value a.slope b.key b.value b.slope P ∧
      ∀ x, a.key ≤ x → x ≤ b.key → c.evaluate x = some (P.eval x) := by
  have hab := key_lt h.keys ha hb (by omega)
  obtain ⟨P, hP, heval⟩ := exists_isHermite a.value a.slope b.value b.slope hab.ne'
  refine ⟨P, hP, fun x hax hxb => ?_⟩
  rcases hxb.eq_or_lt with rfl | hxb
  · rw [hP.right, evaluate_key h hb]
  rcases hax.eq_or_lt with rfl | hax
  · rw [hP.left, evaluate_key h ha]
  have hlength := (List.getElem?_eq_some_iff.1 ha).1
  obtain ⟨first, hfirst⟩ : ∃ first, c.points[0]? = some first :=
    ⟨_, List.getElem?_eq_getElem (by omega)⟩
  rw [heval, evaluate_segment h hfirst ((key_le h.keys hfirst ha (by omega)).trans_lt hax) ha hb
    hax.le hxb]

theorem existsUnique_segment (h : c.Ordered) (hp : c.points[0]? = some p)
    (hq : c.points[c.points.length - 1]? = some q) (hpx : p.key ≤ x) (hxq : x < q.key) :
    ∃! i, ∃ a b, c.points[i]? = some a ∧ c.points[i + 1]? = some b ∧ a.key ≤ x ∧ x < b.key := by
  have hlength := (List.getElem?_eq_some_iff.1 hp).1
  obtain ⟨hle, hiff⟩ := (isPartition_key h.keys x).2
  generalize (c.points.takeWhile fun p => p.key ≤ x).length = m at hle hiff
  simp only [decide_eq_true_iff] at hiff
  have hlower := (hiff 0 p hp).1 hpx
  have hupper := mt (hiff _ q hq).2 hxq.not_ge
  obtain ⟨a, ha⟩ : ∃ a, c.points[m - 1]? = some a := ⟨_, List.getElem?_eq_getElem (by omega)⟩
  obtain ⟨b, hb⟩ : ∃ b, c.points[m - 1 + 1]? = some b := ⟨_, List.getElem?_eq_getElem (by omega)⟩
  refine ⟨m - 1, ⟨a, b, ha, hb, (hiff _ a ha).2 (by omega), ?_⟩, ?_⟩
  · exact not_le.1 (mt (hiff _ b hb).1 (by omega))
  · rintro j ⟨a', b', ha', hb', hax, hxb⟩
    have hj := (hiff j a' ha').1 hax
    have hj' := mt (hiff (j + 1) b' hb').2 hxb.not_ge
    omega

/-- An ordered curve interpolates its control points. -/
theorem Ordered.interpolates [IsStrictOrderedRing K] (h : c.Ordered) : c.Interpolates where
  at_key p hp := by
    obtain ⟨i, hi⟩ := List.mem_iff_getElem?.1 hp
    exact evaluate_key h hi
  before p hp x hx := by
    rw [List.head?_eq_getElem?] at hp
    exact evaluate_of_le hp hx
  after p hp x hx := by
    rw [List.getLast?_eq_getElem?] at hp
    exact evaluate_of_ge h hp hx
  between i a b ha hb := evaluate_between h ha hb
  bracket p q hp hq x hpx hxq := by
    rw [List.head?_eq_getElem?] at hp
    rw [List.getLast?_eq_getElem?] at hq
    exact existsUnique_segment h hp hq hpx hxq

end Evaluate

/-- Every curve that comes about by edits of an ordered one has ascending keys and the slopes of its
neighbours, and interpolates its control points; an edit that fails changes nothing. The curve of
the ends of a range is ordered only when the range is. -/
theorem run_interpolates [IsStrictOrderedRing K] :
    (∀ (c : Curve K), Start c → ∀ edits : List (Edit K),
      (c.run edits).Ordered ∧ (c.run edits).Interpolates ∧
      (∀ nth key value, ((c.run edits).setNth nth key value).1 = .error () →
        ((c.run edits).setNth nth key value).2 = c.run edits) ∧
      ∀ nth, ((c.run edits).deleteNth nth).1 = .error () →
        ((c.run edits).deleteNth nth).2 = c.run edits) ∧
    ∀ lo hi : K, (identity lo hi).Ordered ↔ lo < hi := by
  refine ⟨fun c hc edits => ?_, fun lo hi => ordered_identity_iff⟩
  have hordered := run_ordered hc.ordered edits
  refine ⟨hordered, hordered.interpolates, fun nth key value hfail => ?_, fun nth hfail => ?_⟩
  · rw [setNth] at hfail ⊢
    split_ifs at hfail ⊢
    rfl
  · rw [deleteNth] at hfail ⊢
    split_ifs at hfail ⊢
    rfl

theorem run_interpolates_rat :
    ((identity (0 : ℚ) 1).run [.upsert 2 5, .setNth 0 2 3, .deleteNth 7]).Ordered :=
  (run_interpolates.1 (identity 0 1) (.identity one_pos) _).1

/-- The curve of a range whose ends are exchanged is not ordered. -/
theorem not_ordered_identity : ¬ (identity (1 : ℚ) 0).Ordered :=
  fun h => absurd (ordered_identity_iff.1 h) (by decide)

end Curve

end Oak.Plugin
