import Oak.Core.Ratio
import Oak.Lib.Machine
import Oak.Lib.Ranges
import Mathlib.Data.Set.Basic

/-!
# Time range lists

`TimeRangeList` of `oak-core/src/timerange.rs`: the loops of `insert` and `remove` are those of
`Oak.Lib.insertRange` and `Oak.Lib.removeRange` over `Rational`s, which may be `0/0`. Both put what
they make at the end of the list, so the list is a set of times, but it is in order only as long as
nothing of it begins behind what is put there.

* `TimeRangeList.insert`, `remove` and `first` are the methods; `RangeCall` is a call with a range
  that is not empty.
* `Canonical` says that the ranges are sorted by their begins and do not touch.
* `times` is the set of times that a sequence of calls stands for.

## Main results

* `TimeRangeList.covered_run`: what a list covers after any calls.
* `TimeRangeList.canonical_run_iff`: when a list stays canonical all along.
* `TimeRangeList.insert_behind`: a range that is inserted before another one ends up behind it.
-/

namespace Oak.Core

open Oak.Lib

/-- `TimeRangeList`. -/
structure TimeRangeList where
  ranges : List (Range Ratio)

/-- A call of `insert` or of `remove`, with a range that is not empty. -/
inductive RangeCall where
  | insert (range : Range Ratio) (nonempty : range.in_ < range.out)
  | remove (range : Range Ratio) (nonempty : range.in_ < range.out)

variable (calls : List RangeCall)

namespace TimeRangeList

/-- `TimeRangeList::new`. -/
def new : TimeRangeList := ⟨[]⟩

def insert (s : TimeRangeList) (range : Range Ratio) : TimeRangeList :=
  ⟨insertRange s.ranges range⟩

def remove (s : TimeRangeList) (range : Range Ratio) : TimeRangeList :=
  ⟨removeRange s.ranges range⟩

/-- `first`: the begin of the first range, and `0/0` when there is none. -/
def first (s : TimeRangeList) : Ratio := (s.ranges.head?.map Range.in_).getD Ratio.null

/-- One call. -/
def act (s : TimeRangeList) : RangeCall → TimeRangeList
  | .insert range _ => s.insert range
  | .remove range _ => s.remove range

/-- The ranges are sorted by their begins, and no two of them overlap or touch. -/
structure Canonical (s : TimeRangeList) : Prop where
  sorted : s.ranges.Pairwise fun c d => c.in_ ≤ d.in_
  apart : Apart s.ranges

/-- The times in the ranges that were inserted, less those that were removed, in the order of the
calls. -/
def times : Set Ratio :=
  calls.foldl (fun S call => match call with
    | .insert range _ => S ∪ {t | range.contains t = true}
    | .remove range _ => S \ {t | range.contains t = true}) ∅

/-- Nothing ends up behind its place: a range that is not covered yet is inserted where no range of
the list begins behind its end, and the range that a removal cuts in two is the last one. -/
def KeepsOrder (s : TimeRangeList) : RangeCall → Prop
  | .insert range _ =>
    (∃ c ∈ s.ranges, c.covers range = true) ∨ ∀ c ∈ s.ranges, c.in_ ≤ range.out
  | .remove range _ =>
    ∀ before c after, s.ranges = before ++ c :: after → c.coversInside range = true → after = []

variable {s : TimeRangeList}

theorem canonical_iff : s.Canonical ↔ Ascending s.ranges :=
  ⟨fun h => ascending_iff.2 ⟨h.sorted, h.apart⟩,
    fun h => ⟨(ascending_iff.1 h).1, (ascending_iff.1 h).2⟩⟩

/-! ### Calls -/

theorem apart_act (call : RangeCall) (h : Apart s.ranges) : Apart (s.act call).ranges := by
  cases call with
  | insert range _ => exact h.insert range
  | remove range hrange => exact h.remove hrange

/-- One call keeps the order exactly when nothing ends up behind its place. -/
theorem canonical_act_iff (h : s.Canonical) (call : RangeCall) :
    (s.act call).Canonical ↔ s.KeepsOrder call := by
  rw [canonical_iff] at h ⊢
  cases call with
  | insert range _ => exact ascending_insertRange_iff h
  | remove range hrange => exact ascending_removeRange_iff h hrange

theorem apart_run (calls : List RangeCall) : Apart (run act new calls).ranges :=
  invariant_always (I := fun s : TimeRangeList => Apart s.ranges)
    (fun _ call h => apart_act call h) List.Pairwise.nil calls

theorem run_concat (call : RangeCall) :
    run act new (calls ++ [call]) = (run act new calls).act call :=
  run_append new calls [call]

/-- After any calls the list covers the times in the ranges that were inserted and not removed. -/
theorem covered_run (t : Ratio) : Covered (run act new calls).ranges t ↔ t ∈ times calls := by
  induction calls using List.reverseRecOn with
  | nil => exact iff_of_false covered_nil (Set.notMem_empty t)
  | append_singleton calls call ih =>
    rw [run_concat, times, List.foldl_concat]
    cases call with
    | insert range _ => exact covered_insertRange.trans (or_congr_left ih)
    | remove range _ => exact (covered_removeRange (apart_run calls)).trans (and_congr_left' ih)

/-- Whatever its order, a list is that set of times in ranges that neither overlap nor touch. -/
theorem ranges_run : Apart (run act new calls).ranges ∧
    ∀ t, Covered (run act new calls).ranges t ↔ t ∈ times calls :=
  ⟨apart_run calls, covered_run calls⟩

/-- A list is canonical and covers what it should after each of its calls exactly when none of
them puts anything behind its place. -/
theorem canonical_run_iff (calls : List RangeCall) :
    (∀ done rest, calls = done ++ rest → (run act new done).Canonical ∧
      ∀ t, Covered (run act new done).ranges t ↔ t ∈ times done) ↔
      Permitted act KeepsOrder new calls := by
  have hstart : new.Canonical := canonical_iff.2 List.Pairwise.nil
  have hiff : (∀ done rest, calls = done ++ rest → (run act new done).Canonical) ↔
      Permitted act KeepsOrder new calls :=
    forall_run_iff (J := fun _ => True) (I := Canonical) (fun _ _ _ => trivial)
      (fun s call _ h => canonical_act_iff (s := s) h call) trivial hstart
  rw [← hiff]
  exact forall₃_congr fun done _ _ => and_iff_left fun t => covered_run done t

/-- The range from `a` to `b`, in whole seconds. -/
def seconds (a b : ℤ) : Range Ratio := .new (.new a 1) (.new b 1)

/-- A range that is inserted before another one ends up behind it. -/
theorem insert_behind : ((new.insert (seconds 5 6)).insert (seconds 1 2)).first = .new 5 1 ∧
    ¬ (run act new [.insert (seconds 5 6) (by decide),
      .insert (seconds 1 2) (by decide)]).Canonical := by
  refine ⟨by decide, fun h => ?_⟩
  have hlist : run act new [.insert (seconds 5 6) (by decide),
      .insert (seconds 1 2) (by decide)] = ⟨[seconds 5 6, seconds 1 2]⟩ := by
    refine congrArg TimeRangeList.mk ?_
    decide
  have hsorted := h.sorted
  rw [hlist, List.pairwise_pair] at hsorted
  exact absurd hsorted (by decide)

end TimeRangeList

end Oak.Core
