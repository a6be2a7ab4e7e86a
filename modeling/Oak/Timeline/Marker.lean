import Mathlib.Data.List.Basic
import Mathlib.Tactic.Linarith
import Oak.Core.Exact
import Oak.Undo.Command

/-!
# Timeline markers

`oak-timeline/src/marker.rs`: the list of markers of a timeline, which is kept sorted by in point,
and the commands that change it. A command holds the shared list; here it is the document that
`redo` and `undo` are given. The command of an empty list handle, which does nothing, is left out.

* `addMarker` inserts a marker behind those with the same in point, `resortAt` takes the marker at
  an index out and inserts it again.
* `MarkerEdit` is what is asked for, `MarkerEdit.command` the command that the constructor builds
  for it: the change commands capture the old value of the marker at their index.
* A new marker is taken back by its in point, a removed one is inserted again, and a changed one is
  looked up at the index that it had before the change.
* `getClosestMarkerToTime` goes through the markers until their distance from the time, which is
  rounded, grows.

## Main results

* `getClosestMarkerToTime_closest`: in a sorted list it finds a marker at the least distance, where
  the distances are exact.
* `sorted_redone`, `sorted_undone`: both directions of every command keep the list sorted.
* `undone_eq_iff`: the commands that leave every marker behind its predecessors restore the list if
  and only if the markers they may be confused with are equal to their own.
-/

namespace Oak.Timeline

open Oak.Core Oak.Undo

/-- `TimelineMarker`. -/
@[ext] structure TimelineMarker where
  color : ℤ
  time : TimeRange
  name : String
  deriving DecidableEq, Repr

namespace TimelineMarker

/-- `set_time`. -/
def setTime (m : TimelineMarker) (time : TimeRange) : TimelineMarker := { m with time := time }

/-- `set_name`. -/
def setName (m : TimelineMarker) (name : String) : TimelineMarker := { m with name := name }

/-- `set_color`. -/
def setColor (m : TimelineMarker) (color : ℤ) : TimelineMarker := { m with color := color }

end TimelineMarker

/-- `TimelineMarkerList`. -/
abbrev TimelineMarkerList := List TimelineMarker

variable {markers : TimelineMarkerList} {m : TimelineMarker} {index : ℕ}

variable {front back : TimelineMarkerList}

namespace TimelineMarkerList

/-- The order that the list is kept in. -/
def Sorted (markers : TimelineMarkerList) : Prop :=
  markers.Pairwise fun a b => a.time.in_ ≤ b.time.in_

/-- `add_marker`: before the first marker with a later in point. -/
def addMarker : TimelineMarkerList → TimelineMarker → TimelineMarkerList
  | [], marker => [marker]
  | m :: markers, marker =>
    if marker.time.in_ < m.time.in_ then marker :: m :: markers
    else m :: addMarker markers marker

/-- The index of the first marker with the in point `time`, as `MarkerAddCommand::undo` searches
it. -/
def indexAtTime (markers : TimelineMarkerList) (time : Rational) : Option ℕ :=
  markers.findIdx? fun m => m.time.in_ == time

/-- `remove_at`. -/
def removeAt (markers : TimelineMarkerList) (index : ℕ) :
    Option TimelineMarker × TimelineMarkerList :=
  (markers[index]?, markers.eraseIdx index)

/-- `resort_at`: take the marker at `index` out and insert it again. -/
def resortAt (markers : TimelineMarkerList) (index : ℕ) : TimelineMarkerList :=
  match markers[index]? with
  | none => markers
  | some marker => addMarker (markers.eraseIdx index) marker

/-! ### Where a marker is inserted -/

theorem addMarker_append {marker : TimelineMarker}
    (hfront : ∀ a ∈ front, a.time.in_ ≤ marker.time.in_)
    (hback : ∀ b ∈ back, marker.time.in_ < b.time.in_) :
    addMarker (front ++ back) marker = front ++ marker :: back := by
  induction front with
  | nil =>
    cases back with
    | nil => rfl
    | cons b back => exact if_pos (hback b List.mem_cons_self)
  | cons a front ih =>
    rw [List.cons_append, addMarker, if_neg (not_lt.2 (hfront a List.mem_cons_self)),
      ih fun a' ha' => hfront a' (List.mem_cons_of_mem a ha'), List.cons_append]

/-- A sorted list is cut behind the markers that do not lie after `time`. -/
theorem Sorted.exists_split (h : Sorted markers) (time : Rational) :
    ∃ front back, markers = front ++ back ∧
      (∀ a ∈ front, a.time.in_ ≤ time) ∧ ∀ b ∈ back, time < b.time.in_ := by
  induction markers with
  | nil => exact ⟨[], [], rfl, by simp, by simp⟩
  | cons m markers ih =>
    obtain ⟨hm, hrest⟩ := List.pairwise_cons.1 h
    obtain hle | hlt := le_or_gt m.time.in_ time
    · obtain ⟨front, back, rfl, hfront, hback⟩ := ih hrest
      exact ⟨m :: front, back, rfl, List.forall_mem_cons.2 ⟨hle, hfront⟩, hback⟩
    · exact ⟨[], m :: markers, rfl, by simp, List.forall_mem_cons.2
        ⟨hlt, fun b hb => hlt.trans_le (hm b hb)⟩⟩

theorem Sorted.addMarker {markers : TimelineMarkerList} (h : Sorted markers)
    (marker : TimelineMarker) : Sorted (addMarker markers marker) := by
  obtain ⟨front, back, rfl, hfront, hback⟩ := h.exists_split marker.time.in_
  rw [addMarker_append hfront hback]
  obtain ⟨hf, hb, hfb⟩ := List.pairwise_append.1 h
  refine List.pairwise_append.2 ⟨hf, List.pairwise_cons.2 ⟨fun b hb' => (hback b hb').le, hb⟩, ?_⟩
  intro a ha b hb'
  obtain rfl | hb' := List.mem_cons.1 hb'
  · exact hfront a ha
  · exact hfb a ha b hb'

theorem Sorted.eraseIdx (h : Sorted markers) (index : ℕ) :
    Sorted (markers.eraseIdx index) := List.Pairwise.sublist (List.eraseIdx_sublist ..) h

theorem Sorted.modify (h : Sorted markers) (index : ℕ) {f : TimelineMarker → TimelineMarker}
    (hf : ∀ m, (f m).time = m.time) : Sorted (markers.modify index f) := by
  have hin : ∀ l : TimelineMarkerList, Sorted l ↔ (l.map fun m => m.time.in_).Pairwise (· ≤ ·) :=
    fun l => List.pairwise_map.symm
  have hmap : (markers.modify index f).map (fun m => m.time.in_) =
      markers.map fun m => m.time.in_ := by
    refine List.ext_getElem? fun j => ?_
    rw [List.getElem?_map, List.getElem?_map, List.getElem?_modify]
    split_ifs with hj
    · cases markers[j]? with
      | none => rfl
      | some m => exact congrArg (fun time => some (TimeRange.in_ time)) (hf m)
    · cases markers[j]? <;> rfl
  rw [hin, hmap, ← hin]
  exact h

/-- `set_time` followed by `resort_at` is an insertion of the changed marker. -/
theorem resortAt_modify (hm : markers[index]? = some m) (time : TimeRange) :
    resortAt (markers.modify index fun m => m.setTime time) index =
      TimelineMarkerList.addMarker (markers.eraseIdx index) (m.setTime time) := by
  have herase : (markers.modify index fun m => m.setTime time).eraseIdx index =
      markers.eraseIdx index := by
    refine List.ext_getElem? fun j => ?_
    rw [List.getElem?_eraseIdx, List.getElem?_eraseIdx, List.getElem?_modify, List.getElem?_modify]
    split_ifs <;> first | omega | simp
  have hget : (markers.modify index fun m => m.setTime time)[index]? = some (m.setTime time) := by
    rw [List.getElem?_modify, hm]
    simp
  rw [resortAt, hget, herase]

theorem resortAt_modify_none (hm : markers[index]? = none) (time : TimeRange) :
    resortAt (markers.modify index fun m => m.setTime time) index = markers := by
  have hlen := List.getElem?_eq_none_iff.1 hm
  rw [List.modify_eq_self hlen, resortAt, hm]

theorem Sorted.retime (h : Sorted markers) (index : ℕ) (time : TimeRange) :
    Sorted (resortAt (markers.modify index fun m => m.setTime time) index) := by
  cases hm : markers[index]? with
  | none =>
    rw [resortAt_modify_none hm]
    exact h
  | some m =>
    rw [resortAt_modify hm]
    exact (h.eraseIdx index).addMarker _

/-! ### The marker closest to a time -/

/-- `rational_abs`. -/
def rationalAbs (r : Fraction) : Option Fraction :=
  if r.cmp ⟨0, 1⟩ = .lt then Fraction.sub ⟨0, 1⟩ r else some r

/-- The distance of a marker from `t`. Valid rationals do not overflow. -/
def distance (t : Fraction) (m : TimelineMarker) : Fraction :=
  (((Fraction.ofRat m.time.in_).sub t).bind rationalAbs).getD .null

/-- The loop of `get_closest_marker_to_time`, which ends once the distance grows. -/
def closestFrom (t : Fraction) (closest : Option TimelineMarker) (closestDiff : Fraction) :
    TimelineMarkerList → Option TimelineMarker
  | [] => closest
  | m :: markers =>
    let thisDiff := distance t m
    if closest.isSome && thisDiff.cmp closestDiff = .gt then closest
    else if closest.isNone || thisDiff.cmp closestDiff = .lt then
      closestFrom t (some m) thisDiff markers
    else closestFrom t closest closestDiff markers

/-- `get_closest_marker_to_time`. -/
def getClosestMarkerToTime (markers : TimelineMarkerList) (t : Fraction) : Option TimelineMarker :=
  closestFrom t none ⟨0, 1⟩ markers

theorem rationalAbs_ofRat {r : Rational} (h : Exact r) :
    rationalAbs (.ofRat r) = some (.ofRat |r|) := by
  rw [rationalAbs, show (⟨0, 1⟩ : Fraction) = .ofRat 0 from rfl, Fraction.cmp_ofRat]
  by_cases hneg : r < 0
  · rw [if_pos (compare_lt_iff_lt.2 hneg), abs_of_neg hneg, Fraction.sub_ofRat (by decide) h,
      zero_sub]
    rw [zero_sub]
    exact h.neg
  · rw [if_neg (mt compare_lt_iff_lt.1 hneg), abs_of_nonneg (not_lt.1 hneg)]

/-- The distance of a marker is the one of the numbers, where it is exact. -/
theorem distance_ofRat {t : Rational} (h : Exacts [m.time.in_, t, m.time.in_ - t]) :
    distance (.ofRat t) m = .ofRat |m.time.in_ - t| := by
  simp only [exacts_cons, exacts_nil, and_true] at h
  rw [distance, Fraction.sub_ofRat h.1 h.2.1 h.2.2, Option.bind_some, rationalAbs_ofRat h.2.2,
    Option.getD_some]

/-- Once a marker lies farther from `t` than one before it, so do those behind it. -/
theorem abs_le_of_sorted {t c m b : Rational} (hcm : c ≤ m) (hmb : m ≤ b)
    (hlt : |c - t| < |m - t|) : |c - t| ≤ |b - t| := by
  have ht : t ≤ m := by
    by_contra hm
    have hneg : m - t ≤ 0 := by linarith
    have hneg' : c - t ≤ 0 := by linarith
    rw [abs_of_nonpos hneg, abs_of_nonpos hneg'] at hlt
    linarith
  have hnonneg : 0 ≤ m - t := by linarith
  have hnonneg' : 0 ≤ b - t := by linarith
  rw [abs_of_nonneg hnonneg] at hlt
  rw [abs_of_nonneg hnonneg']
  linarith

/-- A marker that was found is as close as what lies before it, and what comes is compared with
it. -/
theorem closestFrom_some {t : Rational} {c : TimelineMarker} (h : Sorted (c :: markers))
    (hexact : ∀ m ∈ markers, Exacts [m.time.in_, t, m.time.in_ - t]) :
    ∃ m ∈ c :: markers,
      closestFrom (.ofRat t) (some c) (.ofRat |c.time.in_ - t|) markers = some m ∧
        ∀ b ∈ c :: markers, |m.time.in_ - t| ≤ |b.time.in_ - t| := by
  induction markers generalizing c with
  | nil => exact ⟨c, List.mem_cons_self, rfl, by simp⟩
  | cons m markers ih =>
    obtain ⟨hc, hrest⟩ := List.pairwise_cons.1 h
    obtain ⟨hm, hmarkers⟩ := List.pairwise_cons.1 hrest
    obtain ⟨hexactm, hexacts⟩ := List.forall_mem_cons.1 hexact
    have hcm := hc m List.mem_cons_self
    rw [closestFrom, distance_ofRat hexactm]
    simp only [Option.isSome_some, Bool.true_and, decide_eq_true_eq, Option.isNone_some,
      Bool.false_or, Fraction.cmp_ofRat, compare_gt_iff_gt, compare_lt_iff_lt]
    split_ifs with hfar hnear
    · refine ⟨c, List.mem_cons_self, rfl, List.forall_mem_cons.2 ⟨le_rfl, ?_⟩⟩
      refine List.forall_mem_cons.2 ⟨hfar.le, fun b hb => ?_⟩
      exact abs_le_of_sorted hcm (hm b hb) hfar
    · obtain ⟨x, hx, heq, hmin⟩ := ih hrest hexacts
      refine ⟨x, List.mem_cons_of_mem c hx, heq, List.forall_mem_cons.2 ⟨?_, hmin⟩⟩
      exact (hmin m List.mem_cons_self).trans hnear.le
    · have hskip : Sorted (c :: markers) :=
        List.pairwise_cons.2 ⟨fun b hb => hc b (List.mem_cons_of_mem m hb), hmarkers⟩
      obtain ⟨x, hx, heq, hmin⟩ := ih hskip hexacts
      obtain ⟨hminc, hminrest⟩ := List.forall_mem_cons.1 hmin
      refine ⟨x, ?_, heq, List.forall_mem_cons.2 ⟨hminc, List.forall_mem_cons.2 ⟨?_, hminrest⟩⟩⟩
      · rcases List.mem_cons.1 hx with rfl | hx
        · exact List.mem_cons_self
        · exact List.mem_cons_of_mem c (List.mem_cons_of_mem m hx)
      · exact hminc.trans (not_lt.1 hnear)

/-- **The closest marker.** In a sorted list the marker that is returned has the least distance
from the time, when the distances are exact, and one is returned unless the list is empty. -/
theorem getClosestMarkerToTime_closest {markers : TimelineMarkerList} (h : Sorted markers)
    {t : Rational} (hexact : ∀ m ∈ markers, Exacts [m.time.in_, t, m.time.in_ - t]) :
    (getClosestMarkerToTime markers (.ofRat t) = none ↔ markers = []) ∧
      ∀ m, getClosestMarkerToTime markers (.ofRat t) = some m → m ∈ markers ∧
        ∀ b ∈ markers, |m.time.in_ - t| ≤ |b.time.in_ - t| := by
  cases markers with
  | nil => simp [getClosestMarkerToTime, closestFrom]
  | cons c markers =>
    obtain ⟨hexactc, hexacts⟩ := List.forall_mem_cons.1 hexact
    obtain ⟨x, hx, heq, hmin⟩ := closestFrom_some h hexacts
    have hclosest : getClosestMarkerToTime (c :: markers) (.ofRat t) = some x := by
      rw [getClosestMarkerToTime, closestFrom, distance_ofRat hexactc]
      exact heq
    refine ⟨by simp [hclosest], fun m hm => ?_⟩
    rw [hclosest, Option.some.injEq] at hm
    subst hm
    exact ⟨hx, hmin⟩

/-- Between two markers at `1` and `4` the time `2` is closer to the first. -/
theorem getClosestMarkerToTime_closest_between :
    ∃ m, getClosestMarkerToTime [⟨0, ⟨1, 1⟩, "a"⟩, ⟨0, ⟨4, 4⟩, "b"⟩] (.ofRat 2) = some m ∧
      |m.time.in_ - 2| ≤ |(4 : ℚ) - 2| := by
  have hsorted : Sorted [⟨0, ⟨1, 1⟩, "a"⟩, ⟨0, ⟨4, 4⟩, "b"⟩] := by
    simp [Sorted]
  obtain ⟨hnone, hsome⟩ := getClosestMarkerToTime_closest hsorted (t := 2) (by decide +kernel)
  obtain ⟨m, hm⟩ := Option.ne_none_iff_exists'.1 fun h => List.cons_ne_nil _ _ (hnone.1 h)
  exact ⟨m, hm, (hsome m hm).2 ⟨0, ⟨4, 4⟩, "b"⟩ (by simp)⟩

/-- No distance from the greatest time is a number: the first marker is found, not the closest. -/
theorem getClosestMarkerToTime_max :
    getClosestMarkerToTime [⟨0, ⟨0, 0⟩, "a"⟩, ⟨0, ⟨10, 10⟩, "b"⟩] ⟨2147483647, 1⟩ =
        some ⟨0, ⟨0, 0⟩, "a"⟩ ∧
      Sorted [⟨0, ⟨0, 0⟩, "a"⟩, ⟨0, ⟨10, 10⟩, "b"⟩] ∧
      |(10 : ℚ) - 2147483647| < |0 - 2147483647| :=
  ⟨by decide +kernel, by simp [Sorted], by decide +kernel⟩

end TimelineMarkerList

open TimelineMarkerList

/-! ### The commands -/

/-- `MarkerAddCommand`. -/
structure MarkerAddCommand where
  range : TimeRange
  name : String
  color : ℤ
  /-- Whether the marker is in the list. -/
  added : Bool

variable (c : MarkerAddCommand)

namespace MarkerAddCommand

/-- The marker that the command adds. -/
def marker : TimelineMarker := ⟨c.color, c.range, c.name⟩

def redo (markers : TimelineMarkerList) : MarkerAddCommand × TimelineMarkerList :=
  if c.added then (c, markers) else ({ c with added := true }, addMarker markers c.marker)

/-- Several markers may share the in point: the first one of them is removed. -/
def undo (markers : TimelineMarkerList) : MarkerAddCommand × TimelineMarkerList :=
  if c.added then
    ({ c with added := false }, match indexAtTime markers c.range.in_ with
      | none => markers
      | some index => (removeAt markers index).2)
  else (c, markers)

end MarkerAddCommand

/-- `MarkerRemoveCommand`. -/
structure MarkerRemoveCommand where
  index : ℕ
  /-- The marker that `redo` took out. -/
  removed : Option TimelineMarker

namespace MarkerRemoveCommand

def redo (c : MarkerRemoveCommand) (markers : TimelineMarkerList) :
    MarkerRemoveCommand × TimelineMarkerList :=
  if c.removed.isSome then (c, markers)
  else ({ c with removed := (removeAt markers c.index).1 }, (removeAt markers c.index).2)

def undo (c : MarkerRemoveCommand) (markers : TimelineMarkerList) :
    MarkerRemoveCommand × TimelineMarkerList :=
  match c.removed with
  | none => (c, markers)
  | some marker => ({ c with removed := none }, addMarker markers marker)

end MarkerRemoveCommand

/-- `MarkerChangeColorCommand`. -/
structure MarkerChangeColorCommand where
  index : ℕ
  oldColor : ℤ
  newColor : ℤ

namespace MarkerChangeColorCommand

def redo (c : MarkerChangeColorCommand) (markers : TimelineMarkerList) : TimelineMarkerList :=
  markers.modify c.index fun m => m.setColor c.newColor

def undo (c : MarkerChangeColorCommand) (markers : TimelineMarkerList) : TimelineMarkerList :=
  markers.modify c.index fun m => m.setColor c.oldColor

end MarkerChangeColorCommand

/-- `MarkerChangeNameCommand`. -/
structure MarkerChangeNameCommand where
  index : ℕ
  oldName : String
  newName : String

namespace MarkerChangeNameCommand

def redo (c : MarkerChangeNameCommand) (markers : TimelineMarkerList) : TimelineMarkerList :=
  markers.modify c.index fun m => m.setName c.newName

def undo (c : MarkerChangeNameCommand) (markers : TimelineMarkerList) : TimelineMarkerList :=
  markers.modify c.index fun m => m.setName c.oldName

end MarkerChangeNameCommand

/-- `MarkerChangeTimeCommand`. -/
structure MarkerChangeTimeCommand where
  index : ℕ
  oldTime : TimeRange
  newTime : TimeRange

namespace MarkerChangeTimeCommand

def redo (c : MarkerChangeTimeCommand) (markers : TimelineMarkerList) : TimelineMarkerList :=
  resortAt (markers.modify c.index fun m => m.setTime c.newTime) c.index

/-- The marker is looked up at the index that it had before `redo`. -/
def undo (c : MarkerChangeTimeCommand) (markers : TimelineMarkerList) : TimelineMarkerList :=
  resortAt (markers.modify c.index fun m => m.setTime c.oldTime) c.index

end MarkerChangeTimeCommand

/-- A boxed marker command. -/
inductive MarkerCommand where
  | add (c : MarkerAddCommand)
  | remove (c : MarkerRemoveCommand)
  | changeColor (c : MarkerChangeColorCommand)
  | changeName (c : MarkerChangeNameCommand)
  | changeTime (c : MarkerChangeTimeCommand)

namespace MarkerCommand

def redo : MarkerCommand → TimelineMarkerList → MarkerCommand × TimelineMarkerList
  | .add c, markers => (.add (c.redo markers).1, (c.redo markers).2)
  | .remove c, markers => (.remove (c.redo markers).1, (c.redo markers).2)
  | .changeColor c, markers => (.changeColor c, c.redo markers)
  | .changeName c, markers => (.changeName c, c.redo markers)
  | .changeTime c, markers => (.changeTime c, c.redo markers)

def undo : MarkerCommand → TimelineMarkerList → MarkerCommand × TimelineMarkerList
  | .add c, markers => (.add (c.undo markers).1, (c.undo markers).2)
  | .remove c, markers => (.remove (c.undo markers).1, (c.undo markers).2)
  | .changeColor c, markers => (.changeColor c, c.undo markers)
  | .changeName c, markers => (.changeName c, c.undo markers)
  | .changeTime c, markers => (.changeTime c, c.undo markers)

instance : Command MarkerCommand TimelineMarkerList := ⟨redo, undo⟩

end MarkerCommand

/-- What a marker command is built for. -/
inductive MarkerEdit where
  | add (range : TimeRange) (name : String) (color : ℤ)
  | remove (index : ℕ)
  | changeColor (index : ℕ) (newColor : ℤ)
  | changeName (index : ℕ) (name : String)
  | changeTime (index : ℕ) (time : TimeRange)

namespace MarkerEdit

/-- The constructors `new_arc` of the commands. -/
def command (markers : TimelineMarkerList) : MarkerEdit → MarkerCommand
  | .add range name color => .add ⟨range, name, color, false⟩
  | .remove index => .remove ⟨index, none⟩
  | .changeColor index newColor =>
    .changeColor ⟨index, (markers[index]?.map TimelineMarker.color).getD 0, newColor⟩
  | .changeName index name =>
    .changeName ⟨index, (markers[index]?.map TimelineMarker.name).getD "", name⟩
  | .changeTime index time =>
    .changeTime ⟨index, (markers[index]?.map TimelineMarker.time).getD (TimeRange.new 0 0), time⟩

/-- The list after `redo`. -/
def redone (e : MarkerEdit) (markers : TimelineMarkerList) : TimelineMarkerList :=
  (Command.redo (e.command markers) markers).2

/-- The list after `redo` and `undo`. -/
def undone (e : MarkerEdit) (markers : TimelineMarkerList) : TimelineMarkerList :=
  (Command.undo (Command.redo (e.command markers) markers).1 (e.redone markers)).2

/-- A change of time leaves its marker between its two neighbours. -/
def KeepsPlace (markers : TimelineMarkerList) : MarkerEdit → Prop
  | .changeTime index time => index < markers.length →
    (∀ a ∈ markers.take index, a.time.in_ ≤ time.in_) ∧
      ∀ b ∈ markers.drop (index + 1), time.in_ < b.time.in_
  | _ => True

/-- The markers with the in point of the command's marker, behind its place, are equal to it. -/
def Distinguished (markers : TimelineMarkerList) : MarkerEdit → Prop
  | .add range name color => ∀ m ∈ markers, m.time.in_ = range.in_ → m = ⟨color, range, name⟩
  | .remove index => ∀ m ∈ markers[index]?, ∀ b ∈ markers.drop (index + 1),
    b.time.in_ = m.time.in_ → b = m
  | .changeTime index _ => ∀ m ∈ markers[index]?, ∀ b ∈ markers.drop (index + 1),
    b.time.in_ = m.time.in_ → b = m
  | _ => True

/-! ### Both directions keep the order -/

/-- **The list stays sorted.** -/
theorem sorted_redone (h : Sorted markers) (e : MarkerEdit) : Sorted (e.redone markers) := by
  cases e with
  | add range name color => exact h.addMarker _
  | remove index => exact h.eraseIdx index
  | changeColor index newColor => exact h.modify index fun _ => rfl
  | changeName index name => exact h.modify index fun _ => rfl
  | changeTime index time => exact h.retime index time

theorem sorted_undone (h : Sorted markers) (e : MarkerEdit) : Sorted (e.undone markers) := by
  have hredone := sorted_redone h e
  cases e with
  | add range name color =>
    change Sorted (match indexAtTime _ range.in_ with | none => _ | some index => _)
    split
    · exact hredone
    · exact hredone.eraseIdx _
  | remove index =>
    change Sorted (MarkerRemoveCommand.undo ⟨index, markers[index]?⟩ _).2
    cases markers[index]? with
    | none => exact hredone
    | some m => exact hredone.addMarker m
  | changeColor index newColor => exact hredone.modify index fun _ => rfl
  | changeName index name => exact hredone.modify index fun _ => rfl
  | changeTime index time => exact hredone.retime index _

/-! ### When the list is restored -/

/-- A marker behind a run is the same as in front of it only when the run repeats it. -/
theorem concat_eq_cons_iff {run : TimelineMarkerList} {m m' : TimelineMarker} :
    run ++ [m] = m' :: run ↔ m' = m ∧ ∀ b ∈ run, b = m := by
  induction run generalizing m' with
  | nil => simp [eq_comm]
  | cons b run ih =>
    rw [List.cons_append, List.cons_eq_cons, ih, List.forall_mem_cons]
    constructor
    · rintro ⟨rfl, rfl, hrun⟩
      exact ⟨rfl, rfl, hrun⟩
    · rintro ⟨rfl, rfl, hrun⟩
      exact ⟨rfl, rfl, hrun⟩

theorem append_cons_eq_iff {run back : TimelineMarkerList} {m m' : TimelineMarker} :
    run ++ m :: back = m' :: (run ++ back) ↔ m' = m ∧ ∀ b ∈ run, b = m := by
  rw [← concat_eq_cons_iff, ← List.append_cancel_right_eq (run ++ [m]) back, List.append_assoc,
    List.singleton_append, List.cons_append]

/-- Where a marker is inserted again after it was taken out. -/
theorem addMarker_eq_self_iff (h : Sorted (front ++ m :: back)) :
    addMarker (front ++ back) m = front ++ m :: back ↔
      ∀ b ∈ back, b.time.in_ = m.time.in_ → b = m := by
  obtain ⟨-, hmback, hfb⟩ := List.pairwise_append.1 h
  obtain ⟨hm, hback⟩ := List.pairwise_cons.1 hmback
  obtain ⟨run, later, rfl, hrun, hlater⟩ := Sorted.exists_split hback m.time.in_
  have hfront : ∀ a ∈ front ++ run, a.time.in_ ≤ m.time.in_ := by
    intro a ha
    obtain ha | ha := List.mem_append.1 ha
    · exact hfb a ha m List.mem_cons_self
    · exact hrun a ha
  have hassoc : front ++ (run ++ later) = (front ++ run) ++ later := (List.append_assoc ..).symm
  rw [hassoc, addMarker_append hfront hlater, List.append_assoc, List.append_cancel_left_eq]
  rw [append_cons_eq_iff]
  constructor
  · rintro ⟨-, heq⟩ b hb hin
    obtain hb | hb := List.mem_append.1 hb
    · exact heq b hb
    · exact absurd hin (hlater b hb).ne'
  · intro heq
    refine ⟨rfl, fun b hb => heq b (List.mem_append_left later hb) (le_antisymm (hrun b hb) ?_)⟩
    exact hm b (List.mem_append_left later hb)

theorem split_at (hm : markers[index]? = some m) :
    markers = markers.take index ++ m :: markers.drop (index + 1) := by
  obtain ⟨hlt, rfl⟩ := List.getElem?_eq_some_iff.1 hm
  rw [List.getElem_cons_drop, List.take_append_drop]

/-- The markers of a sorted list that do not lie after `time`, cut where `time` is reached. -/
theorem exists_run {front : TimelineMarkerList} (h : Sorted front) {time : Rational}
    (hfront : ∀ a ∈ front, a.time.in_ ≤ time) : ∃ lower run, front = lower ++ run ∧
      (∀ a ∈ lower, a.time.in_ ≠ time) ∧ ∀ b ∈ run, b.time.in_ = time := by
  induction front with
  | nil => exact ⟨[], [], rfl, by simp, by simp⟩
  | cons a front ih =>
    obtain ⟨ha, hrest⟩ := List.pairwise_cons.1 h
    obtain ⟨hle, hfront⟩ := List.forall_mem_cons.1 hfront
    obtain heq | hne := eq_or_ne a.time.in_ time
    · refine ⟨[], a :: front, rfl, by simp, List.forall_mem_cons.2 ⟨heq, fun b hb => ?_⟩⟩
      exact le_antisymm (hfront b hb) (heq ▸ ha b hb)
    · obtain ⟨lower, run, rfl, hlower, hrun⟩ := ih hrest hfront
      exact ⟨a :: lower, run, rfl, List.forall_mem_cons.2 ⟨hne, hlower⟩, hrun⟩

theorem indexAtTime_append {lower rest : TimelineMarkerList}
    (hlower : ∀ a ∈ lower, a.time.in_ ≠ m.time.in_) :
    indexAtTime (lower ++ m :: rest) m.time.in_ = some lower.length := by
  have hnone : lower.findIdx? (fun a => a.time.in_ == m.time.in_) = none :=
    List.findIdx?_eq_none_iff.2 fun a ha => beq_false_of_ne (hlower a ha)
  rw [indexAtTime, List.findIdx?_append, hnone, List.findIdx?_cons, beq_self_eq_true]
  simp

/-- Taking an added marker back removes the first marker with its in point. -/
theorem undone_add {lower back rest : TimelineMarkerList} {x : TimelineMarker}
    {range : TimeRange} {name : String} {color : ℤ}
    (hredone : (add range name color).redone (lower ++ back) = lower ++ x :: rest)
    (hlower : ∀ a ∈ lower, a.time.in_ ≠ range.in_) (hx : x.time.in_ = range.in_) :
    (add range name color).undone (lower ++ back) = lower ++ rest := by
  change (match indexAtTime ((add range name color).redone (lower ++ back)) range.in_ with
    | none => (add range name color).redone (lower ++ back)
    | some index => (removeAt ((add range name color).redone (lower ++ back)) index).2) = _
  rw [hredone, ← hx, indexAtTime_append fun a ha => hx ▸ hlower a ha]
  change (lower ++ x :: rest).eraseIdx lower.length = _
  rw [List.eraseIdx_append_of_length_le le_rfl, Nat.sub_self]
  rfl

theorem undone_add_eq_iff (h : Sorted markers) (range : TimeRange) (name : String) (color : ℤ) :
    (add range name color).undone markers = markers ↔
      ∀ m ∈ markers, m.time.in_ = range.in_ → m = ⟨color, range, name⟩ := by
  obtain ⟨front, back, rfl, hfront, hback⟩ := h.exists_split range.in_
  obtain ⟨lower, run, rfl, hlower, hrun⟩ := exists_run (List.pairwise_append.1 h).1 hfront
  have hredone : (add range name color).redone (lower ++ run ++ back) =
      lower ++ (run ++ ⟨color, range, name⟩ :: back) := by
    have happend := @addMarker_append (lower ++ run) back ⟨color, range, name⟩ hfront hback
    exact happend.trans (List.append_assoc ..)
  have hiff : (∀ m ∈ lower ++ run ++ back, m.time.in_ = range.in_ → m = ⟨color, range, name⟩) ↔
      ∀ b ∈ run, b = ⟨color, range, name⟩ := by
    constructor
    · intro hall b hb
      exact hall b (List.mem_append_left _ (List.mem_append_right _ hb)) (hrun b hb)
    · intro hall b hb hin
      obtain hb | hb := List.mem_append.1 hb
      · obtain hb | hb := List.mem_append.1 hb
        · exact absurd hin (hlower b hb)
        · exact hall b hb
      · exact absurd hin (hback b hb).ne'
  rw [hiff]
  rw [List.append_assoc] at hredone ⊢
  cases run with
  | nil =>
    have hundone : (add range name color).undone (lower ++ back) = lower ++ back :=
      undone_add hredone hlower rfl
    simpa using hundone
  | cons b run =>
    have hundone : (add range name color).undone (lower ++ (b :: run ++ back)) =
        lower ++ (run ++ ⟨color, range, name⟩ :: back) :=
      undone_add hredone hlower (hrun b List.mem_cons_self)
    rw [hundone, List.append_cancel_left_eq, List.cons_append, append_cons_eq_iff,
      List.forall_mem_cons]

theorem undone_remove_eq_iff (h : Sorted markers) (index : ℕ) :
    (remove index).undone markers = markers ↔ ∀ m ∈ markers[index]?,
      ∀ b ∈ markers.drop (index + 1), b.time.in_ = m.time.in_ → b = m := by
  change (MarkerRemoveCommand.undo ⟨index, markers[index]?⟩ (markers.eraseIdx index)).2 = _ ↔ _
  cases hm : markers[index]? with
  | none =>
    have hlen := List.getElem?_eq_none_iff.1 hm
    simp [MarkerRemoveCommand.undo, List.eraseIdx_of_length_le hlen]
  | some m =>
    change addMarker (markers.eraseIdx index) m = markers ↔ _
    have hsplit := split_at hm
    rw [List.eraseIdx_eq_take_drop_succ]
    rw [hsplit] at h
    conv_lhs => rhs; rw [hsplit]
    rw [addMarker_eq_self_iff h]
    simp

/-- A changed marker that stays between its neighbours is found again by its index. -/
theorem undone_changeTime {time : TimeRange} (hm : markers[index]? = some m)
    (hplace : (changeTime index time).KeepsPlace markers) :
    (changeTime index time).undone markers =
      addMarker (markers.take index ++ markers.drop (index + 1)) m := by
  obtain ⟨hlt, -⟩ := List.getElem?_eq_some_iff.1 hm
  have hlen : (markers.take index).length = index := List.length_take_of_le hlt.le
  obtain ⟨hbefore, hbehind⟩ := hplace hlt
  have hredone : (changeTime index time).redone markers =
      markers.take index ++ m.setTime time :: markers.drop (index + 1) := by
    refine (resortAt_modify hm time).trans ?_
    rw [List.eraseIdx_eq_take_drop_succ]
    exact addMarker_append hbefore hbehind
  have hget : ((changeTime index time).redone markers)[index]? = some (m.setTime time) := by
    rw [hredone, List.getElem?_append_right hlen.le, hlen, Nat.sub_self, List.getElem?_cons_zero]
  have hundone : (changeTime index time).undone markers =
      addMarker (((changeTime index time).redone markers).eraseIdx index)
        ((m.setTime time).setTime m.time) := by
    refine Eq.trans ?_ (resortAt_modify hget m.time)
    change resortAt (List.modify _ index fun m' =>
      m'.setTime ((markers[index]?.map TimelineMarker.time).getD (TimeRange.new 0 0))) index = _
    rw [hm]
    rfl
  rw [hundone, hredone, List.eraseIdx_append_of_length_le hlen.le, hlen, Nat.sub_self]
  rfl

theorem undone_changeTime_eq_iff (h : Sorted markers) {time : TimeRange}
    (hplace : (changeTime index time).KeepsPlace markers) :
    (changeTime index time).undone markers = markers ↔ ∀ m ∈ markers[index]?,
      ∀ b ∈ markers.drop (index + 1), b.time.in_ = m.time.in_ → b = m := by
  cases hm : markers[index]? with
  | none =>
    have hredone : (changeTime index time).redone markers = markers :=
      resortAt_modify_none hm time
    have hundone : (changeTime index time).undone markers = markers := by
      change resortAt (List.modify ((changeTime index time).redone markers) index _) index = _
      rw [hredone]
      exact resortAt_modify_none hm _
    simp [hundone]
  | some m =>
    rw [undone_changeTime hm hplace]
    have hsplit := split_at hm
    rw [hsplit] at h
    conv_lhs => rhs; rw [hsplit]
    rw [addMarker_eq_self_iff h]
    simp

/-- Changes of a marker's other fields are taken back at the same index. -/
theorem modify_modify_self {f g : TimelineMarker → TimelineMarker}
    (h : ∀ m, markers[index]? = some m → g (f m) = m) :
    (markers.modify index f).modify index g = markers := by
  refine List.ext_getElem? fun j => ?_
  rw [List.getElem?_modify, List.getElem?_modify]
  obtain rfl | hj := eq_or_ne index j
  · cases hm : markers[index]? with
    | none => rfl
    | some m => simp [h m hm]
  · simp [hj]

theorem undone_changeColor (markers : TimelineMarkerList) (index : ℕ) (newColor : ℤ) :
    (changeColor index newColor).undone markers = markers := by
  refine modify_modify_self fun m hm => ?_
  simp only [hm, Option.map_some, Option.getD_some]
  rfl

theorem undone_changeName (markers : TimelineMarkerList) (index : ℕ) (name : String) :
    (changeName index name).undone markers = markers := by
  refine modify_modify_self fun m hm => ?_
  simp only [hm, Option.map_some, Option.getD_some]
  rfl

/-- **Redo and undo of the commands that keep their marker's place.** -/
theorem undone_eq_iff {markers : TimelineMarkerList} (h : Sorted markers) (e : MarkerEdit) :
    Sorted (e.redone markers) ∧ Sorted (e.undone markers) ∧
      (e.KeepsPlace markers → (e.undone markers = markers ↔ e.Distinguished markers)) := by
  refine ⟨sorted_redone h e, sorted_undone h e, fun hplace => ?_⟩
  cases e with
  | add range name color => exact undone_add_eq_iff h range name color
  | remove index => exact undone_remove_eq_iff h index
  | changeColor index newColor => exact iff_of_true (undone_changeColor ..) trivial
  | changeName index name => exact iff_of_true (undone_changeName ..) trivial
  | changeTime index time => exact undone_changeTime_eq_iff h hplace

/-- A marker at `0` is moved to `1`, in front of the one at `3`, and back. -/
theorem undone_eq_iff_moved :
    (changeTime 0 ⟨1, 1⟩).undone [⟨0, ⟨0, 0⟩, "a"⟩, ⟨0, ⟨3, 3⟩, "b"⟩] =
      [⟨0, ⟨0, 0⟩, "a"⟩, ⟨0, ⟨3, 3⟩, "b"⟩] := by
  have hsorted : Sorted [⟨0, ⟨0, 0⟩, "a"⟩, ⟨0, ⟨3, 3⟩, "b"⟩] := by
    simp [Sorted]
  refine ((undone_eq_iff hsorted (changeTime 0 ⟨1, 1⟩)).2.2 ?_).2 ?_
  · simp [KeepsPlace]
  · simp [Distinguished]

/-- A marker added at the time of another one: taking it back removes the other one. -/
theorem undone_add_sameTime : Sorted [⟨0, ⟨0, 0⟩, "a"⟩] ∧
    (add ⟨0, 0⟩ "b" 0).undone [⟨0, ⟨0, 0⟩, "a"⟩] = [⟨0, ⟨0, 0⟩, "b"⟩] ∧
    (add ⟨0, 0⟩ "b" 0).undone [⟨0, ⟨0, 0⟩, "a"⟩] ≠ [⟨0, ⟨0, 0⟩, "a"⟩] := by
  have hsorted : Sorted [⟨0, ⟨0, 0⟩, "a"⟩] := List.pairwise_singleton ..
  refine ⟨hsorted, by rfl, fun h => ?_⟩
  have heq := (undone_add_eq_iff hsorted ⟨0, 0⟩ "b" 0).1 h _ List.mem_cons_self rfl
  exact absurd (congrArg TimelineMarker.name heq) (by decide)

end MarkerEdit

end Oak.Timeline
