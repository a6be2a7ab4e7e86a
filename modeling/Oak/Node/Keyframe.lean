import Oak.Node.Value

/-!
# Keyframes

`oak-node/src/keyframe.rs`: keyframe tracks with hold, linear and Bézier interpolation. The
interpolation of two neighbouring keys is arithmetic of 64-bit floats and a parameter here
(`Interpolate`); which two keys a time falls between, and what happens at and outside the keys, is
the track's.
-/

namespace Oak.Node

open Oak.Core

/-- `Interpolation`: how a key leads to the next one. -/
inductive Interpolation where
  | hold | linear | bezier
  deriving DecidableEq, Repr

/-- `Keyframe`. -/
structure Keyframe (F : Type*) where
  time : Rational
  value : NodeValue F
  interpolation : Interpolation
  bezierIn : F × F
  bezierOut : F × F
  deriving DecidableEq, Repr

/-- The value between two keys, strictly inside their times (`interpolate`). -/
class Interpolate (F : Type*) where
  interpolate : Keyframe F → Keyframe F → Rational → NodeValue F

/-- `KeyframeTrack`: the keys of one input element, sorted by time. -/
@[ext] structure KeyframeTrack (F : Type*) where
  keys : List (Keyframe F)
  sorted : keys.Pairwise fun k l => k.time < l.time

namespace KeyframeTrack

variable {F : Type*}

/-- The default track. -/
def empty : KeyframeTrack F := ⟨[], .nil⟩

/-- The list that `set_key` leaves: the binary search of the source finds the place of `key` in a
sorted list. -/
def setKeyList (key : Keyframe F) : List (Keyframe F) → List (Keyframe F)
  | [] => [key]
  | k :: ks =>
    if key.time < k.time then key :: k :: ks
    else if k.time = key.time then key :: ks
    else k :: setKeyList key ks

variable {ks : List (Keyframe F)}

theorem mem_setKeyList {key k : Keyframe F} (h : k ∈ setKeyList key ks) : k = key ∨ k ∈ ks := by
  induction ks with
  | nil => simpa [setKeyList] using h
  | cons l ks ih =>
    rw [setKeyList] at h
    split_ifs at h with hlt heq
    · simpa using h
    · rcases List.mem_cons.1 h with rfl | h
      · exact .inl rfl
      · exact .inr (List.mem_cons_of_mem l h)
    · rcases List.mem_cons.1 h with rfl | h
      · exact .inr List.mem_cons_self
      · exact (ih h).imp_right (List.mem_cons_of_mem l)

theorem sorted_setKeyList {key : Keyframe F} (hks : ks.Pairwise fun k l => k.time < l.time) :
    (setKeyList key ks).Pairwise fun k l => k.time < l.time := by
  induction ks with
  | nil => simp [setKeyList]
  | cons l ks ih =>
    obtain ⟨hl, hks⟩ := List.pairwise_cons.1 hks
    rw [setKeyList]
    split_ifs with hlt heq
    · refine List.pairwise_cons.2 ⟨fun k hk => ?_, List.pairwise_cons.2 ⟨hl, hks⟩⟩
      rcases List.mem_cons.1 hk with rfl | hk
      · exact hlt
      · exact hlt.trans (hl k hk)
    · exact List.pairwise_cons.2 ⟨fun k hk => heq ▸ hl k hk, hks⟩
    · refine List.pairwise_cons.2 ⟨fun k hk => ?_, ih hks⟩
      rcases mem_setKeyList hk with rfl | hk
      · exact lt_of_le_of_ne (not_lt.1 hlt) heq
      · exact hl k hk

/-- `set_key`: insert the key, or replace the one at its time. -/
def setKey (t : KeyframeTrack F) (key : Keyframe F) : KeyframeTrack F :=
  ⟨setKeyList key t.keys, sorted_setKeyList t.sorted⟩

/-- The outcome of the binary search in `value_at`. -/
inductive Bracket (F : Type*) where
  | found (before after : Keyframe F)
  | missing
  | outOfBounds

/-- The binary search of `value_at` for the keys around `time`. -/
def bracket (keys : List (Keyframe F)) (time : Rational) : ℕ → ℕ → ℕ → Bracket F
  | 0, _, _ => .missing
  | fuel + 1, low, high =>
    if high < low then .missing
    else
      let mid := low + (high - low) / 2
      match keys[mid]?, keys[mid + 1]? with
      | some midKey, some nextKey =>
        if midKey.time ≤ time && time < nextKey.time then .found midKey nextKey
        else if midKey.time < time then bracket keys time fuel (mid + 1) high
        else if mid = 0 then .outOfBounds
        else bracket keys time fuel low (mid - 1)
      | _, _ => .outOfBounds

/-- `value_at`: the value at `time`, unless there are no keys. -/
def valueAt [Interpolate F] (t : KeyframeTrack F) (time : Rational) : Option (NodeValue F) :=
  match t.keys.head?, t.keys.getLast? with
  | some first, some last =>
    if time ≤ first.time then some first.value
    else if last.time ≤ time then some last.value
    else
      match bracket t.keys time t.keys.length 0 (t.keys.length - 1) with
      | .found before after =>
        if before.time = time then some before.value
        else if !before.value.canInterpolate || before.interpolation = .hold then some before.value
        else if after.time = time then some after.value
        else if before.time < time && time < after.time then
          some (Interpolate.interpolate before after time)
        else none
      | _ => none
  | _, _ => none

end KeyframeTrack

end Oak.Node
