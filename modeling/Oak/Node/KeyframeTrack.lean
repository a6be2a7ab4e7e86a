import Oak.Node.Keyframe
import Mathlib.Tactic.Linarith

/-!
# Edits and reads of a keyframe track

The edits of `KeyframeTrack` in `oak-node/src/keyframe.rs` on the plain list of keys that the source
keeps, and what `value_at` returns on a track that they leave.

* `searchTime` : what `binary_search_by` finds in a sorted list.
* `setKeyAt`, `removeKeyAt`, `setKeyValueAt` : `set_key`, `remove_key` and `set_key_value`.
* `KeyframeTrack.removeKey`, `setKeyValue` : the edits of a track, which keep it sorted.
* `between` : the value strictly between two neighbouring keys.

## Main results

* `apply_eq` : on a sorted list an edit is the edit of the track.
* `bracket_found` : the search of `value_at` ends at the neighbouring keys, and within the list.
* `keyframes_run` : after any edits the keys are sorted, and `value_at` reads them as it should.
-/

namespace Oak.Node

open Oak.Core

variable {F : Type*}

/-- The keys of a track in order. -/
abbrev SortedKeys (keys : List (Keyframe F)) : Prop := keys.Pairwise fun k l => k.time < l.time

/-! ### Edits of the list -/

/-- `binary_search_by` on a sorted list: the place of the key at `time`, or else the place where it
belongs. -/
def searchTime (keys : List (Keyframe F)) (time : Rational) : Except ℕ ℕ :=
  let i := keys.findIdx fun k => time ≤ k.time
  match keys[i]? with
  | some k => if k.time = time then .ok i else .error i
  | none => .error i

/-- `set_key`. -/
def setKeyAt (key : Keyframe F) (keys : List (Keyframe F)) : List (Keyframe F) :=
  match searchTime keys key.time with
  | .ok i => keys.set i key
  | .error i => keys.insertIdx i key

/-- `remove_key`, which also says whether there was one. -/
def removeKeyAt (time : Rational) (keys : List (Keyframe F)) : List (Keyframe F) × Bool :=
  match searchTime keys time with
  | .ok i => (keys.eraseIdx i, true)
  | .error _ => (keys, false)

/-- `set_key_value`: the value of the first key at `time` changes. -/
def setKeyValueAt (time : Rational) (value : NodeValue F) (keys : List (Keyframe F)) :
    List (Keyframe F) × Bool :=
  match keys.findIdx? fun k => k.time = time with
  | some i => (keys.modify i fun k => { k with value := value }, true)
  | none => (keys, false)

/-- The edits of a track. -/
inductive KeyframeEdit (F : Type*) where
  | setKey (key : Keyframe F)
  | removeKey (time : Rational)
  | setKeyValue (time : Rational) (value : NodeValue F)

/-- One edit of the list. -/
def KeyframeEdit.apply (keys : List (Keyframe F)) : KeyframeEdit F → List (Keyframe F)
  | .setKey key => setKeyAt key keys
  | .removeKey time => (removeKeyAt time keys).1
  | .setKeyValue time value => (setKeyValueAt time value keys).1

/-! ### Edits of a track -/

namespace KeyframeTrack

/-- `remove_key`. -/
def removeKey (t : KeyframeTrack F) (time : Rational) : KeyframeTrack F :=
  ⟨t.keys.filter fun k => k.time ≠ time, t.sorted.filter _⟩

/-- The key at `time` gets a value. -/
def withValueAt (time : Rational) (value : NodeValue F) (k : Keyframe F) : Keyframe F :=
  if k.time = time then { k with value := value } else k

@[simp] theorem time_withValueAt (time : Rational) (value : NodeValue F) (k : Keyframe F) :
    (withValueAt time value k).time = k.time := by
  rw [withValueAt]
  split_ifs <;> rfl

/-- `set_key_value`. -/
def setKeyValue (t : KeyframeTrack F) (time : Rational) (value : NodeValue F) : KeyframeTrack F :=
  ⟨t.keys.map (withValueAt time value), by
    rw [List.pairwise_map]
    simpa only [time_withValueAt] using t.sorted⟩

end KeyframeTrack

/-- One edit of a track. -/
def KeyframeEdit.applyTrack (t : KeyframeTrack F) : KeyframeEdit F → KeyframeTrack F
  | .setKey key => t.setKey key
  | .removeKey time => t.removeKey time
  | .setKeyValue time value => t.setKeyValue time value

/-! ### The two agree -/

variable {front back : List (Keyframe F)}

/-- The place that the search finds in a sorted list is behind the keys before `time`. -/
theorem searchTime_append {time : Rational} (hfront : ∀ k ∈ front, k.time < time)
    (hback : ∀ k ∈ back, time ≤ k.time) :
    searchTime (front ++ back) time =
      match back.head? with
      | some k => if k.time = time then .ok front.length else .error front.length
      | none => .error front.length := by
  have hidx : (front ++ back).findIdx (fun k => time ≤ k.time) = front.length := by
    rw [List.findIdx_append]
    have hnone : front.findIdx (fun k => time ≤ k.time) = front.length :=
      List.findIdx_eq_length.2 fun k hk => by simpa using hfront k hk
    rw [hnone, if_neg (lt_irrefl _)]
    cases back with
    | nil => simp
    | cons k back =>
      rw [List.findIdx_cons, decide_eq_true (hback k List.mem_cons_self)]
      simp
  rw [searchTime]
  simp only [hidx, List.getElem?_append_right le_rfl, Nat.sub_self, List.head?_eq_getElem?]

theorem exists_cut {keys : List (Keyframe F)} (h : SortedKeys keys) (time : Rational) :
    ∃ front back, keys = front ++ back ∧ (∀ k ∈ front, k.time < time) ∧
      ∀ k ∈ back, time ≤ k.time := by
  induction keys with
  | nil => exact ⟨[], [], rfl, by simp, by simp⟩
  | cons k keys ih =>
    obtain ⟨hk, hrest⟩ := List.pairwise_cons.1 h
    obtain hlt | hle := lt_or_ge k.time time
    · obtain ⟨front, back, rfl, hfront, hback⟩ := ih hrest
      exact ⟨k :: front, back, rfl, List.forall_mem_cons.2 ⟨hlt, hfront⟩, hback⟩
    · exact ⟨[], k :: keys, rfl, by simp, List.forall_mem_cons.2
        ⟨hle, fun l hl => hle.trans (hk l hl).le⟩⟩

/-- What the search finds in a sorted list. -/
inductive Searched (keys : List (Keyframe F)) (time : Rational) : Except ℕ ℕ → Prop
  | found (front : List (Keyframe F)) (k : Keyframe F) (back : List (Keyframe F))
      (hkeys : keys = front ++ k :: back) (hk : k.time = time)
      (hfront : ∀ l ∈ front, l.time < time) (hback : ∀ l ∈ back, time < l.time) :
      Searched keys time (.ok front.length)
  | missing (front back : List (Keyframe F)) (hkeys : keys = front ++ back)
      (hfront : ∀ l ∈ front, l.time < time) (hback : ∀ l ∈ back, time < l.time) :
      Searched keys time (.error front.length)

theorem searched_searchTime {keys : List (Keyframe F)} (h : SortedKeys keys) (time : Rational) :
    Searched keys time (searchTime keys time) := by
  obtain ⟨front, back, rfl, hfront, hback⟩ := exists_cut h time
  rw [searchTime_append hfront hback]
  cases back with
  | nil => exact .missing front [] rfl hfront (by simp)
  | cons k back =>
    obtain ⟨hk, -⟩ := List.pairwise_cons.1 (List.pairwise_append.1 h).2.1
    have hle := hback k List.mem_cons_self
    rw [List.head?_cons]
    dsimp only
    split_ifs with heq
    · exact .found front k back rfl heq hfront fun l hl => hle.trans_lt (hk l hl)
    · have hlt := lt_of_le_of_ne hle (Ne.symm heq)
      exact .missing front (k :: back) rfl hfront
        (List.forall_mem_cons.2 ⟨hlt, fun l hl => hlt.trans (hk l hl)⟩)

theorem setKeyList_append {key : Keyframe F} (hfront : ∀ k ∈ front, k.time < key.time) :
    KeyframeTrack.setKeyList key (front ++ back) =
      front ++ KeyframeTrack.setKeyList key back := by
  induction front with
  | nil => rfl
  | cons k front ih =>
    obtain ⟨hk, hrest⟩ := List.forall_mem_cons.1 hfront
    rw [List.cons_append, KeyframeTrack.setKeyList, if_neg hk.not_gt, if_neg hk.ne, ih hrest,
      List.cons_append]

theorem setKeyList_of_lt {back : List (Keyframe F)} {key : Keyframe F}
    (hback : ∀ k ∈ back, key.time < k.time) :
    KeyframeTrack.setKeyList key back = key :: back := by
  cases back with
  | nil => rfl
  | cons k back => exact if_pos (hback k List.mem_cons_self)

section

variable {keys : List (Keyframe F)}

theorem setKeyAt_eq (h : SortedKeys keys) (key : Keyframe F) :
    setKeyAt key keys = KeyframeTrack.setKeyList key keys := by
  have hsearched := searched_searchTime h key.time
  rw [setKeyAt]
  generalize searchTime keys key.time = found at hsearched ⊢
  cases hsearched with
  | found front k back hkeys hk hfront hback =>
    subst hkeys
    have hcons : KeyframeTrack.setKeyList key (k :: back) = key :: back := by
      rw [KeyframeTrack.setKeyList, if_neg hk.not_gt, if_pos hk]
    rw [setKeyList_append hfront, hcons]
    simp
  | missing front back hkeys hfront hback =>
    subst hkeys
    rw [setKeyList_append hfront, setKeyList_of_lt hback]
    clear h
    dsimp only
    induction front with
    | nil => simp
    | cons l front ih => simp [ih fun k hk => hfront k (List.mem_cons_of_mem l hk)]

theorem filter_ne_of_ne {time : Rational} (h : ∀ k ∈ keys, k.time ≠ time) :
    keys.filter (fun k => k.time ≠ time) = keys :=
  List.filter_eq_self.2 fun k hk => decide_eq_true (h k hk)

theorem removeKeyAt_eq (h : SortedKeys keys) (time : Rational) :
    (removeKeyAt time keys).1 = keys.filter fun k => k.time ≠ time := by
  have hsearched := searched_searchTime h time
  rw [removeKeyAt]
  generalize searchTime keys time = found at hsearched ⊢
  cases hsearched with
  | found front k back hkeys hk hfront hback =>
    subst hkeys
    rw [List.filter_append, List.filter_cons_of_neg (by simpa using hk),
      filter_ne_of_ne fun l hl => (hfront l hl).ne, filter_ne_of_ne fun l hl => (hback l hl).ne']
    dsimp only
    rw [List.eraseIdx_append_of_length_le le_rfl, Nat.sub_self, List.eraseIdx_cons_zero]
  | missing front back hkeys hfront hback =>
    subst hkeys
    rw [List.filter_append, filter_ne_of_ne fun l hl => (hfront l hl).ne,
      filter_ne_of_ne fun l hl => (hback l hl).ne']

/-- No other key has the time of the first one that has it. -/
theorem setKeyValueAt_eq (h : SortedKeys keys) (time : Rational) (value : NodeValue F) :
    (setKeyValueAt time value keys).1 = keys.map (KeyframeTrack.withValueAt time value) := by
  induction keys with
  | nil => rfl
  | cons k keys ih =>
    obtain ⟨hk, hrest⟩ := List.pairwise_cons.1 h
    rw [setKeyValueAt, List.findIdx?_cons, List.map_cons, KeyframeTrack.withValueAt]
    by_cases heq : k.time = time
    · have hsame : keys.map (KeyframeTrack.withValueAt time value) = keys := by
        refine (List.map_congr_left fun l hl => ?_).trans (List.map_id _)
        exact if_neg fun hl' => (hk l hl).ne (heq.trans hl'.symm)
      simp [heq, hsame]
    · have hih := ih hrest
      rw [setKeyValueAt] at hih
      rw [if_neg heq, decide_eq_false heq]
      cases hfind : keys.findIdx? fun k => k.time = time with
      | none =>
        rw [hfind] at hih
        simp [← hih]
      | some i =>
        rw [hfind] at hih
        simp [← hih]

end

/-- **On a sorted list an edit is the edit of the track.** -/
theorem KeyframeEdit.apply_eq (t : KeyframeTrack F) (e : KeyframeEdit F) :
    e.apply t.keys = (e.applyTrack t).keys := by
  cases e with
  | setKey key => exact setKeyAt_eq t.sorted key
  | removeKey time => exact removeKeyAt_eq t.sorted time
  | setKeyValue time value => exact setKeyValueAt_eq t.sorted time value

/-! ### The search of a read -/

namespace KeyframeTrack

section Bracket

variable {keys : List (Keyframe F)} {time : Rational}

theorem lt_of_getElem? (h : SortedKeys keys) {i j : ℕ} {k l : Keyframe F} (hij : i < j)
    (hk : keys[i]? = some k) (hl : keys[j]? = some l) : k.time < l.time := by
  obtain ⟨hi, rfl⟩ := List.getElem?_eq_some_iff.1 hk
  obtain ⟨hj, rfl⟩ := List.getElem?_eq_some_iff.1 hl
  exact List.pairwise_iff_getElem.1 h i j hi hj hij

/-- **The search ends at two neighbouring keys around the time.** The key at `low` is not behind the
time, and the keys behind `high` and the last key are. -/
theorem bracket_found (h : SortedKeys keys) {fuel low high : ℕ} (hwindow : low ≤ high)
    (hhigh : high < keys.length) (hfuel : high - low < fuel)
    (hlow : ∀ k, keys[low]? = some k → k.time ≤ time)
    (hbehind : ∀ j k, high < j → keys[j]? = some k → time < k.time)
    (hlast : ∀ k, keys[keys.length - 1]? = some k → time < k.time) :
    ∃ i k l, bracket keys time fuel low high = .found k l ∧ keys[i]? = some k ∧
      keys[i + 1]? = some l ∧ k.time ≤ time ∧ time < l.time := by
  induction fuel generalizing low high with
  | zero => omega
  | succ fuel ih =>
    obtain ⟨mid, hmid⟩ : ∃ mid, mid = low + (high - low) / 2 := ⟨_, rfl⟩
    have hmidlow : low ≤ mid := by omega
    have hmidhigh : mid ≤ high := by omega
    have hnext : mid + 1 < keys.length := by
      by_contra hend
      have hsame : low = keys.length - 1 := by omega
      have hkey : keys[low]? = some keys[low] := List.getElem?_eq_getElem (by omega)
      exact absurd (hlow _ hkey) (not_le.2 (hlast _ (hsame ▸ hkey)))
    have hk : keys[mid]? = some keys[mid] := List.getElem?_eq_getElem (by omega)
    have hl : keys[mid + 1]? = some keys[mid + 1] := List.getElem?_eq_getElem hnext
    rw [bracket, if_neg (not_lt.2 hwindow)]
    simp only [← hmid, hk, hl, Bool.and_eq_true, decide_eq_true_eq]
    split_ifs with hfound hbefore hzero
    · exact ⟨mid, _, _, rfl, hk, hl, hfound.1, hfound.2⟩
    · -- the pair lies behind the middle key
      have hle : keys[mid + 1].time ≤ time := by
        by_contra hlt
        exact hfound ⟨hbefore.le, not_le.1 hlt⟩
      have hinside : mid + 1 ≤ high := by
        by_contra hout
        exact absurd (hbehind _ _ (by omega) hl) (not_lt.2 hle)
      refine ih hinside hhigh (by omega) (fun k hk' => ?_) hbehind
      rw [hl, Option.some.injEq] at hk'
      exact hk' ▸ hle
    all_goals
      -- the middle key lies behind the time
      have hlt : time < keys[mid].time := by
        refine lt_of_le_of_ne (not_lt.1 hbefore) fun heq => hfound ⟨heq.ge, ?_⟩
        rw [heq]
        exact lt_of_getElem? h (Nat.lt_succ_self mid) hk hl
      have hne : low ≠ mid := by
        rintro rfl
        exact absurd (hlow _ hk) (not_le.2 hlt)
    · omega
    · refine ih (by omega) (by omega) (by omega) hlow fun j k hj hk' => ?_
      obtain rfl | hmidj := Nat.eq_or_lt_of_le (show mid ≤ j by omega)
      · rw [hk, Option.some.injEq] at hk'
        exact hk' ▸ hlt
      · exact hlt.trans (lt_of_getElem? h hmidj hk hk')

end Bracket

/-! ### What is read -/

/-- Two neighbouring keys. -/
def Adjacent (keys : List (Keyframe F)) (k l : Keyframe F) : Prop :=
  ∃ i, keys[i]? = some k ∧ keys[i + 1]? = some l

/-- The value strictly between two neighbouring keys: a key that holds, or whose value cannot be
interpolated, keeps its value up to the next one. -/
def between [Interpolate F] (k l : Keyframe F) (time : Rational) : NodeValue F :=
  if !k.value.canInterpolate || k.interpolation = .hold then k.value
  else Interpolate.interpolate k l time

/-- What `value_at` is meant to return: a key's value at its time, the first or the last value
outside the keys, and otherwise what lies between the one pair of neighbouring keys around the time,
which its search finds within the list. -/
structure ReadsKeys [Interpolate F] (t : KeyframeTrack F) : Prop where
  none_iff : ∀ time, t.valueAt time = none ↔ t.keys = []
  key : ∀ k ∈ t.keys, t.valueAt k.time = some k.value
  before : ∀ k time, t.keys.head? = some k → time < k.time → t.valueAt time = some k.value
  after : ∀ k time, t.keys.getLast? = some k → k.time < time → t.valueAt time = some k.value
  between : ∀ k l time, Adjacent t.keys k l → k.time < time → time < l.time →
    t.valueAt time = some (between k l time)
  bracket : ∀ first last time, t.keys.head? = some first → t.keys.getLast? = some last →
    first.time < time → time < last.time → ∃ k l,
      bracket t.keys time t.keys.length 0 (t.keys.length - 1) = .found k l ∧
        ∀ k' l', Adjacent t.keys k' l' ∧ k'.time ≤ time ∧ time < l'.time ↔ k' = k ∧ l' = l

section Read

variable {keys : List (Keyframe F)} {time : Rational} {k l k' l' first last : Keyframe F}

theorem le_of_getElem? (h : SortedKeys keys) {i j : ℕ} (hij : i ≤ j) (hk : keys[i]? = some k)
    (hl : keys[j]? = some l) : k.time ≤ l.time := by
  obtain rfl | hlt := Nat.eq_or_lt_of_le hij
  · rw [hk, Option.some.injEq] at hl
    rw [hl]
  · exact (lt_of_getElem? h hlt hk hl).le

theorem eq_of_around (h : SortedKeys keys) (hkl : Adjacent keys k l) (hk : k.time ≤ time)
    (hl : time < l.time) (hkl' : Adjacent keys k' l') (hk' : k'.time ≤ time)
    (hl' : time < l'.time) : k' = k ∧ l' = l := by
  obtain ⟨i, hik, hil⟩ := hkl
  obtain ⟨j, hjk, hjl⟩ := hkl'
  obtain hlt | heq | hlt := lt_trichotomy i j
  · exact absurd ((le_of_getElem? h hlt hil hjk).trans hk') (not_le.2 hl)
  · subst heq
    rw [hik, Option.some.injEq] at hjk
    rw [hil, Option.some.injEq] at hjl
    exact ⟨hjk.symm, hjl.symm⟩
  · exact absurd ((le_of_getElem? h hlt hjl hik).trans hk) (not_le.2 hl')

/-- A key at a time around which two neighbouring keys lie is the first of them. -/
theorem eq_of_time_eq (h : SortedKeys keys) (hkl : Adjacent keys k l) (hk : k.time ≤ k'.time)
    (hl : k'.time < l.time) (hmem : k' ∈ keys) : k' = k := by
  obtain ⟨i, hik, hil⟩ := hkl
  obtain ⟨j, hj⟩ := List.mem_iff_getElem?.1 hmem
  obtain hlt | heq | hlt := lt_trichotomy i j
  · exact absurd (le_of_getElem? h hlt hil hj) (not_le.2 hl)
  · subst heq
    rw [hik, Option.some.injEq] at hj
    exact hj.symm
  · exact absurd hk (not_le.2 (lt_of_getElem? h hlt hj hik))

theorem exists_ends (hne : keys ≠ []) :
    ∃ first last, keys.head? = some first ∧ keys.getLast? = some last :=
  ⟨keys.head hne, keys.getLast hne, List.head?_eq_some_head hne, List.getLast?_eq_some_getLast hne⟩

theorem time_head_le (h : SortedKeys keys) (hfirst : keys.head? = some first) (hk : k ∈ keys) :
    first.time ≤ k.time := by
  rw [List.head?_eq_getElem?] at hfirst
  obtain ⟨i, hi⟩ := List.mem_iff_getElem?.1 hk
  exact le_of_getElem? h (Nat.zero_le i) hfirst hi

theorem time_le_getLast (h : SortedKeys keys) (hlast : keys.getLast? = some last) (hk : k ∈ keys) :
    k.time ≤ last.time := by
  rw [List.getLast?_eq_getElem?] at hlast
  obtain ⟨i, hi⟩ := List.mem_iff_getElem?.1 hk
  have hlt := (List.getElem?_eq_some_iff.1 hi).1
  exact le_of_getElem? h (by omega) hi hlast

theorem eq_of_mem (h : SortedKeys keys) (hk : k ∈ keys) (hl : l ∈ keys) (heq : k.time = l.time) :
    k = l := by
  obtain ⟨i, hi⟩ := List.mem_iff_getElem?.1 hk
  obtain ⟨j, hj⟩ := List.mem_iff_getElem?.1 hl
  obtain hlt | rfl | hlt := lt_trichotomy i j
  · exact absurd heq (lt_of_getElem? h hlt hi hj).ne
  · rw [hi, Option.some.injEq] at hj
    exact hj
  · exact absurd heq (lt_of_getElem? h hlt hj hi).ne'

variable [Interpolate F] {t : KeyframeTrack F}

section

variable (hfirst : t.keys.head? = some first) (hlast : t.keys.getLast? = some last)

include hfirst hlast

theorem valueAt_of_le (h : time ≤ first.time) : t.valueAt time = some first.value := by
  simp only [valueAt, hfirst, hlast, if_pos h]

theorem valueAt_of_ge (h : first.time < time) (hge : last.time ≤ time) :
    t.valueAt time = some last.value := by
  simp only [valueAt, hfirst, hlast, if_neg (not_le.2 h), if_pos hge]

theorem valueAt_of_inside (h : first.time < time) (hlt : time < last.time) :
    ∃ k l, bracket t.keys time t.keys.length 0 (t.keys.length - 1) = .found k l ∧
      Adjacent t.keys k l ∧ k.time ≤ time ∧ time < l.time ∧
      t.valueAt time = some (if k.time = time then k.value else between k l time) := by
  have hpos : 0 < t.keys.length := List.length_pos_of_ne_nil fun hnil => by simp [hnil] at hfirst
  have hlow : ∀ k, t.keys[0]? = some k → k.time ≤ time := by
    intro k hk
    rw [← List.head?_eq_getElem?, hfirst, Option.some.injEq] at hk
    exact hk ▸ h.le
  have hhigh : ∀ k, t.keys[t.keys.length - 1]? = some k → time < k.time := by
    intro k hk
    rw [← List.getLast?_eq_getElem?, hlast, Option.some.injEq] at hk
    exact hk ▸ hlt
  have hbehind : ∀ j k, t.keys.length - 1 < j → t.keys[j]? = some k → time < k.time :=
    fun j k hj hk => absurd (List.getElem?_eq_some_iff.1 hk).1 (by omega)
  have hfuel : t.keys.length - 1 - 0 < t.keys.length := by omega
  obtain ⟨i, k, l, hbracket, hk, hl, hle, hlt'⟩ :=
    bracket_found t.sorted (Nat.zero_le _) (by omega) hfuel hlow hbehind hhigh
  refine ⟨k, l, hbracket, ⟨i, hk, hl⟩, hle, hlt', ?_⟩
  simp only [valueAt, hfirst, hlast, if_neg (not_le.2 h), if_neg (not_le.2 hlt), hbracket]
  split_ifs with heq hhold hafter hbetween
  · rfl
  · rw [between, if_pos hhold]
  · exact absurd hafter hlt'.ne'
  · rw [between, if_neg hhold]
  · exact absurd (by simp [lt_of_le_of_ne hle heq, hlt']) hbetween

end

theorem valueAt_key (hk : k ∈ t.keys) : t.valueAt k.time = some k.value := by
  have hne : t.keys ≠ [] := List.ne_nil_of_mem hk
  obtain ⟨first, last, hfirst, hlast⟩ := exists_ends hne
  have hle := time_head_le t.sorted hfirst hk
  have hge := time_le_getLast t.sorted hlast hk
  obtain heq | hlt := hle.eq_or_lt
  · rw [valueAt_of_le hfirst hlast heq.ge,
      eq_of_mem t.sorted (List.mem_of_head? hfirst) hk heq]
  · obtain heq | hlt' := hge.eq_or_lt
    · rw [valueAt_of_ge hfirst hlast hlt heq.ge,
        eq_of_mem t.sorted (List.mem_of_getLast? hlast) hk heq.symm]
    · obtain ⟨b, a, -, hadj, hb, ha, hvalue⟩ := valueAt_of_inside hfirst hlast hlt hlt'
      obtain rfl := eq_of_time_eq t.sorted hadj hb ha hk
      rw [hvalue, if_pos rfl]

/-- Between two neighbouring keys their values are interpolated. -/
theorem valueAt_between (hkl : Adjacent t.keys k l) (hk : k.time < time) (hl : time < l.time) :
    t.valueAt time = some (between k l time) := by
  have hkmem : k ∈ t.keys := by
    obtain ⟨i, hi, -⟩ := hkl
    exact List.mem_of_getElem? hi
  have hlmem : l ∈ t.keys := by
    obtain ⟨i, -, hi⟩ := hkl
    exact List.mem_of_getElem? hi
  have hne : t.keys ≠ [] := List.ne_nil_of_mem hkmem
  obtain ⟨first, last, hfirst, hlast⟩ := exists_ends hne
  obtain ⟨b, a, -, hadj, hb, ha, hvalue⟩ := valueAt_of_inside hfirst hlast
    ((time_head_le t.sorted hfirst hkmem).trans_lt hk)
    (hl.trans_le (time_le_getLast t.sorted hlast hlmem))
  obtain ⟨rfl, rfl⟩ := eq_of_around t.sorted hadj hb ha hkl hk.le hl
  rw [hvalue, if_neg hk.ne]

theorem valueAt_eq_none_iff (t : KeyframeTrack F) (time : Rational) :
    t.valueAt time = none ↔ t.keys = [] := by
  constructor
  · intro hnone
    by_contra hne
    obtain ⟨first, last, hfirst, hlast⟩ := exists_ends hne
    obtain hle | hlt := le_or_gt time first.time
    · rw [valueAt_of_le hfirst hlast hle] at hnone
      exact absurd hnone (by simp)
    · obtain hge | hlt' := le_or_gt last.time time
      · rw [valueAt_of_ge hfirst hlast hlt hge] at hnone
        exact absurd hnone (by simp)
      · obtain ⟨b, a, -, -, -, -, hvalue⟩ := valueAt_of_inside hfirst hlast hlt hlt'
        rw [hvalue] at hnone
        exact absurd hnone (by simp)
  · intro hnil
    simp [valueAt, hnil]

theorem readsKeys (t : KeyframeTrack F) : t.ReadsKeys where
  none_iff := t.valueAt_eq_none_iff
  key _ hk := valueAt_key hk
  before k time hfirst hlt := by
    obtain ⟨-, last, -, hlast⟩ := exists_ends (List.ne_nil_of_mem (List.mem_of_head? hfirst))
    exact valueAt_of_le hfirst hlast hlt.le
  after k time hlast hlt := by
    have hmem := List.mem_of_getLast? hlast
    obtain ⟨first, -, hfirst, -⟩ := exists_ends (List.ne_nil_of_mem hmem)
    exact valueAt_of_ge hfirst hlast ((time_head_le t.sorted hfirst hmem).trans_lt hlt) hlt.le
  between _ _ _ hkl hk hl := valueAt_between hkl hk hl
  bracket first last time hfirst hlast hlt hlt' := by
    obtain ⟨k, l, hbracket, hadj, hk, hl, -⟩ := valueAt_of_inside hfirst hlast hlt hlt'
    refine ⟨k, l, hbracket, fun k' l' => ⟨fun ⟨hadj', hk', hl'⟩ => ?_, ?_⟩⟩
    · exact eq_of_around t.sorted hadj hk hl hadj' hk' hl'
    · rintro ⟨rfl, rfl⟩
      exact ⟨hadj, hk, hl⟩

end Read

end KeyframeTrack

/-- **Runs of edits.** From an empty track any edits leave the keys in order, and the track is read
as it should be. -/
theorem keyframes_run [Interpolate F] (edits : List (KeyframeEdit F)) :
    ∃ h : SortedKeys (edits.foldl KeyframeEdit.apply []),
      (⟨edits.foldl KeyframeEdit.apply [], h⟩ : KeyframeTrack F).ReadsKeys := by
  have hrun : ∀ (t : KeyframeTrack F),
      edits.foldl KeyframeEdit.apply t.keys = (edits.foldl KeyframeEdit.applyTrack t).keys := by
    induction edits with
    | nil => exact fun _ => rfl
    | cons e edits ih =>
      intro t
      rw [List.foldl_cons, List.foldl_cons, e.apply_eq, ih]
  have hkeys : edits.foldl KeyframeEdit.apply [] =
      (edits.foldl KeyframeEdit.applyTrack (.empty : KeyframeTrack F)).keys := hrun .empty
  rw [hkeys]
  exact ⟨(edits.foldl KeyframeEdit.applyTrack .empty).sorted, KeyframeTrack.readsKeys _⟩

end Oak.Node
