import Oak.Node.GraphRun
import Oak.Lib.Shift

/-!
# Shifting the elements of an array input

`Graph::input_array_insert` and `Graph::input_array_remove` of `oak-node/src/graph.rs`, with the
half of `oak-node/src/node.rs` that shifts values and keyframe tracks: the values, the tracks and
the connections of an element live in three stores, which are shifted one after the other.

* `NodeCore.ActsOn` is one step on the elements of an input; the loops of the source are chains of
  such steps, and shift the entries of both stores as `shiftUp` and `shiftDown` do.
* `Graph.ElementsMoved` says of a graph before and after that all three stores were relocated
  together and nothing else changed.
* `Graph.LosesNothing` is that an insertion and a removal relocate the elements, and that a removal
  undoes an insertion.

## Main results

* `Graph.losesNothing_iff`: exactly when the operations lose nothing. Connections are rewritten
  one by one in the order of the edges, so an insertion loses one whenever a node feeds two
  neighbouring elements that move.
* `Graph.insert_loses_angle`: such a graph.
-/

namespace Oak.Node

open Oak.Core Oak.Lib

variable {F β : Type*} {ks : List (String × ℤ × KeyframeTrack F)} {σ : ℤ → Option ℤ} {size : ℕ}

variable {inputs : List (Input F)}

namespace NodeCore

variable {core core' core'' : NodeCore F} {id i : String}

/-! ### Values and tracks by element -/

/-- The values set for the elements of an input. -/
def values (core : NodeCore F) (id : String) : ℤ → Option (NodeValue F) :=
  fun e => core.standardValues (id, e)

/-- The tracks of the elements of an input. -/
def tracks (core : NodeCore F) (id : String) : ℤ → Option (KeyframeTrack F) :=
  core.keyframeTrack id

variable (keyframes : List (String × ℤ × KeyframeTrack F))

/-- Input and element of the tracks. -/
def trackKeys : List (String × ℤ) :=
  keyframes.map fun k => (k.1, k.2.1)

private def trackAt (id : String) (e : ℤ) : Option (KeyframeTrack F) :=
  (keyframes.find? fun k => k.1 = id && k.2.1 = e).map fun k => k.2.2

private theorem trackAt_cons (k : String × ℤ × KeyframeTrack F)
    (ks : List (String × ℤ × KeyframeTrack F)) (id : String) (e : ℤ) :
    trackAt (k :: ks) id e = if k.1 = id ∧ k.2.1 = e then some k.2.2 else trackAt ks id e := by
  simp only [trackAt, List.find?_cons]
  by_cases hk : k.1 = id ∧ k.2.1 = e
  · simp [hk]
  · rw [if_neg hk, show (decide (k.1 = id) && decide (k.2.1 = e)) = false by simpa using hk]

private theorem trackAt_setTrack (id : String) (e : ℤ) (track : KeyframeTrack F)
    (ks : List (String × ℤ × KeyframeTrack F)) (i : String) (x : ℤ) :
    trackAt (setTrack id e track ks) i x =
      if id = i ∧ e = x then some track else trackAt ks i x := by
  induction ks with
  | nil => rw [setTrack, trackAt_cons]
  | cons k ks ih =>
    rw [setTrack]
    by_cases hk : k.1 = id ∧ k.2.1 = e
    · rw [if_pos (by simpa using hk), trackAt_cons, trackAt_cons, hk.1, hk.2]
      split_ifs <;> rfl
    · rw [if_neg (by simpa using hk), trackAt_cons, trackAt_cons, ih]
      by_cases hx : k.1 = i ∧ k.2.1 = x
      · rw [if_pos hx, if_pos hx, if_neg]
        rintro ⟨rfl, rfl⟩
        exact hk hx
      · rw [if_neg hx, if_neg hx]

private theorem trackAt_filter (id : String) (e : ℤ) (ks : List (String × ℤ × KeyframeTrack F))
    (i : String) (x : ℤ) :
    trackAt (ks.filter fun k => !(k.1 = id && k.2.1 = e)) i x =
      if id = i ∧ e = x then none else trackAt ks i x := by
  induction ks with
  | nil => simp [trackAt]
  | cons k ks ih =>
    by_cases hk : k.1 = id ∧ k.2.1 = e
    · rw [List.filter_cons_of_neg (by simpa using hk), ih, trackAt_cons, hk.1, hk.2]
      split_ifs <;> rfl
    · rw [List.filter_cons_of_pos (by simpa [← not_and_or] using hk), trackAt_cons, trackAt_cons,
        ih]
      by_cases hx : k.1 = i ∧ k.2.1 = x
      · rw [if_pos hx, if_pos hx, if_neg]
        rintro ⟨rfl, rfl⟩
        exact hk hx
      · rw [if_neg hx, if_neg hx]

private theorem eraseP_eq_filter (hks : (trackKeys ks).Nodup) (id : String) (e : ℤ) :
    (ks.eraseP fun k => k.1 = id && k.2.1 = e) = ks.filter fun k => !(k.1 = id && k.2.1 = e) := by
  induction ks with
  | nil => rfl
  | cons k ks ih =>
    rw [trackKeys, List.map_cons, List.nodup_cons] at hks
    by_cases hk : k.1 = id ∧ k.2.1 = e
    · rw [List.eraseP_cons_of_pos (by simpa using hk), List.filter_cons_of_neg (by simpa using hk)]
      refine (List.filter_eq_self.2 fun l hl => ?_).symm
      by_contra hkey
      obtain ⟨hid, he⟩ : l.1 = id ∧ l.2.1 = e := by simpa using hkey
      exact hks.1 (List.mem_map.2 ⟨l, hl, by rw [hid, he, hk.1, hk.2]⟩)
    · rw [List.eraseP_cons_of_neg (by simpa using hk),
        List.filter_cons_of_pos (by simpa [← not_and_or] using hk), ih hks.2]

private theorem trackKeys_setTrack (id : String) (e : ℤ) (track : KeyframeTrack F)
    (ks : List (String × ℤ × KeyframeTrack F)) : trackKeys (setTrack id e track ks) =
      if (id, e) ∈ trackKeys ks then trackKeys ks else trackKeys ks ++ [(id, e)] := by
  induction ks with
  | nil => rfl
  | cons k ks ih =>
    rw [setTrack]
    by_cases hk : k.1 = id ∧ k.2.1 = e
    · rw [if_pos (by simpa using hk), if_pos]
      · simp [trackKeys, hk]
      · simp [trackKeys, hk]
    · have hne : (id, e) ≠ (k.1, k.2.1) := fun h => hk (by simpa [eq_comm] using h)
      have hmem : (id, e) ∈ trackKeys (k :: ks) ↔ (id, e) ∈ trackKeys ks := by
        simp only [trackKeys, List.map_cons, List.mem_cons, hne, false_or]
      rw [if_neg (by simpa using hk), trackKeys, List.map_cons, ← trackKeys, ih]
      simp only [hmem]
      split_ifs <;> rfl

private theorem nodup_setTrack (hks : (trackKeys ks).Nodup) (id : String) (e : ℤ)
    (track : KeyframeTrack F) : (trackKeys (setTrack id e track ks)).Nodup := by
  rw [trackKeys_setTrack]
  split_ifs with h
  · exact hks
  · rw [← List.concat_eq_append]
    exact hks.concat h

private theorem nodup_filter (hks : (trackKeys ks).Nodup) (p : String × ℤ × KeyframeTrack F → Bool)
    :
    (trackKeys (ks.filter p)).Nodup := hks.sublist (List.filter_sublist.map _)

/-! ### One step of a shift -/

/-- Every track of a core has a key of its own. -/
def TracksApart (core : NodeCore F) : Prop := (trackKeys core.keyframes).Nodup

/-- A step on the elements of one input: its values change by `f` and its tracks by `h`, and
nothing else does. -/
structure ActsOn (id : String) (f : (ℤ → Option (NodeValue F)) → ℤ → Option (NodeValue F))
    (h : (ℤ → Option (KeyframeTrack F)) → ℤ → Option (KeyframeTrack F))
    (core core' : NodeCore F) : Prop where
  apart : core'.TracksApart
  values : core'.values id = f (core.values id)
  tracks : core'.tracks id = h (core.tracks id)
  others : ∀ i, i ≠ id → core'.values i = core.values i ∧ core'.tracks i = core.tracks i
  rest : core' =
    { core with standardValues := core'.standardValues, keyframes := core'.keyframes }

section Steps

variable {f f' : (ℤ → Option (NodeValue F)) → ℤ → Option (NodeValue F)}
  {h h' : (ℤ → Option (KeyframeTrack F)) → ℤ → Option (KeyframeTrack F)}

theorem ActsOn.refl (hapart : core.TracksApart) : ActsOn id (fun v => v) (fun v => v) core core :=
  ⟨hapart, rfl, rfl, fun _ _ => ⟨rfl, rfl⟩, rfl⟩

theorem ActsOn.comp (hs : ActsOn id f h core core') (hs' : ActsOn id f' h' core' core'') :
    ActsOn id (fun v => f' (f v)) (fun v => h' (h v)) core core'' where
  apart := hs'.apart
  values := by rw [hs'.values, hs.values]
  tracks := by rw [hs'.tracks, hs.tracks]
  others i hi := ⟨(hs'.others i hi).1.trans (hs.others i hi).1,
    (hs'.others i hi).2.trans (hs.others i hi).2⟩
  rest := by
    have hrest := hs'.rest
    rw [hs.rest] at hrest
    exact hrest

theorem ActsOn.withInputs (hs : ActsOn id f h core core') (inputs : List (Input F)) :
    ActsOn id f h { core with inputs := inputs } { core' with inputs := inputs } where
  apart := hs.apart
  values := hs.values
  tracks := hs.tracks
  others := hs.others
  rest := congrArg (fun c : NodeCore F => { c with inputs := inputs }) hs.rest

end Steps

private theorem actsOn_update (hapart : core.TracksApart) (id : String) (e : ℤ)
    (v : Option (NodeValue F)) :
    ActsOn id (fun vs => Function.update vs e v) (fun ts => ts) core
      { core with standardValues := Function.update core.standardValues (id, e) v } where
  apart := hapart
  values := by
    funext x
    by_cases hx : x = e
    · rw [hx, Function.update_self]
      exact Function.update_self ..
    · rw [Function.update_of_ne hx]
      exact Function.update_of_ne (by simpa using hx) ..
  tracks := rfl
  others i hi := ⟨funext fun x => Function.update_of_ne (by simp [hi]) .., rfl⟩
  rest := rfl

private theorem actsOn_moveElementValue (hapart : core.TracksApart) (id : String)
    (source target : ℕ) :
    ActsOn id (fun vs => moveEntry vs (toI32 source) (toI32 target)) (fun ts => ts) core
      (core.moveElementValue id source target) := by
  rcases hv : core.standardValues (id, toI32 source) with _ | v
  · have hentry : moveEntry (core.values id) (toI32 source) (toI32 target) = core.values id := by
      rw [moveEntry, show core.values id (toI32 source) = none from hv]
    rw [moveElementValue, hv]
    exact ⟨hapart, hentry.symm, rfl, fun _ _ => ⟨rfl, rfl⟩, rfl⟩
  · have hentry : moveEntry (core.values id) (toI32 source) (toI32 target) =
        Function.update (Function.update (core.values id) (toI32 source) none) (toI32 target)
          (some v) := by
      rw [moveEntry, show core.values id (toI32 source) = some v from hv]
    have hdropped := actsOn_update hapart id (toI32 source) none
    have hstep := hdropped.comp (actsOn_update hdropped.apart id (toI32 target) (some v))
    rw [moveElementValue, hv]
    exact ⟨hapart, hstep.values.trans hentry.symm, rfl, hstep.others, rfl⟩

private theorem tracks_eq_trackAt (core : NodeCore F) (i : String) :
    core.tracks i = trackAt core.keyframes i := rfl

section

variable (hapart : core.TracksApart)

include hapart

private theorem actsOn_moveElementKeyframes (id : String) (source target : ℕ) :
    ActsOn id (fun vs => vs) (fun ts => moveEntry ts (toI32 source) (toI32 target)) core
      (core.moveElementKeyframes id source target) := by
  rcases hk : core.keyframes.find? fun k => k.1 = id && k.2.1 = toI32 source with _ | k
  · have hentry : moveEntry (core.tracks id) (toI32 source) (toI32 target) = core.tracks id := by
      have hnone : core.tracks id (toI32 source) = none := by
        rw [tracks, keyframeTrack, hk, Option.map_none]
      rw [moveEntry, hnone]
    rw [moveElementKeyframes, hk]
    exact ⟨hapart, rfl, hentry.symm, fun _ _ => ⟨rfl, rfl⟩, rfl⟩
  · have hsome : core.tracks id (toI32 source) = some k.2.2 := by
      rw [tracks, keyframeTrack, hk, Option.map_some]
    have hkeys : ∀ i x, trackAt (setTrack id (toI32 target) k.2.2
          (core.keyframes.eraseP fun k => k.1 = id && k.2.1 = toI32 source)) i x =
        if id = i ∧ toI32 target = x then some k.2.2
        else if id = i ∧ toI32 source = x then none else core.tracks i x := fun i x => by
      rw [trackAt_setTrack, eraseP_eq_filter hapart, trackAt_filter, tracks_eq_trackAt]
    rw [moveElementKeyframes, hk]
    refine ⟨?_, rfl, funext fun x => ?_, fun i hi => ⟨rfl, funext fun x => ?_⟩, rfl⟩
    · refine nodup_setTrack ?_ _ _ _
      rw [eraseP_eq_filter hapart]
      exact nodup_filter hapart _
    · rw [moveEntry, hsome]
      refine (hkeys id x).trans ?_
      simp only [true_and, Function.update_apply, eq_comm]
    · refine (hkeys i x).trans ?_
      rw [if_neg fun h => hi h.1.symm, if_neg fun h => hi h.1.symm]

/-- Element `source` becomes element `target`, in both stores. -/
theorem actsOn_moveElement (id : String) (source target : ℕ) :
    ActsOn id (fun vs => moveEntry vs (toI32 source) (toI32 target))
      (fun ts => moveEntry ts (toI32 source) (toI32 target)) core
      (core.moveElement id source target) := by
  have hvalue := actsOn_moveElementValue hapart id source target
  have hboth := hvalue.comp (actsOn_moveElementKeyframes hvalue.apart id source target)
  rw [moveElement]
  exact hboth

private theorem actsOn_removeElementKeyframes (id : String) (element : ℕ) :
    ActsOn id (fun vs => vs) (fun ts => Function.update ts (toI32 element) none) core
      (core.removeElementKeyframes id element) := by
  refine ⟨nodup_filter hapart _, rfl, funext fun x => ?_, fun i hi => ⟨rfl, funext fun x => ?_⟩,
    rfl⟩
  · refine (trackAt_filter id (toI32 element) core.keyframes id x).trans ?_
    simp only [true_and, Function.update_apply, eq_comm, tracks_eq_trackAt]
  · refine (trackAt_filter id (toI32 element) core.keyframes i x).trans ?_
    rw [if_neg fun h => hi h.1.symm, tracks_eq_trackAt]

theorem actsOn_clearElement (id : String) (element : ℕ) :
    ActsOn id (fun vs => Function.update vs (toI32 element) none)
      (fun ts => Function.update ts (toI32 element) none) core
      (core.clearElement id element) := by
  have hvalue := actsOn_update hapart id (toI32 element) none
  have hboth := hvalue.comp (actsOn_removeElementKeyframes hvalue.apart id element)
  rw [clearElement]
  exact hboth

/-- A loop of moves, whose elements are numbered in 32 bits. -/
theorem actsOn_foldl (id : String) (source target : ℕ → ℕ) {es : List ℕ}
    (hes : ∀ e ∈ es, IsI32 (source e) ∧ IsI32 (target e)) :
    ActsOn id (fun vs => es.foldl (fun v e => moveEntry v (source e) (target e)) vs)
      (fun ts => es.foldl (fun v e => moveEntry v (source e) (target e)) ts) core
      (es.foldl (fun c e => c.moveElement id (source e) (target e)) core) := by
  induction es generalizing core with
  | nil => exact .refl hapart
  | cons e es ih =>
    have hstep := actsOn_moveElement hapart id (source e) (target e)
    obtain ⟨hs, ht⟩ := hes e List.mem_cons_self
    rw [toI32_of_isI32 hs, toI32_of_isI32 ht] at hstep
    exact hstep.comp (ih hstep.apart fun x hx => hes x (List.mem_cons_of_mem e hx))

end

/-! ### The whole shift of a node -/

/-- The first input called `id` with another size. -/
def resize (id : String) (size : ℕ) : List (Input F) → List (Input F) :=
  modifyInput id fun i => { i with arraySize := size }

/-- The elements of an input were relocated by `σ`, in both stores, and its size is now `size`;
nothing else changed. -/
structure ElementsMoved (id : String) (σ : ℤ → Option ℤ) (size : ℕ) (core core' : NodeCore F) :
    Prop where
  values : Relocated σ (core.values id) (core'.values id)
  tracks : Relocated σ (core.tracks id) (core'.tracks id)
  others : ∀ i, i ≠ id → core'.values i = core.values i ∧ core'.tracks i = core.tracks i
  rest : core' = { core with
    inputs := resize id size core.inputs
    standardValues := core'.standardValues
    keyframes := core'.keyframes }

variable {input : Input F} {index : ℕ}

theorem modifyInput_congr {f f' : Input F → Input F}
    (hinput : inputs.find? (fun i => i.id = id) = some input) (hf : f input = f' input) :
    modifyInput id f inputs = modifyInput id f' inputs := by
  induction inputs with
  | nil => rfl
  | cons i is ih =>
    rw [List.find?_cons] at hinput
    rw [modifyInput, modifyInput]
    by_cases hi : i.id = id
    · rw [if_pos hi, if_pos hi]
      rw [decide_eq_true hi, Option.some.injEq] at hinput
      rw [hinput, hf]
    · rw [if_neg hi, if_neg hi]
      rw [decide_eq_false hi] at hinput
      rw [ih hinput]

theorem find?_modifyInput {f : Input F → Input F} (hf : ∀ i, (f i).id = i.id)
    (hinput : inputs.find? (fun i => i.id = id) = some input) :
    (modifyInput id f inputs).find? (fun i => i.id = id) = some (f input) := by
  induction inputs with
  | nil => exact absurd hinput (by simp)
  | cons i is ih =>
    rw [List.find?_cons] at hinput
    rw [modifyInput]
    by_cases hi : i.id = id
    · rw [decide_eq_true hi, Option.some.injEq] at hinput
      rw [if_pos hi, List.find?_cons, decide_eq_true ((hf i).trans hi), hinput]
    · rw [decide_eq_false hi] at hinput
      rw [if_neg hi, List.find?_cons, decide_eq_false hi, ih hinput]

theorem inputArraySize_resize (hinput : core.getInput id = some input) (size : ℕ) :
    NodeCore.inputArraySize { core with inputs := resize id size core.inputs } id = size := by
  have hfound : (resize id size core.inputs).find? (fun i => i.id = id) =
      some { input with arraySize := size } :=
    find?_modifyInput (f := fun i => { i with arraySize := size }) (fun _ => rfl) hinput
  rw [inputArraySize, getInput, hfound, Option.map_some, Option.getD_some]

theorem actsOn_inputArrayInsert (hapart : core.TracksApart)
    (hinput : core.getInput id = some input) (hindex : index ≤ input.arraySize)
    (hsize : input.arraySize < 2 ^ 31) :
    ActsOn id
      (fun vs => Function.update (shiftUp index (input.arraySize - index) vs) index none)
      (fun ts => Function.update (shiftUp index (input.arraySize - index) ts) index none)
      { core with inputs := resize id (input.arraySize + 1) core.inputs }
      (core.inputArrayInsert id index) := by
  have hgrown : modifyInput id (fun i => { i with arraySize := i.arraySize + 1 }) core.inputs =
      resize id (input.arraySize + 1) core.inputs := modifyInput_congr hinput rfl
  have hcount : input.arraySize + 1 - (index + 1) = input.arraySize - index := by omega
  have happly : NodeCore.TracksApart
      { core with inputs := resize id (input.arraySize + 1) core.inputs } := hapart
  have hi32 : ∀ e ∈ (List.range' (index + 1) (input.arraySize - index)).reverse,
      IsI32 (e - 1 : ℕ) ∧ IsI32 e := fun e he => by
    have hrange := List.mem_range'_1.1 (List.mem_reverse.1 he)
    simp only [IsI32]
    omega
  have hloop := actsOn_foldl happly id (fun e => e - 1) (fun e => e) hi32
  have hclear := hloop.comp (actsOn_clearElement hloop.apart id index)
  rw [toI32_of_isI32 (n := index) (by simp only [IsI32]; omega)] at hclear
  simp only [inputArrayInsert, hgrown, inputArraySize_resize hinput, hcount]
  exact hclear

/-- The downward shift. -/
theorem actsOn_inputArrayRemove (hapart : core.TracksApart)
    (hinput : core.getInput id = some input) (hindex : index < input.arraySize)
    (hsize : input.arraySize ≤ 2 ^ 31) :
    ActsOn id
      (fun vs => Function.update (shiftDown index (input.arraySize - 1 - index)
        (Function.update vs index none)) ((input.arraySize - 1 : ℕ) : ℤ) none)
      (fun ts => Function.update (shiftDown index (input.arraySize - 1 - index)
        (Function.update ts index none)) ((input.arraySize - 1 : ℕ) : ℤ) none)
      { core with inputs := resize id (input.arraySize - 1) core.inputs }
      (core.inputArrayRemove id index) := by
  have hold : core.inputArraySize id = input.arraySize := by
    rw [inputArraySize, hinput, Option.map_some, Option.getD_some]
  have hi32 : ∀ e ∈ List.range' index (input.arraySize - 1 - index),
      IsI32 (e + 1 : ℕ) ∧ IsI32 e := fun e he => by
    have hrange := List.mem_range'_1.1 he
    simp only [IsI32]
    omega
  have hfirst := actsOn_clearElement hapart id index
  have hloop := hfirst.comp (actsOn_foldl hfirst.apart id (fun e => e + 1) (fun e => e) hi32)
  have hlast := hloop.comp (actsOn_clearElement hloop.apart id (input.arraySize - 1))
  rw [toI32_of_isI32 (n := index) (by simp only [IsI32]; omega),
    toI32_of_isI32 (n := (input.arraySize - 1 : ℕ)) (by simp only [IsI32]; omega)] at hlast
  have hcut : modifyInput id (fun i => { i with arraySize := i.arraySize - 1 }) core.inputs =
      resize id (input.arraySize - 1) core.inputs := modifyInput_congr hinput rfl
  have hinputs := congrArg inputs hlast.rest
  simp only [inputArrayRemove, hold, if_neg (not_le.2 hindex)]
  rw [hinputs, hcut]
  exact hlast.withInputs _

theorem ActsOn.elementsMoved {f : (ℤ → Option (NodeValue F)) → ℤ → Option (NodeValue F)}
    {h : (ℤ → Option (KeyframeTrack F)) → ℤ → Option (KeyframeTrack F)}
    (hs : ActsOn id f h { core with inputs := resize id size core.inputs } core')
    (hvalues : Relocated σ (core.values id) (f (core.values id)))
    (htracks : Relocated σ (core.tracks id) (h (core.tracks id))) :
    ElementsMoved id σ size core core' where
  values := by
    rw [hs.values]
    exact hvalues
  tracks := by
    rw [hs.tracks]
    exact htracks
  others := hs.others
  rest := hs.rest

/-- No value and no track is kept for a place past the elements. -/
def NoStrays (core : NodeCore F) (id : String) (size : ℕ) : Prop :=
  ∀ e : ℤ, size ≤ e → core.values id e = none ∧ core.tracks id e = none

/-- Values and tracks are kept under the numbers of elements, which are those below `2 ^ 31`. -/
def Numbered (core : NodeCore F) (id : String) : Prop :=
  ∀ e : ℤ, 2 ^ 31 ≤ e → core.values id e = none ∧ core.tracks id e = none

/-- An insertion moves every element exactly when there are no strays. -/
theorem elementsMoved_inputArrayInsert_iff (hapart : core.TracksApart)
    (hnumbered : core.Numbered id) (hinput : core.getInput id = some input)
    (hindex : index ≤ input.arraySize) (hsize : input.arraySize < 2 ^ 31) :
    ElementsMoved id (raised index) (input.arraySize + 1) core (core.inputArrayInsert id index) ↔
      core.NoStrays id input.arraySize := by
  have hacts := actsOn_inputArrayInsert hapart hinput hindex hsize
  have hvalues := relocated_shiftUp_iff hindex fun e he => (hnumbered e he).1
  have htracks := relocated_shiftUp_iff hindex fun e he => (hnumbered e he).2
  constructor
  · intro h e he
    have hv := h.values
    have ht := h.tracks
    rw [hacts.values] at hv
    rw [hacts.tracks] at ht
    exact ⟨hvalues.1 hv e he, htracks.1 ht e he⟩
  · intro h
    exact hacts.elementsMoved (hvalues.2 fun e he => (h e he).1)
      (htracks.2 fun e he => (h e he).2)

theorem elementsMoved_inputArrayRemove (hapart : core.TracksApart)
    (hinput : core.getInput id = some input) (hindex : index < input.arraySize)
    (hsize : input.arraySize ≤ 2 ^ 31) (hstrays : core.NoStrays id input.arraySize) :
    ElementsMoved id (lowered index) (input.arraySize - 1) core
      (core.inputArrayRemove id index) :=
  (actsOn_inputArrayRemove hapart hinput hindex hsize).elementsMoved
    (relocated_shiftDown hindex fun e he => (hstrays e he).1)
    (relocated_shiftDown hindex fun e he => (hstrays e he).2)

theorem ElementsMoved.getInput {core' : NodeCore F} (h : ElementsMoved id σ size core core')
    (hinput : core.getInput id = some input) :
    core'.getInput id = some { input with arraySize := size } := by
  rw [h.rest]
  exact find?_modifyInput (f := fun i => { i with arraySize := size }) (fun _ => rfl) hinput

theorem ElementsMoved.noStrays {core' : NodeCore F}
    (h : ElementsMoved id (raised index) (size + 1) core core') (hindex : index ≤ size)
    (hstrays : core.NoStrays id size) : core'.NoStrays id (size + 1) := fun e he => by
  have hraised : raised index (e - 1) = some e := by
    rw [raised, if_pos (by omega), sub_add_cancel]
  rw [h.values.moved _ _ hraised, h.tracks.moved _ _ hraised]
  exact hstrays (e - 1) (by omega)

/-- An upward and a downward shift at one place leave the inputs, values and tracks as they
were. -/
theorem ElementsMoved.restored {core' core'' : NodeCore F}
    (hinput : core.getInput id = some input)
    (hup : ElementsMoved id (raised index) (input.arraySize + 1) core core')
    (hdown : ElementsMoved id (lowered index) input.arraySize core' core'') :
    core'' = { core with keyframes := core''.keyframes } ∧
      core''.keyframeTrack = core.keyframeTrack := by
  have hvalues : core''.standardValues = core.standardValues := funext fun ⟨i, e⟩ => by
    by_cases hi : i = id
    · subst hi
      exact congrFun (hup.values.lowered_raised hdown.values) e
    · exact congrFun ((hdown.others i hi).1.trans (hup.others i hi).1) e
  have htracks : core''.tracks = core.tracks := funext fun i => by
    by_cases hi : i = id
    · subst hi
      exact hup.tracks.lowered_raised hdown.tracks
    · exact (hdown.others i hi).2.trans (hup.others i hi).2
  have hinputs : resize id input.arraySize (resize id (input.arraySize + 1) core.inputs) =
      core.inputs := by
    unfold NodeCore.getInput at hinput
    generalize core.inputs = inputs at hinput
    induction inputs with
    | nil => rfl
    | cons i is ih =>
      rw [List.find?_cons] at hinput
      by_cases hi : i.id = id
      · rw [decide_eq_true hi, Option.some.injEq] at hinput
        subst hinput
        subst hi
        simp [resize, modifyInput]
      · rw [decide_eq_false hi] at hinput
        simp only [resize, modifyInput, if_neg hi] at ih ⊢
        rw [ih hinput]
  refine ⟨?_, htracks⟩
  have hrest := hdown.rest
  rw [hup.rest, hvalues] at hrest
  simp only [hinputs] at hrest
  exact hrest

end NodeCore

/-! ### The connections -/

variable {moves : List Edge}

namespace Graph

variable {g g' : Graph F β} {id : NodeId} {input : String} {index : ℕ}
  {carried : List (NodeId × NodeId)}

/-- The edges into an input are relocated by `σ`, and the others stay. -/
def EdgesMoved (id : NodeId) (input : String) (σ : ℤ → Option ℤ) (edges edges' : OrdSet Edge) :
    Prop :=
  ∀ a, a ∈ edges' ↔ (a ∈ edges ∧ ¬ (a.target = id ∧ a.inputKey = hashStr input)) ∨
    ∃ e ∈ edges, (e.target = id ∧ e.inputKey = hashStr input) ∧
      ∃ el, σ e.element = some el ∧ a = { e with element := el }

variable {f : Edge → Option Edge}

/-- All edges are replaced at once when none is replaced by one that is still to come. -/
theorem mem_moveEdges_iff {edges : OrdSet Edge} (hlater : moves.Pairwise fun e e' => f e ≠ some e')
    {a : Edge} :
    a ∈ moveEdges f moves edges ↔ a ∈ edges ∧ a ∉ moves ∨ ∃ e ∈ moves, f e = some a := by
  induction moves generalizing edges with
  | nil => simp [moveEdges]
  | cons e moves ih =>
    obtain ⟨he, hlater⟩ := List.pairwise_cons.1 hlater
    rw [moveEdges, List.foldl_cons]
    refine (ih hlater).trans ?_
    rcases hfe : f e with _ | shifted
    · simp only [OrdSet.mem_erase, List.mem_cons, not_or, exists_eq_or_imp, hfe]
      tauto
    · have hnot : shifted ∉ moves := fun h => he shifted h hfe
      simp only [OrdSet.mem_insert, OrdSet.mem_erase, List.mem_cons, not_or, exists_eq_or_imp,
        hfe, Option.some.injEq]
      constructor
      · rintro (⟨rfl | h, h'⟩ | h)
        · exact .inr (.inl rfl)
        · exact .inl ⟨h.1, h.2, h'⟩
        · exact .inr (.inr h)
      · rintro (h | rfl | h)
        · exact .inl ⟨.inr ⟨h.1, h.2.1⟩, h.2.2⟩
        · exact .inl ⟨.inl rfl, hnot⟩
        · exact .inr h

/-- An edge that is put over a later one goes when that one is replaced. -/
theorem notMem_moveEdges {edges : OrdSet Edge} (hmoves : moves.Pairwise (· < ·)) {e : Edge}
    (he : e ∈ moves) (hfrom : ∀ x ∈ moves, f x = some e → x < e) : e ∉ moveEdges f moves edges := by
  obtain ⟨before, after, rfl⟩ := List.append_of_mem he
  rw [moveEdges, List.foldl_append, List.foldl_cons]
  intro hmem
  have hself : f e ≠ some e := fun h => lt_irrefl e (hfrom e he h)
  rcases mem_moveEdges hmem with ⟨hstep, -⟩ | ⟨x, hx, hfx⟩
  · rcases hfe : f e with _ | shifted
    · simp [hfe] at hstep
    · rw [hfe] at hstep
      rcases OrdSet.mem_insert.1 hstep with rfl | h
      · exact hself hfe
      · exact (OrdSet.mem_erase.1 h).2 rfl
  · have hlt := hfrom x (List.mem_append_right _ (List.mem_cons_of_mem e hx)) hfx
    have hgt := (List.pairwise_cons.1 (List.pairwise_append.1 hmoves).2.1).1 x hx
    exact lt_asymm hlt hgt

theorem lt_of_element {e e' : Edge} (hsource : e.source = e'.source)
    (htarget : e.target = e'.target) (hkey : e.inputKey = e'.inputKey)
    (h : e.element < e'.element) : e < e' := by
  show toLex (e.source, toLex (e.target, toLex (e.inputKey, e.element))) <
    toLex (e'.source, toLex (e'.target, toLex (e'.inputKey, e'.element)))
  rw [hsource, htarget, hkey]
  simpa [Prod.Lex.toLex_lt_toLex] using h

theorem sorted_elementsFrom (g : Graph F β) (id : NodeId) (input : String) (index : ℤ) :
    (g.elementsFrom id input index).Pairwise (· < ·) := g.edges.sorted.filter _

/-- The edge one element further up. -/
def next (e : Edge) : Edge := { e with element := e.element + 1 }

theorem edgesMoved_iff_of_moves {edges edges' : OrdSet Edge}
    (hmoves : ∀ e, e ∈ moves ↔
      e ∈ edges ∧ e.target = id ∧ e.inputKey = hashStr input ∧ (index : ℤ) ≤ e.element)
    (hbelow : ∀ e : ℤ, e < index → σ e = some e)
    (hf : ∀ e ∈ moves, f e = (σ e.element).map fun el => { e with element := el })
    (hedges : ∀ a, a ∈ edges' ↔ a ∈ edges ∧ a ∉ moves ∨ ∃ e ∈ moves, f e = some a) :
    EdgesMoved id input σ edges edges' := by
  intro a
  rw [hedges, hmoves]
  constructor
  · rintro (⟨ha, hstay⟩ | ⟨e, he, hfe⟩)
    · by_cases hinto : a.target = id ∧ a.inputKey = hashStr input
      · have hlow : a.element < index := by
          by_contra hge
          exact hstay ⟨ha, hinto.1, hinto.2, not_lt.1 hge⟩
        exact .inr ⟨a, ha, hinto, a.element, hbelow _ hlow, rfl⟩
      · exact .inl ⟨ha, hinto⟩
    · obtain ⟨hmem, ht, hk, -⟩ := (hmoves e).1 he
      rw [hf e he, Option.map_eq_some_iff] at hfe
      obtain ⟨el, hel, rfl⟩ := hfe
      exact .inr ⟨e, hmem, ⟨ht, hk⟩, el, hel, rfl⟩
  · rintro (⟨ha, hout⟩ | ⟨e, he, hinto, el, hel, rfl⟩)
    · exact .inl ⟨ha, fun h => hout ⟨h.2.1, h.2.2.1⟩⟩
    · by_cases hlow : e.element < index
      · rw [hbelow _ hlow, Option.some.injEq] at hel
        subst hel
        exact .inl ⟨he, fun h => not_le.2 hlow h.2.2.2⟩
      · have hmem := (hmoves e).2 ⟨he, hinto.1, hinto.2, not_lt.1 hlow⟩
        exact .inr ⟨e, hmem, by rw [hf e hmem, hel, Option.map_some]⟩

/-- Raising and then lowering at the same place brings every edge back. -/
theorem EdgesMoved.lowered_raised {edges edges' edges'' : OrdSet Edge}
    (hup : EdgesMoved id input (raised index) edges edges')
    (hdown : EdgesMoved id input (lowered index) edges' edges'') : edges'' = edges := by
  refine OrdSet.ext_mem fun a => ?_
  rw [hdown a]
  constructor
  · rintro (⟨ha, hout⟩ | ⟨e, he, hinto, el, hel, rfl⟩)
    · rcases (hup a).1 ha with ⟨ha, -⟩ | ⟨e, -, hinto, el, -, rfl⟩
      · exact ha
      · exact absurd hinto hout
    · rcases (hup e).1 he with ⟨-, hout⟩ | ⟨e₀, he₀, -, el₀, hel₀, rfl⟩
      · exact absurd hinto hout
      · rw [lowered_of_raised hel₀, Option.some.injEq] at hel
        rwa [← hel]
  · intro ha
    by_cases hinto : a.target = id ∧ a.inputKey = hashStr input
    · obtain ⟨el, hel⟩ : ∃ el, raised index a.element = some el := ⟨_, rfl⟩
      exact .inr ⟨{ a with element := el }, (hup _).2 (.inr ⟨a, ha, hinto, el, hel, rfl⟩), hinto,
        a.element, lowered_of_raised hel, rfl⟩
    · exact .inl ⟨(hup a).2 (.inl ⟨ha, hinto⟩), hinto⟩

/-- The edges moved by an insertion. -/
def raisedEdges (g : Graph F β) (id : NodeId) (input : String) (index : ℤ) : OrdSet Edge :=
  moveEdges (fun e => some { e with element := toI32 (e.element + 1) })
    (g.elementsFrom id input index) g.edges

/-- The edges moved by a removal. -/
def loweredEdges (g : Graph F β) (id : NodeId) (input : String) (index : ℤ) : OrdSet Edge :=
  moveEdges (fun e => if index < e.element then some { e with element := toI32 (e.element - 1) }
      else none) (g.elementsFrom id input index) g.edges

theorem toI32_lt (n : ℤ) : toI32 n < 2 ^ 31 := by
  have := Int.bmod_lt (x := n) (show 0 < 2 ^ 32 by decide)
  simpa [toI32] using this

/-- An insertion moves every connection exactly when none moves onto another one. -/
theorem edgesMoved_raisedEdges_iff (hi32 : ∀ e ∈ g.edges, IsI32 e.element) :
    EdgesMoved id input (raised index) g.edges (g.raisedEdges id input index) ↔
      ∀ e ∈ g.elementsFrom id input index, e.element + 1 < 2 ^ 31 ∧ next e ∉ g.edges := by
  constructor
  · intro h e he
    obtain ⟨hmem, ht, hk, hlow⟩ := (Sound.mem_elementsFrom e).1 he
    have hnext : next e ∈ g.raisedEdges id input index :=
      (h (next e)).2 (.inr ⟨e, hmem, ⟨ht, hk⟩, e.element + 1, by rw [raised, if_pos hlow], rfl⟩)
    have hbound : e.element + 1 < 2 ^ 31 := by
      rcases mem_moveEdges hnext with ⟨hold, -⟩ | ⟨x, -, hx⟩
      · exact (hi32 _ hold).2
      · have hel : toI32 (x.element + 1) = e.element + 1 :=
          congrArg Edge.element (Option.some.inj hx)
        exact hel ▸ toI32_lt _
    refine ⟨hbound, fun hold => ?_⟩
    refine notMem_moveEdges (g.sorted_elementsFrom id input index)
      ((Sound.mem_elementsFrom (next e)).2
        ⟨hold, ht, hk, show (index : ℤ) ≤ e.element + 1 by omega⟩)
      (fun x hx hfx => ?_) hnext
    obtain ⟨hxmem, hxt, hxk, hxlow⟩ := (Sound.mem_elementsFrom x).1 hx
    obtain ⟨hsource, htarget, hkey, hel⟩ := (Edge.mk.injEq ..).mp (Option.some.inj hfx)
    have hxbound : x.element + 1 < 2 ^ 31 := by
      by_contra hwrap
      have hlast : x.element + 1 = 2 ^ 31 := by
        have := (hi32 x hxmem).2
        omega
      rw [hlast, show toI32 (2 ^ 31) = -2 ^ 31 from rfl] at hel
      omega
    rw [toI32_of_isI32 ⟨by omega, hxbound⟩] at hel
    refine lt_of_element hsource htarget hkey ?_
    show x.element < e.element + 1
    omega
  · intro h
    have hf : ∀ e ∈ g.elementsFrom id input index,
        some { e with element := toI32 (e.element + 1) } = some (next e) := fun e he => by
      have hlow := ((Sound.mem_elementsFrom e).1 he).2.2.2
      rw [toI32_of_isI32 ⟨by omega, (h e he).1⟩]
      rfl
    refine edgesMoved_iff_of_moves Sound.mem_elementsFrom (fun e he => ?_) (fun e he => ?_)
      fun a => mem_moveEdges_iff ?_
    · rw [raised, if_neg (by omega)]
    · rw [hf e he, raised, if_pos ((Sound.mem_elementsFrom e).1 he).2.2.2]
      rfl
    · refine List.pairwise_of_forall_mem_list fun e he e' he' hee' => ?_
      rw [hf e he, Option.some.injEq] at hee'
      exact (h e he).2 (hee' ▸ ((Sound.mem_elementsFrom e').1 he').1)

theorem edgesMoved_loweredEdges (hi32 : ∀ e ∈ g.edges, IsI32 e.element) :
    EdgesMoved id input (lowered index) g.edges (g.loweredEdges id input index) := by
  have hf : ∀ e ∈ g.elementsFrom id input index,
      (if (index : ℤ) < e.element then some { e with element := toI32 (e.element - 1) } else none) =
        (lowered index e.element).map fun el => { e with element := el } := fun e he => by
    obtain ⟨hmem, -, -, hlow⟩ := (Sound.mem_elementsFrom e).1 he
    rcases Int.le_iff_lt_or_eq.1 hlow with hlt | heq
    · have hhigh := (hi32 e hmem).2
      rw [if_pos hlt, toI32_of_isI32 ⟨by omega, by omega⟩, lowered, if_neg (by omega), if_pos hlt]
      rfl
    · rw [if_neg (by omega), lowered, if_pos heq.symm]
      rfl
  refine edgesMoved_iff_of_moves Sound.mem_elementsFrom (fun e he => ?_) hf
    fun a => mem_moveEdges_iff ?_
  · rw [lowered, if_neg (by omega), if_neg (by omega)]
  · -- an edge moves below the ones that follow it
    refine (g.sorted_elementsFrom id input index).imp_of_mem fun {e e'} he he' hlt heq => ?_
    rw [hf e he, Option.map_eq_some_iff] at heq
    obtain ⟨el, hel, rfl⟩ := heq
    refine lt_asymm hlt (lt_of_element rfl rfl rfl ?_)
    show el < e.element
    have hlow := ((Sound.mem_elementsFrom e).1 he).2.2.2
    simp only [lowered] at hel
    split_ifs at hel with h1 h2 <;> simp only [Option.some.injEq] at hel <;> omega

/-! ### The operations of the graph -/

/-- The elements of an input of a node were relocated by `σ` in all three stores, and the input has
`size` elements now; nothing else changed. -/
structure ElementsMoved (g : Graph F β) (id : NodeId) (input : String) (σ : ℤ → Option ℤ)
    (size : ℕ) (g' : Graph F β) : Prop where
  node : ∃ entry core', g.get id = some entry ∧ g'.get id = some { entry with core := core' } ∧
    entry.core.ElementsMoved input σ size core'
  edges : EdgesMoved id input σ g.edges g'.edges
  others : ∀ x, x ≠ id → g'.get x = g.get x
  slots : g'.shells = g.shells
  rest : g' = { g with entries := g'.entries, edges := g'.edges }

/-- A node is the same up to the order in which its tracks are stored, and nothing else of the
graph changed. -/
structure Restored (g : Graph F β) (id : NodeId) (g' : Graph F β) : Prop where
  node : ∃ entry core', g.get id = some entry ∧ g'.get id = some { entry with core := core' } ∧
    core' = { entry.core with keyframes := core'.keyframes } ∧
    core'.keyframeTrack = entry.core.keyframeTrack
  edges : g'.edges = g.edges
  others : ∀ x, x ≠ id → g'.get x = g.get x
  slots : g'.shells = g.shells
  rest : g' = { g with entries := g'.entries }

/-- At a place of an input with `size` elements, an insertion moves the elements, a removal after
it brings everything back, and a removal of an element moves the others. -/
def LosesNothing (g : Graph F β) (id : NodeId) (input : String) (size index : ℕ) : Prop :=
  (∃ g', g.inputArrayInsert id input index = .ok g' ∧
    g.ElementsMoved id input (raised index) (size + 1) g' ∧
    ∃ g'', g'.inputArrayRemove id input index = .ok g'' ∧ g.Restored id g'') ∧
  (index < size → ∃ g', g.inputArrayRemove id input index = .ok g' ∧
    g.ElementsMoved id input (lowered index) (size - 1) g')

/-- When the elements move without loss: another element and another connection fit, no value or
track is kept past the elements, and no node feeds an element that moves and the one above it. -/
structure Shiftable (g : Graph F β) (id : NodeId) (core : NodeCore F) (input : String)
    (size index : ℕ) : Prop where
  room : size + 1 < 2 ^ 31
  strays : core.NoStrays input size
  apart : ∀ e ∈ g.elementsFrom id input index, e.element + 1 < 2 ^ 31 ∧ next e ∉ g.edges

section Operations

variable {entry : NodeEntry F β} {i : Input F}

theorem inputArrayInsert_eq (hget : g.get id = some entry)
    (hinput : entry.core.getInput input = some i) (harray : i.isArray = true)
    (hindex : index ≤ i.arraySize) (hsize : i.arraySize < 2 ^ 31) :
    g.inputArrayInsert id input index =
      .ok { g.setCore id entry (entry.core.inputArrayInsert input index) with
        edges := g.raisedEdges id input index } := by
  have hi32 : toI32 i.arraySize = i.arraySize := toI32_of_isI32 ⟨by omega, by omega⟩
  have hrange : ¬ ((decide ((index : ℤ) < 0) || decide (toI32 i.arraySize < index)) = true) := by
    rw [hi32]
    simp
    omega
  simp only [inputArrayInsert, hget, hinput]
  rw [if_neg (by simp [harray]), if_neg hrange]
  rfl

theorem inputArrayRemove_eq (hget : g.get id = some entry)
    (hinput : entry.core.getInput input = some i) (harray : i.isArray = true)
    (hindex : index < i.arraySize) (hsize : i.arraySize < 2 ^ 31) :
    g.inputArrayRemove id input index =
      .ok { g.setCore id entry (entry.core.inputArrayRemove input index) with
        edges := g.loweredEdges id input index } := by
  have hi32 : toI32 i.arraySize = i.arraySize := toI32_of_isI32 ⟨by omega, by omega⟩
  have hrange : ¬ ((decide ((index : ℤ) < 0) || decide (toI32 i.arraySize ≤ index)) = true) := by
    rw [hi32]
    simp
    omega
  simp only [inputArrayRemove, hget, hinput]
  rw [if_neg (by simp [harray]), if_neg hrange]
  rfl

/-- A shift of one node is a shift of its core and of the edges. -/
theorem elementsMoved_setCore_iff (hget : g.get id = some entry) {core' : NodeCore F}
    {edges' : OrdSet Edge} :
    g.ElementsMoved id input σ size { g.setCore id entry core' with edges := edges' } ↔
      entry.core.ElementsMoved input σ size core' ∧ EdgesMoved id input σ g.edges edges' := by
  have hself : Graph.get { g.setCore id entry core' with edges := edges' } id =
      some { entry with core := core' } := (get_setCore hget core').trans (if_pos rfl)
  constructor
  · rintro ⟨⟨entry', core'', hentry, hcore, hmoved⟩, hedges, -, -, -⟩
    obtain rfl := Option.some.inj (hget.symm.trans hentry)
    have hsame := Option.some.inj (hself.symm.trans hcore)
    rw [NodeEntry.mk.injEq] at hsame
    rw [hsame.1]
    exact ⟨hmoved, hedges⟩
  · rintro ⟨hmoved, hedges⟩
    exact ⟨⟨entry, core', hget, hself, hmoved⟩, hedges,
      fun x hx => (get_setCore hget core').trans (if_neg hx), shells_setCore hget core', rfl⟩

private theorem not_le_toI32_full {k : ℤ} (hk : 0 ≤ k) : ¬ k ≤ toI32 (2 ^ 31 : ℕ) := by
  rw [show toI32 (2 ^ 31 : ℕ) = -2 ^ 31 from rfl]
  omega

section

variable (hget : g.get id = some entry) (hinput : entry.core.getInput input = some i)
  (hsize : i.arraySize ≤ 2 ^ 31)

include hget hinput hsize

theorem size_of_inputArrayInsert (h : g.inputArrayInsert id input index = .ok g') :
    i.arraySize < 2 ^ 31 := by
  simp only [inputArrayInsert, hget, hinput] at h
  split_ifs at h with _ hrange
  refine lt_of_le_of_ne hsize fun hfull => ?_
  rw [hfull] at hrange
  simp only [Bool.or_eq_true, decide_eq_true_eq, not_or, not_lt] at hrange
  exact not_le_toI32_full hrange.1 hrange.2

theorem size_of_inputArrayRemove (h : g.inputArrayRemove id input index = .ok g') :
    i.arraySize < 2 ^ 31 := by
  simp only [inputArrayRemove, hget, hinput] at h
  split_ifs at h with _ hrange
  refine lt_of_le_of_ne hsize fun hfull => ?_
  rw [hfull] at hrange
  simp only [Bool.or_eq_true, decide_eq_true_eq, not_or, not_lt, not_le] at hrange
  exact not_le_toI32_full hrange.1 hrange.2.le

end

/-- A removal after an insertion brings the node and the edges back. -/
theorem restored_of_insert (hg : g.Sound carried) (hget : g.get id = some entry)
    (hinput : entry.core.getInput input = some i) (harray : i.isArray = true)
    (hapart : entry.core.TracksApart) (hindex : index ≤ i.arraySize)
    (hshift : g.Shiftable id entry.core input i.arraySize index)
    (hinsert : g.inputArrayInsert id input index = .ok g')
    (hup : g.ElementsMoved id input (raised index) (i.arraySize + 1) g') :
    ∃ g'', g'.inputArrayRemove id input index = .ok g'' ∧ g.Restored id g'' := by
  have hroom := hshift.room
  obtain ⟨entry', core', hentry, hget', hcore⟩ := hup.node
  obtain rfl := Option.some.inj (hget.symm.trans hentry)
  have hg' : g'.Sound carried := hg.inputArrayInsert (fun e he => (hshift.apart e he).1) hinsert
  have hcoreEq : core' = entry.core.inputArrayInsert input index := by
    rw [inputArrayInsert_eq hget hinput harray hindex (by omega)] at hinsert
    obtain rfl := Except.ok.inj hinsert
    have hself := (get_setCore (x := id) hget (entry.core.inputArrayInsert input index)).trans
      (if_pos rfl)
    have hsame := Option.some.inj (hget'.symm.trans hself)
    exact ((NodeEntry.mk.injEq ..).mp hsame).1
  have hapart' : core'.TracksApart :=
    hcoreEq ▸ (NodeCore.actsOn_inputArrayInsert hapart hinput hindex (by omega)).apart
  have hinput' := hcore.getInput hinput
  have hdown := NodeCore.elementsMoved_inputArrayRemove hapart' hinput'
    (show index < i.arraySize + 1 by omega) (show i.arraySize + 1 ≤ 2 ^ 31 by omega)
    (hcore.noStrays hindex hshift.strays)
  obtain ⟨hrest, htracks⟩ := hcore.restored hinput hdown
  have hedges := hup.edges.lowered_raised (edgesMoved_loweredEdges hg'.edges.element)
  refine ⟨_, inputArrayRemove_eq hget' hinput' harray (show index < i.arraySize + 1 by omega)
    hroom, ⟨entry, _, hget, (get_setCore hget' _).trans (if_pos rfl), hrest, htracks⟩, hedges, ?_,
    ?_, ?_⟩
  · exact fun x hx => ((get_setCore hget' _).trans (if_neg hx)).trans (hup.others x hx)
  · exact (shells_setCore hget' _).trans hup.slots
  · have hrest := congrArg (fun g : Graph F β => (g.freeList, g.inputNames)) hup.rest
    obtain ⟨hfree, hnames⟩ := Prod.mk.inj hrest
    exact (Graph.mk.injEq ..).mpr ⟨rfl, hfree, hedges, hnames⟩

/-- The elements of an input move without loss exactly when they can be shifted. -/
theorem losesNothing_iff (hg : g.Sound carried) (hget : g.get id = some entry)
    (hinput : entry.core.getInput input = some i) (harray : i.isArray = true)
    (hapart : entry.core.TracksApart) (hnumbered : entry.core.Numbered input)
    (hindex : index ≤ i.arraySize) (hsize : i.arraySize ≤ 2 ^ 31) :
    g.LosesNothing id input i.arraySize index ↔
      g.Shiftable id entry.core input i.arraySize index := by
  constructor
  · rintro ⟨⟨g', hinsert, hup, g'', hremove, -⟩, -⟩
    have hlt := size_of_inputArrayInsert hget hinput hsize hinsert
    have hroom : i.arraySize + 1 < 2 ^ 31 := by
      obtain ⟨entry', core', hentry, hget', hcore⟩ := hup.node
      obtain rfl := Option.some.inj (hget.symm.trans hentry)
      exact size_of_inputArrayRemove hget' (hcore.getInput hinput)
        (show i.arraySize + 1 ≤ 2 ^ 31 by omega) hremove
    rw [inputArrayInsert_eq hget hinput harray hindex hlt] at hinsert
    obtain rfl := Except.ok.inj hinsert
    obtain ⟨hcore, hedges⟩ := (elementsMoved_setCore_iff hget).1 hup
    exact ⟨hroom,
      (NodeCore.elementsMoved_inputArrayInsert_iff hapart hnumbered hinput hindex hlt).1 hcore,
      (edgesMoved_raisedEdges_iff hg.edges.element).1 hedges⟩
  · intro h
    have hroom := h.room
    have hup : g.ElementsMoved id input (raised index) (i.arraySize + 1)
        { g.setCore id entry (entry.core.inputArrayInsert input index) with
          edges := g.raisedEdges id input index } := (elementsMoved_setCore_iff hget).2
      ⟨(NodeCore.elementsMoved_inputArrayInsert_iff hapart hnumbered hinput hindex
          (by omega)).2 h.strays,
        (edgesMoved_raisedEdges_iff hg.edges.element).2 h.apart⟩
    have hinsert := inputArrayInsert_eq hget hinput harray hindex (by omega)
    refine ⟨⟨_, hinsert, hup, restored_of_insert hg hget hinput harray hapart hindex h hinsert hup⟩,
      fun hlt => ⟨_, inputArrayRemove_eq hget hinput harray hlt (by omega), ?_⟩⟩
    exact (elementsMoved_setCore_iff hget).2
      ⟨NodeCore.elementsMoved_inputArrayRemove hapart hinput hlt (by omega) h.strays,
        edgesMoved_loweredEdges hg.edges.element⟩

end Operations

/-- The input that lists the sources of a multicam node, with two elements. -/
def sourcesInput : Input ℚ := ⟨"sources_in", .none, .none, InputFlags.array, 2⟩

/-- A node `(0, 0)` that feeds the given elements of the sources of a node `(1, 0)`. -/
def angles (elements : List ℤ) : List (GraphAction ℚ Plain) :=
  .addNode .new .plain :: .addNode (NodeCore.new.addInput sourcesInput) .plain ::
    elements.map fun e => .connect ⟨0, 0⟩ ⟨1, 0⟩ "sources_in" e

theorem losesNothing_one_angle :
    (run GraphRun.act GraphRun.start (angles [1])).graph.LosesNothing ⟨1, 0⟩ "sources_in" 2 0 ↔
      (run GraphRun.act GraphRun.start (angles [1])).graph.Shiftable ⟨1, 0⟩
        (NodeCore.new.addInput sourcesInput) "sources_in" 2 0 := by
  have hpermitted : Permitted GraphRun.act GraphRun.InRange GraphRun.start (angles [1]) :=
    ⟨trivial, trivial, ⟨by decide, by decide⟩, trivial⟩
  have hget : (run GraphRun.act GraphRun.start (angles [1])).graph.get ⟨1, 0⟩ =
      some ⟨NodeCore.new.addInput sourcesInput, .plain, 0⟩ := rfl
  exact losesNothing_iff (i := sourcesInput) (GraphRun.sound_run hpermitted) hget (by decide)
    (by decide) List.nodup_nil (fun _ _ => ⟨rfl, rfl⟩) (by decide) (by decide)

/-- A node feeds the first two elements; after an insertion before them it feeds only the third
one. -/
theorem insert_loses_angle : ¬ ∀ (g : Graph ℚ Plain) (carried : List (NodeId × NodeId))
    (id : NodeId) (entry : NodeEntry ℚ Plain) (input : String) (i : Input ℚ) (index : ℕ),
    g.Sound carried → g.get id = some entry → entry.core.getInput input = some i →
      i.isArray = true → entry.core.TracksApart → entry.core.Numbered input →
        index ≤ i.arraySize → i.arraySize ≤ 2 ^ 31 →
          g.LosesNothing id input i.arraySize index := by
  intro hall
  have hpermitted : Permitted GraphRun.act GraphRun.InRange GraphRun.start (angles [0, 1]) :=
    ⟨trivial, trivial, ⟨by decide, by decide⟩, ⟨by decide, by decide⟩, trivial⟩
  obtain ⟨⟨g', hinsert, hup, -⟩, -⟩ := hall (run GraphRun.act GraphRun.start (angles [0, 1])).graph
    _ ⟨1, 0⟩ ⟨NodeCore.new.addInput sourcesInput, .plain, 0⟩ "sources_in" sourcesInput 0
    (GraphRun.sound_run hpermitted) rfl (by decide) (by decide) List.nodup_nil
    (fun _ _ => ⟨rfl, rfl⟩) (by decide) (by decide)
  have hkept : (⟨⟨0, 0⟩, ⟨1, 0⟩, hashStr "sources_in", 1⟩ : Edge) ∈ g'.edges :=
    (hup.edges _).2 (.inr ⟨⟨⟨0, 0⟩, ⟨1, 0⟩, hashStr "sources_in", 0⟩, by decide,
      ⟨rfl, rfl⟩, 1, rfl, rfl⟩)
  have hedges : (⟨⟨0, 0⟩, ⟨1, 0⟩, hashStr "sources_in", 1⟩ : Edge) ∉
      (run GraphRun.act GraphRun.start (angles [0, 1])).graph.raisedEdges ⟨1, 0⟩ "sources_in"
        (0 : ℕ) := by
    decide
  have hget : (run GraphRun.act GraphRun.start (angles [0, 1])).graph.get ⟨1, 0⟩ =
      some ⟨NodeCore.new.addInput sourcesInput, .plain, 0⟩ := rfl
  rw [inputArrayInsert_eq (i := sourcesInput) hget (by decide) (by decide) (by decide)
    (by decide)] at hinsert
  obtain rfl := Except.ok.inj hinsert
  exact hedges hkept

end Graph

end Oak.Node
