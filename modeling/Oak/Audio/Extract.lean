import Mathlib.Algebra.Order.Ring.Int
import Mathlib.Data.List.Basic
import Mathlib.Data.List.Induction
import Mathlib.Data.List.OfFn
import Mathlib.Order.Bounds.Basic

/-!
# Extracting a waveform

`append_pending` and `emit_points` of `oak-audio/src/waveform.rs`, and the loop of `extract` that
feeds them. Interleaved samples are queued in one plane for each channel, and a point is emitted for
every so many samples that have gathered.

* `Amplitude F` is an `f32`, where `none` stands for a NaN.
* `planes frames` is what is queued when these frames were not emitted yet.
* `IsExtremes window p`: the point has the extremes of a window.

## Main results

* `emitLoop_extracted`: the loop of `emit_points`, by induction on the samples that are left.
* `extractPoints_extremes`: the points do not depend on how the stream is cut.
-/

namespace Oak.Audio

variable {F : Type*}

/-- A float; `none` is a NaN, and the order has no other equal values than equal ones. -/
abbrev Amplitude (F : Type*) := Option F

namespace Amplitude

/-- `f32::min`: a NaN gives way to the other value. -/
def min [LinearOrder F] (a b : Amplitude F) : Amplitude F := Option.merge Min.min a b

/-- `f32::max`. -/
def max [LinearOrder F] (a b : Amplitude F) : Amplitude F := Option.merge Max.max a b

end Amplitude

/-- `SamplePerChannel`. -/
structure SamplePerChannel (F : Type*) where
  min : Amplitude F
  max : Amplitude F
  deriving DecidableEq, Repr

instance [Zero F] : Inhabited (SamplePerChannel F) := ⟨⟨some 0, some 0⟩⟩

/-- The queued samples and the points. -/
structure Extraction (F : Type*) where
  pending : List (List (Amplitude F))
  points : List (SamplePerChannel F)
  deriving DecidableEq, Repr

/-- A sample with its place in the chunk goes to the plane of its channel. -/
def pushSample (channels : ℕ) (pending : List (List (Amplitude F))) (p : Amplitude F × ℕ) :
    List (List (Amplitude F)) :=
  pending.modify (p.2 % channels) fun plane => plane ++ [p.1]

/-- `append_pending`. -/
def appendPending (channels : ℕ) (interleaved : List (Amplitude F))
    (pending : List (List (Amplitude F))) : List (List (Amplitude F)) :=
  let pending := if pending.isEmpty then List.replicate channels [] else pending
  interleaved.zipIdx.foldl (pushSample (Max.max channels 1)) pending

/-- The point of the first `n` samples of a channel, which leave their plane. -/
def emitChannel [LinearOrder F] (channels n point : ℕ) (s : Extraction F) (ch : ℕ) : Extraction F :=
  match s.pending.getD ch [] with
  | [] => s
  | first :: plane =>
    ⟨s.pending.set ch ((first :: plane).drop n),
      s.points.set (point * channels + ch)
        ⟨(plane.take (n - 1)).foldl Amplitude.min first,
          (plane.take (n - 1)).foldl Amplitude.max first⟩⟩

/-- One pass of the loop of `emit_points`. -/
def emitPoint [LinearOrder F] [Zero F] (channels n : ℕ) (s : Extraction F) : Extraction F :=
  (List.range channels).foldl (emitChannel channels n (s.points.length / channels))
    { s with points := s.points ++ List.replicate channels default }

/-- The loop of `emit_points`. As long as points have samples it ends; `fuel` bounds its passes. -/
def emitLoop [LinearOrder F] [Zero F] (channels samplesPerPoint : ℕ) (flush : Bool) :
    ℕ → Extraction F → Extraction F
  | 0, s => s
  | fuel + 1, s =>
    let available := (s.pending.getD 0 []).length
    if available = 0 ∨ flush = false ∧ available < samplesPerPoint then s
    else emitLoop channels samplesPerPoint flush fuel
      (emitPoint channels (Min.min available samplesPerPoint) s)

/-- `emit_points`. -/
def emitPoints [LinearOrder F] [Zero F] (channels samplesPerPoint : ℕ) (flush : Bool)
    (s : Extraction F) : Extraction F :=
  if s.pending.isEmpty then s
  else emitLoop channels samplesPerPoint flush ((s.pending.getD 0 []).length + 1) s

/-- The loop of `extract` over the chunks that are decoded. -/
def extractPoints [LinearOrder F] [Zero F] (channels samplesPerPoint : ℕ)
    (chunks : List (List (Amplitude F))) : Extraction F :=
  emitPoints channels samplesPerPoint true (chunks.foldl (fun s chunk =>
    emitPoints channels samplesPerPoint false
      { s with pending := appendPending channels chunk s.pending }) ⟨[], []⟩)

/-! ### What is queued -/

variable {C S n : ℕ} {frames queue chunk : List (Fin C → Amplitude F)}
  {points : List (SamplePerChannel F)}

/-- The samples of whole frames, one frame behind the other. -/
def interleave (frames : List (Fin C → Amplitude F)) : List (Amplitude F) :=
  frames.flatMap List.ofFn

/-- The samples of frames, in one plane for each channel. -/
def planes (frames : List (Fin C → Amplitude F)) : List (List (Amplitude F)) :=
  List.ofFn fun ch => frames.map fun frame => frame ch

theorem getD_planes (frames : List (Fin C → Amplitude F)) (ch : Fin C) :
    (planes frames).getD ch [] = frames.map fun frame => frame ch := by
  simp [planes]

/-- The samples of one frame go to the ends of their planes. -/
theorem foldl_frame (queue : List (Fin C → Amplitude F)) (frame : Fin C → Amplitude F) (k : ℕ)
    {i : ℕ} (hi : i ≤ C) :
    (((List.ofFn frame).take i).zipIdx (k * C)).foldl (pushSample C) (planes queue) =
      List.ofFn fun ch : Fin C => (queue.map fun frame => frame ch) ++
        if (ch : ℕ) < i then [frame ch] else [] := by
  induction i with
  | zero => simp [planes]
  | succ i ih =>
    have hlt : i < (List.ofFn frame).length := by rw [List.length_ofFn]; omega
    have hplace : (k * C + i) % C = i := by rw [Nat.mul_add_mod_of_lt (by omega)]
    rw [List.take_succ_eq_append_getElem hlt, List.zipIdx_append, List.foldl_append, ih (by omega)]
    simp only [List.length_take, List.length_ofFn, List.zipIdx_singleton, List.foldl_cons,
      List.foldl_nil, pushSample, min_eq_left (by omega : i ≤ C), hplace, List.getElem_ofFn]
    refine List.ext_getElem (by simp) fun j h₁ h₂ => ?_
    rw [List.getElem_modify]
    simp only [List.getElem_ofFn]
    by_cases hj : i = j
    · subst hj
      simp
    · have hiff : j < i + 1 ↔ j < i := by omega
      rw [if_neg hj]
      simp only [hiff]

theorem foldl_frames (queue chunk : List (Fin C → Amplitude F)) (k : ℕ) :
    ((interleave chunk).zipIdx (k * C)).foldl (pushSample C) (planes queue) =
      planes (queue ++ chunk) := by
  induction chunk generalizing queue k with
  | nil => simp [interleave]
  | cons frame chunk ih =>
    have hframe := foldl_frame queue frame k le_rfl
    rw [List.take_of_length_le (by rw [List.length_ofFn])] at hframe
    have hplanes : (List.ofFn fun ch : Fin C => (queue.map fun frame => frame ch) ++
        if (ch : ℕ) < C then [frame ch] else []) = planes (queue ++ [frame]) := by
      simp [planes]
    have hnext : k * C + (List.ofFn frame).length = (k + 1) * C := by
      rw [List.length_ofFn, Nat.succ_mul]
    have hrest := ih (queue ++ [frame]) (k + 1)
    rw [List.append_assoc, List.singleton_append] at hrest
    rw [interleave, List.flatMap_cons, List.zipIdx_append, List.foldl_append, hframe, hplanes,
      hnext]
    exact hrest

/-- A chunk of whole frames is queued behind what was queued. -/
theorem appendPending_planes (hC : 0 < C) :
    appendPending C (interleave chunk) (planes queue) = planes (queue ++ chunk) := by
  have hne : (planes queue).isEmpty = false := by
    simp [planes, List.ofFn_eq_nil_iff]
    omega
  have hframes := foldl_frames queue chunk 0
  rw [Nat.zero_mul] at hframes
  rw [appendPending, hne, max_eq_left hC]
  exact hframes

theorem appendPending_nil (hC : 0 < C) :
    appendPending C (interleave chunk) [] = planes chunk := by
  have hframes := foldl_frames [] chunk 0
  have hplanes : planes ([] : List (Fin C → Amplitude F)) = List.replicate C [] := by
    simp [planes, List.ofFn_const]
  rw [Nat.zero_mul, hplanes] at hframes
  rw [appendPending, max_eq_left hC]
  exact hframes

/-! ### Points -/

variable [LinearOrder F]

/-- The extremes of the samples of a window, in order. -/
def extremes : List (Amplitude F) → SamplePerChannel F
  | [] => ⟨none, none⟩
  | first :: rest => ⟨rest.foldl Amplitude.min first, rest.foldl Amplitude.max first⟩

/-- The points of a window of frames. -/
def windowPoints (window : List (Fin C → Amplitude F)) : List (SamplePerChannel F) :=
  List.ofFn fun ch => extremes (window.map fun frame => frame ch)

variable [Zero F] {k : ℕ}

/-- The first channels of a point. -/
theorem foldl_emitChannel (hn : 0 < n) (hle : n ≤ queue.length) {point : ℕ}
    (hpoints : points.length = point * C) (hk : k ≤ C) :
    (List.range k).foldl (emitChannel C n point)
        ⟨planes queue, points ++ List.replicate C default⟩ =
      ⟨List.ofFn fun ch : Fin C =>
          if (ch : ℕ) < k then (queue.drop n).map fun frame => frame ch
          else queue.map fun frame => frame ch,
        points ++ List.ofFn fun ch : Fin C =>
          if (ch : ℕ) < k then extremes ((queue.take n).map fun frame => frame ch) else default⟩ := by
  induction k with
  | zero => simp [planes, List.ofFn_const]
  | succ k ih =>
    obtain ⟨frame, rest, rfl⟩ : ∃ frame rest, queue = frame :: rest :=
      List.exists_cons_of_length_pos (by omega)
    have hkC : k < C := hk
    have hplane : (List.ofFn fun ch : Fin C => if (ch : ℕ) < k then
        ((frame :: rest).drop n).map fun frame => frame ch
        else (frame :: rest).map fun frame => frame ch).getD k [] =
          frame ⟨k, hkC⟩ :: rest.map fun frame => frame ⟨k, hkC⟩ := by
      simp [List.getD_eq_getElem?_getD, hkC]
    rw [List.range_succ, List.foldl_append, ih (by omega), List.foldl_cons, List.foldl_nil,
      emitChannel]
    simp only [hplane]
    refine congrArg₂ Extraction.mk ?_ ?_
    · refine List.ext_getElem (by simp) fun j h₁ h₂ => ?_
      rw [List.getElem_set]
      simp only [List.getElem_ofFn]
      by_cases hj : k = j
      · subst hj
        simp
      · have hiff : j < k + 1 ↔ j < k := by omega
        rw [if_neg hj]
        simp only [hiff]
    · rw [List.set_append_right _ _ (by omega), hpoints, Nat.add_sub_cancel_left]
      congr 1
      refine List.ext_getElem (by simp) fun j h₁ h₂ => ?_
      rw [List.getElem_set]
      simp only [List.getElem_ofFn]
      by_cases hj : k = j
      · subst hj
        obtain ⟨n, rfl⟩ := Nat.exists_eq_succ_of_ne_zero hn.ne'
        simp [extremes]
      · have hiff : j < k + 1 ↔ j < k := by omega
        rw [if_neg hj]
        simp only [hiff]

theorem emitPoint_planes (hC : 0 < C) (hn : 0 < n) (hle : n ≤ queue.length)
    (hpoints : points.length = k * C) :
    emitPoint C n ⟨planes queue, points⟩ =
      ⟨planes (queue.drop n), points ++ windowPoints (queue.take n)⟩ := by
  have hpoint : points.length / C = k := by rw [hpoints, Nat.mul_div_cancel _ hC]
  have hemit := foldl_emitChannel hn hle hpoints le_rfl
  simp only [emitPoint, hpoint, hemit, Fin.is_lt, if_true]
  rfl

/-! ### The loop -/

/-- The frames of the point `k`. -/
def windowOf (S : ℕ) (frames : List (Fin C → Amplitude F)) (k : ℕ) : List (Fin C → Amplitude F) :=
  (frames.drop (k * S)).take S

/-- The first `k` points. -/
def pointsUntil (S : ℕ) (frames : List (Fin C → Amplitude F)) (k : ℕ) :
    List (SamplePerChannel F) :=
  (List.range k).flatMap fun i => windowPoints (windowOf S frames i)

/-- What was extracted when `k` points were emitted. -/
def extracted (S : ℕ) (frames : List (Fin C → Amplitude F)) (k : ℕ) : Extraction F :=
  ⟨planes (frames.drop (k * S)), pointsUntil S frames k⟩

omit [Zero F] in
theorem length_pointsUntil (k : ℕ) : (pointsUntil S frames k).length = k * C := by
  simp [pointsUntil, windowPoints, List.length_flatMap, List.map_const']

omit [Zero F] in
theorem pointsUntil_succ (k : ℕ) : pointsUntil S frames (k + 1) =
    pointsUntil S frames k ++ windowPoints (windowOf S frames k) := by
  rw [pointsUntil, List.range_succ, List.flatMap_append, List.flatMap_singleton]
  rfl

omit [Zero F] in
theorem getElem?_pointsUntil (hk : k < n) (ch : Fin C) :
    (pointsUntil S frames n)[k * C + ch]? =
      some (extremes ((windowOf S frames k).map fun frame => frame ch)) := by
  induction n with
  | zero => omega
  | succ n ih =>
    rw [pointsUntil_succ]
    rcases Nat.lt_succ_iff_lt_or_eq.1 hk with hlt | rfl
    · have hle : (k + 1) * C ≤ n * C := Nat.mul_le_mul_right C hlt
      rw [Nat.succ_mul] at hle
      rw [List.getElem?_append_left (by rw [length_pointsUntil]; omega), ih hlt]
    · rw [List.getElem?_append_right (by rw [length_pointsUntil]; omega), length_pointsUntil,
        Nat.add_sub_cancel_left, windowPoints, List.getElem?_ofFn, dif_pos ch.isLt]

omit [Zero F] in
theorem length_extracted (hC : 0 < C) (k : ℕ) :
    ((extracted S frames k).pending.getD 0 []).length = frames.length - k * S := by
  have hplane := getD_planes (frames.drop (k * S)) (⟨0, hC⟩ : Fin C)
  rw [extracted, hplane, List.length_map, List.length_drop]

theorem emitPoint_extracted (hC : 0 < C) (hS : 0 < S) (hmore : k * S < frames.length) :
    emitPoint C (Min.min (frames.length - k * S) S) (extracted S frames k) =
      extracted S frames (k + 1) := by
  rw [extracted, emitPoint_planes hC (by omega) (by rw [List.length_drop]; omega)
    (length_pointsUntil k), extracted, pointsUntil_succ, windowOf, List.drop_drop, Nat.succ_mul]
  rcases le_total S (frames.length - k * S) with hfull | hpart
  · rw [min_eq_right hfull]
  · -- the last point has what is left
    have htake : (frames.drop (k * S)).take (frames.length - k * S) =
        (frames.drop (k * S)).take S := by
      rw [List.take_of_length_le (by simp), List.take_of_length_le (by simpa using hpart)]
    have hdrop : frames.drop (k * S + (frames.length - k * S)) = frames.drop (k * S + S) := by
      rw [List.drop_of_length_le (by omega), List.drop_of_length_le (by omega)]
    rw [min_eq_left hpart, htake, hdrop]

theorem emitLoop_done (hC : 0 < C) (flush : Bool) (fuel : ℕ) (hdone : frames.length ≤ k * S) :
    emitLoop C S flush fuel (extracted S frames k) = extracted S frames k := by
  cases fuel with
  | zero => rfl
  | succ fuel =>
    rw [emitLoop, length_extracted hC, Nat.sub_eq_zero_of_le hdone]
    exact if_pos (.inl rfl)

/-- The loop emits a point for each window that is full and, when it flushes, for the rest. -/
theorem emitLoop_extracted (hC : 0 < C) (hS : 0 < S) (flush : Bool) {k fuel : ℕ}
    (hk : k * S ≤ frames.length) (hfuel : frames.length - k * S < fuel) :
    emitLoop C S flush fuel (extracted S frames k) =
      extracted S frames (if flush then (frames.length + S - 1) / S else frames.length / S) := by
  induction fuel generalizing k with
  | zero => omega
  | succ fuel ih =>
    have hfloor : frames.length < (k + 1) * S → frames.length / S = k := fun hlt =>
      Nat.div_eq_of_lt_le hk hlt
    rcases hk.eq_or_lt with hend | hmore
    · -- all windows were full
      have hceil : (frames.length + S - 1) / S = k := by
        refine Nat.div_eq_of_lt_le (by omega) ?_
        rw [Nat.succ_mul]
        omega
      rw [emitLoop_done hC flush (fuel + 1) hend.ge, hceil, hfloor (by rw [Nat.succ_mul]; omega)]
      split_ifs <;> rfl
    by_cases hfull : (k + 1) * S ≤ frames.length
    · have hrest := ih hfull (by rw [Nat.succ_mul] at hfull ⊢; omega)
      rw [emitLoop, length_extracted hC, if_neg, emitPoint_extracted hC hS hmore, hrest]
      rw [Nat.succ_mul] at hfull
      rintro (hzero | ⟨-, hlt⟩) <;> omega
    · rw [not_le] at hfull
      cases flush with
      | false =>
        rw [emitLoop, length_extracted hC, if_pos (.inr ⟨rfl, by rw [Nat.succ_mul] at hfull; omega⟩),
          if_neg Bool.false_ne_true, hfloor hfull]
      | true =>
        have hceil : (frames.length + S - 1) / S = k + 1 := by
          refine Nat.div_eq_of_lt_le (by rw [Nat.succ_mul]; omega) ?_
          rw [Nat.succ_mul (k + 1)]
          omega
        rw [emitLoop, length_extracted hC, if_neg, emitPoint_extracted hC hS hmore,
          emitLoop_done hC true fuel hfull.le, if_pos rfl, hceil]
        rintro (hzero | ⟨hfalse, -⟩)
        · omega
        · exact Bool.false_ne_true hfalse.symm

/-! ### The stream -/

omit [Zero F] in
theorem extracted_append (chunk : List (Fin C → Amplitude F)) (hk : k * S ≤ frames.length) :
    extracted S (frames ++ chunk) k =
      ⟨planes (frames.drop (k * S) ++ chunk), pointsUntil S frames k⟩ := by
  rw [extracted, List.drop_append_of_le_length hk]
  refine congrArg (Extraction.mk _) (List.flatMap_congr fun i hi => ?_)
  have hfull : (i + 1) * S ≤ frames.length :=
    (Nat.mul_le_mul_right S (List.mem_range.1 hi)).trans hk
  rw [Nat.succ_mul] at hfull
  rw [windowOf, windowOf, List.drop_append_of_le_length (by omega),
    List.take_append_of_le_length (by rw [List.length_drop]; omega)]

theorem emitPoints_extracted (hC : 0 < C) (hS : 0 < S) (flush : Bool) (hk : k * S ≤ frames.length) :
    emitPoints C S flush (extracted S frames k) =
      extracted S frames (if flush then (frames.length + S - 1) / S else frames.length / S) := by
  have hne : (extracted S frames k).pending.isEmpty = false := by
    simp [extracted, planes, List.ofFn_eq_nil_iff]
    omega
  rw [emitPoints, hne, length_extracted hC]
  exact emitLoop_extracted hC hS flush hk (Nat.lt_succ_self _)

theorem foldl_chunks (hC : 0 < C) (hS : 0 < S) (chunks : List (List (Fin C → Amplitude F))) :
    (chunks.map interleave).foldl (fun s chunk => emitPoints C S false
        { s with pending := appendPending C chunk s.pending }) ⟨[], []⟩ =
      if chunks = [] then ⟨[], []⟩
      else extracted S chunks.flatten (chunks.flatten.length / S) := by
  induction chunks using List.reverseRecOn with
  | nil => rfl
  | append_singleton chunks chunk ih =>
    have hne : chunks ++ [chunk] ≠ [] := by simp
    rw [List.map_append, List.map_singleton, List.foldl_append, ih, if_neg hne,
      List.flatten_append, List.flatten_singleton, List.foldl_cons, List.foldl_nil]
    have hk : chunks.flatten.length / S * S ≤ chunks.flatten.length := Nat.div_mul_le_self _ _
    split_ifs with hnil
    · -- nothing was queued before
      have hfirst : (⟨planes chunk, []⟩ : Extraction F) = extracted S chunk 0 := by
        rw [extracted, Nat.zero_mul, List.drop_zero]
        rfl
      rw [appendPending_nil hC, hfirst, emitPoints_extracted hC hS false (by omega), hnil]
      rfl
    · have happend := extracted_append chunk hk
      have hle := hk.trans (List.length_append ▸ Nat.le_add_right _ chunk.length :
        chunks.flatten.length ≤ (chunks.flatten ++ chunk).length)
      rw [extracted]
      simp only [appendPending_planes hC, ← happend]
      rw [emitPoints_extracted hC hS false hle]
      rfl

/-- The number of points of a stream of `N` frames. -/
def pointCount (N S : ℕ) : ℕ := (N + S - 1) / S

theorem extractPoints_eq (hC : 0 < C) (hS : 0 < S) (chunks : List (List (Fin C → Amplitude F))) :
    (∀ plane ∈ (extractPoints C S (chunks.map interleave)).pending, plane = []) ∧
      (extractPoints C S (chunks.map interleave)).points =
        pointsUntil S chunks.flatten (pointCount chunks.flatten.length S) := by
  rw [extractPoints, pointCount, foldl_chunks hC hS]
  split_ifs with hnil
  · have hzero : (0 + S - 1) / S = 0 := Nat.div_eq_of_lt (by omega)
    rw [hnil]
    refine ⟨by simp [emitPoints], ?_⟩
    rw [List.flatten_nil, List.length_nil, hzero]
    rfl
  · rw [emitPoints_extracted hC hS true (Nat.div_mul_le_self _ _), if_pos rfl]
    refine ⟨fun plane hplane => ?_, rfl⟩
    have hdone : chunks.flatten.length ≤ (chunks.flatten.length + S - 1) / S * S := by
      have hlt := Nat.lt_div_mul_add hS (a := chunks.flatten.length + S - 1)
      omega
    obtain ⟨ch, rfl⟩ := (List.mem_ofFn' _ _).1 hplane
    rw [List.drop_of_length_le hdone]
    rfl

/-! ### Extremes -/

/-- The least of the samples that are no NaN, or a NaN when there is none. -/
def LeastOf (window : List (Amplitude F)) : Amplitude F → Prop
  | none => ∀ a, some a ∉ window
  | some m => IsLeast {a | some a ∈ window} m

/-- The greatest of the samples that are no NaN, or a NaN when there is none. -/
def GreatestOf (window : List (Amplitude F)) : Amplitude F → Prop
  | none => ∀ a, some a ∉ window
  | some m => IsGreatest {a | some a ∈ window} m

section Extremes

omit [Zero F]

variable {window : List (Amplitude F)} {m : Amplitude F}

omit [LinearOrder F] in
theorem setOf_concat_some (window : List (Amplitude F)) (a : F) :
    {b | some b ∈ window ++ [some a]} = insert a {b | some b ∈ window} := by
  ext b
  simp [or_comm]

omit [LinearOrder F] in
theorem setOf_concat_none (window : List (Amplitude F)) :
    {b | some b ∈ window ++ [none]} = {b | some b ∈ window} := by
  ext b
  simp

omit [LinearOrder F] in
theorem setOf_eq_empty (h : ∀ a, some a ∉ window) : {b | some b ∈ window} = ∅ :=
  Set.eq_empty_of_forall_notMem h

theorem LeastOf.concat (h : LeastOf window m) (a : Amplitude F) :
    LeastOf (window ++ [a]) (Amplitude.min m a) := by
  cases a with
  | none =>
    have hm : Amplitude.min m none = m := by cases m <;> rfl
    rw [hm]
    cases m with
    | none => exact fun b hb => h b (by simpa using hb)
    | some m => exact (congrArg (IsLeast · m) (setOf_concat_none window)).mpr h
  | some a =>
    cases m with
    | none =>
      have hset := setOf_concat_some window a
      rw [setOf_eq_empty h] at hset
      exact (congrArg (IsLeast · a) hset).mpr (by simp)
    | some m =>
      have hleast : IsLeast (insert a {b | some b ∈ window}) (Min.min a m) := h.insert a
      rw [min_comm] at hleast
      exact (congrArg (IsLeast · _) (setOf_concat_some window a)).mpr hleast

theorem GreatestOf.concat (h : GreatestOf window m) (a : Amplitude F) :
    GreatestOf (window ++ [a]) (Amplitude.max m a) := by
  cases a with
  | none =>
    have hm : Amplitude.max m none = m := by cases m <;> rfl
    rw [hm]
    cases m with
    | none => exact fun b hb => h b (by simpa using hb)
    | some m => exact (congrArg (IsGreatest · m) (setOf_concat_none window)).mpr h
  | some a =>
    cases m with
    | none =>
      have hset := setOf_concat_some window a
      rw [setOf_eq_empty h] at hset
      exact (congrArg (IsGreatest · a) hset).mpr (by simp)
    | some m =>
      have hgreatest : IsGreatest (insert a {b | some b ∈ window}) (Max.max a m) := h.insert a
      rw [max_comm] at hgreatest
      exact (congrArg (IsGreatest · _) (setOf_concat_some window a)).mpr hgreatest

/-- The loop over the samples of a window finds their extremes. -/
theorem extremes_spec (first : Amplitude F) (rest : List (Amplitude F)) :
    LeastOf (first :: rest) (extremes (first :: rest)).min ∧
      GreatestOf (first :: rest) (extremes (first :: rest)).max := by
  induction rest using List.reverseRecOn with
  | nil => cases first <;> simp [extremes, LeastOf, GreatestOf]
  | append_singleton rest a ih =>
    rw [extremes, List.foldl_append, List.foldl_append, ← List.cons_append]
    exact ⟨ih.1.concat a, ih.2.concat a⟩

end Extremes

/-- However a stream of whole frames is cut into chunks, each channel gets a point for every window
of `S` frames, the last of which may be shorter, with the extremes of the window; and nothing stays
queued. -/
theorem extractPoints_extremes (hC : 0 < C) (hS : 0 < S)
    (chunks : List (List (Fin C → Amplitude F))) :
    (∀ plane ∈ (extractPoints C S (chunks.map interleave)).pending, plane = []) ∧
      (extractPoints C S (chunks.map interleave)).points.length =
        pointCount chunks.flatten.length S * C ∧
      ∀ k < pointCount chunks.flatten.length S, ∀ ch : Fin C,
        ∃ p, (extractPoints C S (chunks.map interleave)).points[k * C + ch]? = some p ∧
          LeastOf ((windowOf S chunks.flatten k).map fun frame => frame ch) p.min ∧
          GreatestOf ((windowOf S chunks.flatten k).map fun frame => frame ch) p.max := by
  obtain ⟨hpending, hpoints⟩ := extractPoints_eq hC hS chunks
  refine ⟨hpending, by rw [hpoints, length_pointsUntil], fun k hk ch => ?_⟩
  refine ⟨_, hpoints ▸ getElem?_pointsUntil hk ch, ?_⟩
  have hmore : k * S < chunks.flatten.length := by
    rw [pointCount, Nat.lt_div_iff_mul_lt hS] at hk
    omega
  obtain ⟨frame, rest, hwindow⟩ : ∃ frame rest, windowOf S chunks.flatten k = frame :: rest :=
    List.exists_cons_of_length_pos (by rw [windowOf, List.length_take, List.length_drop]; omega)
  rw [hwindow, List.map_cons]
  exact extremes_spec _ _

/-- Three samples of one channel in two chunks, two for each point. -/
theorem extractPoints_extremes_three :
    (extractPoints 1 2 ([[fun _ => some 3], [fun _ => some 1, fun _ => some 2]].map
      (interleave : List (Fin 1 → Amplitude ℤ) → _))).points.length = 2 * 1 :=
  (extractPoints_extremes Nat.one_pos Nat.two_pos _).2.1

end Oak.Audio
