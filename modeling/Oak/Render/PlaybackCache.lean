import Oak.Lib.Machine
import Oak.Render.StateFile

/-!
# What a playback cache offers

A cache is validated and invalidated range by range, and it takes over ranges from other caches as
passthroughs. It is asked for the parts of a range that are still to be rendered, and for the file
of a frame.

* `mark` follows the calls for one time: whether the time was validated since it was invalidated
  last.
* The file of a frame is named after the time, rounded to the timebase. The rounding is in floating
  point, and is a parameter.

## Main results

* `covered_invalidatedRanges`: the invalidated times of a range.
* `frameFilename_eq_none_iff`: the times that no file is offered for.
* `cache_run`: both, after every run.
-/

namespace Oak.Render

open Oak.Core Oak.Lib

variable {kind : CacheKind}

/-- The calls that change a cache, with the times at which its state is saved. -/
inductive CacheCall (kind : CacheKind) where
  | validate (range : CacheRange) (now : ℤ)
  | invalidate (range : CacheRange) (now : ℤ)
  | setPassthrough (other : PlaybackCache kind) (now : ℤ)

namespace PlaybackCache

/-- The ranges of the passthroughs. -/
def passed (c : PlaybackCache kind) : List CacheRange := c.passthroughs.map Prod.fst

/-- `invalidated_ranges`. -/
def invalidatedRanges (c : PlaybackCache kind) (within : CacheRange) : List CacheRange :=
  let zero : Ratio := .new 0 1
  let in_ := if within.in_ < zero then zero else within.in_
  let out := if within.out < zero then zero else within.out
  c.passed.foldl removeRange (c.validated.foldl removeRange (insertRange [] (.new in_ out)))

/-- `is_cached_at`. -/
def isCachedAt (l : List CacheRange) (t : Ratio) : Bool := l.any fun r => r.contains t

/-- `cache_path_name`: the directory, the uuid and the number of the frame. -/
def cachePathName (timestamp : Option Ratio → Ratio → ℤ) (c : PlaybackCache kind) (time : Ratio)
    (uuid : Uuid) : String × Uuid × ℤ := (c.diskDir, uuid, timestamp c.timebase time)

/-- `frame_filename`. -/
def frameFilename (timestamp : Option Ratio → Ratio → ℤ) (c : PlaybackCache kind) (time : Ratio) :
    Option (String × Uuid × ℤ) :=
  if !kind.isFrameHash then none
  else if isCachedAt c.validated time then some (c.cachePathName timestamp time c.uuid)
  else
    (c.passthroughs.find? fun p => p.1.contains time).map fun p =>
      c.cachePathName timestamp time p.2

/-- One call, of a cache and the state files. -/
def act (s : PlaybackCache kind × Disk) : CacheCall kind → PlaybackCache kind × Disk
  | .validate range now => s.1.validate range now s.2
  | .invalidate range now => s.1.invalidate range now s.2
  | .setPassthrough other now => s.1.setPassthrough other now s.2

end PlaybackCache

open PlaybackCache

/-- Whether the time `t` is valid after a call. -/
def mark (t : Ratio) (valid : Bool) : CacheCall kind → Bool
  | .validate range _ => valid || range.contains t
  | .invalidate range _ => valid && !range.contains t
  | .setPassthrough _ _ => valid

/-- The call validates the time, or takes it over from another cache. -/
def CacheCall.Offers (t : Ratio) : CacheCall kind → Prop
  | .validate range _ => range.contains t = true
  | .invalidate _ _ => False
  | .setPassthrough other _ => Covered other.validated t ∨ Covered other.passed t

/-! ### Queries -/

variable {c : PlaybackCache kind} {t : Ratio}

theorem covered_iff_any {l : List CacheRange} : isCachedAt l t = true ↔ Covered l t :=
  List.any_eq_true

/-- A time of the range, from zero on, is invalidated unless it is valid or passed through. -/
theorem covered_invalidatedRanges {within : CacheRange} (hzero : .new 0 1 ≤ t)
    (ht : within.contains t = true) : Covered (c.invalidatedRanges within) t ↔
      ¬Covered c.validated t ∧ ¬Covered c.passed t := by
  rw [Range.contains_iff] at ht
  dsimp only [invalidatedRanges]
  generalize hin : (if within.in_ < .new 0 1 then .new 0 1 else within.in_) = in_
  generalize hout : (if within.out < .new 0 1 then .new 0 1 else within.out) = out
  have hle : in_ ≤ t := by
    rw [← hin]
    split_ifs
    · exact hzero
    · exact ht.1
  have hlt : t < out := by
    rw [← hout, if_neg (hzero.trans_lt ht.2).not_gt]
    exact ht.2
  have hsingle : insertRange [] (Range.new in_ out) = [Range.new in_ out] := rfl
  have hstart : Parted (insertRange [] (Range.new in_ out)) := by
    rw [hsingle]
    exact List.pairwise_singleton _ _
  have hcovered : Covered (insertRange [] (Range.new in_ out)) t := by
    rw [hsingle, covered_cons, Range.new_of_le (hle.trans hlt.le), Range.contains_iff]
    exact Or.inl ⟨hle, hlt⟩
  obtain ⟨hparted, hvalid : _ ↔ Covered _ t ∧ ¬ Covered c.validated t⟩ := hstart.covered_removeAll
  obtain ⟨-, hpassed : _ ↔ Covered _ t ∧ ¬ Covered c.passed t⟩ := hparted.covered_removeAll
  rw [hpassed, hvalid, and_iff_right hcovered]

theorem covered_passed : Covered c.passed t ↔ ∃ p ∈ c.passthroughs, p.1.contains t = true := by
  simp only [Covered, PlaybackCache.passed, List.mem_map, exists_exists_and_eq_and]

theorem frameFilename_eq_none_iff (timestamp : Option Ratio → Ratio → ℤ)
    (hkind : kind.isFrameHash = true) : c.frameFilename timestamp t = none ↔
      ¬Covered c.validated t ∧ ¬Covered c.passed t := by
  rw [frameFilename, hkind, Bool.not_true, if_neg Bool.false_ne_true, covered_passed,
    ← covered_iff_any]
  split_ifs with hcached
  · exact iff_of_false nofun fun h => h.1 hcached
  · rw [Option.map_eq_none_iff, List.find?_eq_none, and_iff_right hcached]
    push Not
    exact forall₂_congr fun p _ => Iff.rfl

/-! ### Calls -/

theorem covered_act (s : PlaybackCache kind × Disk) (a : CacheCall kind) {valid : Bool}
    (h : Covered s.1.validated t ↔ valid = true) :
    Covered (act s a).1.validated t ↔ mark t valid a = true := by
  cases a with
  | validate range now =>
    rw [mark, Bool.or_eq_true, ← h]
    exact covered_insertRange
  | invalidate range now =>
    rw [mark, Bool.and_eq_true, Bool.not_eq_true', ← Bool.not_eq_true, ← h]
    dsimp only [PlaybackCache.act, PlaybackCache.invalidate]
    split_ifs with hempty
    · refine (and_iff_left_of_imp fun _ hcontains => ?_).symm
      rw [Range.contains_iff, hempty] at hcontains
      exact absurd (hcontains.1.trans_lt hcontains.2) (lt_irrefl _)
    · exact covered_removeRange s.1.apart
  | setPassthrough other now => exact h

theorem covered_run (s : PlaybackCache kind × Disk) (as : List (CacheCall kind)) {valid : Bool}
    (h : Covered s.1.validated t ↔ valid = true) :
    Covered (run act s as).1.validated t ↔ run (mark t) valid as = true := by
  induction as generalizing s valid with
  | nil => exact h
  | cons a as ih => exact ih (act s a) (covered_act s a h)

/-- The times that the cache offers, by itself or from another cache. -/
def Offered (c : PlaybackCache kind) (t : Ratio) : Prop :=
  Covered c.validated t ∨ Covered c.passed t

variable {s : PlaybackCache kind × Disk}

/-- Only a call that validates the time or takes it over makes the cache offer it. -/
theorem Offered.of_act {a : CacheCall kind} (h : Offered (act s a).1 t) :
    Offered s.1 t ∨ a.Offers t := by
  cases a with
  | validate range now =>
    rcases h with hvalid | hpassed
    · exact (covered_insertRange.1 hvalid).imp_left Or.inl
    · exact .inl (.inr hpassed)
  | invalidate range now =>
    dsimp only [PlaybackCache.act, PlaybackCache.invalidate] at h
    split_ifs at h
    · exact .inl h
    · refine .inl (h.imp (fun hvalid => ((covered_removeRange s.1.apart).1 hvalid).1) fun hp => ?_)
      obtain ⟨p, hmem, hcontains⟩ := covered_passed.1 hp
      exact covered_passed.2 ⟨p, List.mem_of_mem_filter hmem, hcontains⟩
  | setPassthrough other now =>
    rcases h with hvalid | hp
    · exact .inl (.inl hvalid)
    · obtain ⟨p, hmem, hcontains⟩ := covered_passed.1 hp
      rcases List.mem_append.1 hmem with hfirst | hother
      · rcases List.mem_append.1 hfirst with hold | hvalid
        · exact .inl (.inr (covered_passed.2 ⟨p, hold, hcontains⟩))
        · obtain ⟨r, hr, rfl⟩ := List.mem_map.1 hvalid
          exact .inr (.inl ⟨r, hr, hcontains⟩)
      · exact .inr (.inr (covered_passed.2 ⟨p, hother, hcontains⟩))

theorem not_offered_run {bs : List (CacheCall kind)} (h : ¬Offered s.1 t)
    (hbs : ∀ b ∈ bs, ¬b.Offers t) : ¬Offered (run act s bs).1 t := by
  induction bs generalizing s with
  | nil => exact h
  | cons b bs ih =>
    refine ih (fun hoffered => ?_) fun b' hb' => hbs b' (List.mem_cons_of_mem b hb')
    exact hoffered.of_act.elim h (hbs b List.mem_cons_self)

/-- An invalidated time is not offered: a passthrough that contains it goes as a whole. -/
theorem not_offered_invalidate {range : CacheRange} (now : ℤ) (ht : range.contains t = true) :
    ¬Offered (act s (.invalidate range now)).1 t := by
  have hrange := Range.contains_iff.1 ht
  have hne : range.in_ ≠ range.out := (hrange.1.trans_lt hrange.2).ne
  dsimp only [PlaybackCache.act, PlaybackCache.invalidate]
  rw [dif_neg hne]
  rintro (hvalid | hp)
  · exact ((covered_removeRange s.1.apart).1 hvalid).2 ht
  · obtain ⟨p, hmem, hcontains⟩ := covered_passed.1 hp
    have hkept := (List.mem_filter.1 hmem).2
    rw [Range.contains_iff] at hcontains
    have hoverlaps : overlaps p.1 range = true := by
      rw [overlaps, Bool.not_eq_true', Bool.or_eq_false_iff, decide_eq_false_iff_not,
        decide_eq_false_iff_not]
      exact ⟨fun hle => absurd (hrange.2.trans_le hle) (not_lt.2 hcontains.1),
        fun hle => absurd (hcontains.2.trans_le hle) (not_lt.2 hrange.1)⟩
    rw [hoverlaps] at hkept
    exact nomatch hkept

/-! ### Runs -/

/-- After every run, a time from zero on in the range that is asked for is invalidated exactly when
it was not validated since it was last invalidated and no passthrough contains it; and from an
invalidation of a time on, no file is offered for it until it is validated again or a passthrough
that contains it is set. -/
theorem cache_run (timestamp : Option Ratio → Ratio → ℤ) (uuid : Uuid) (diskDir : String)
    (disk : Disk) (as : List (CacheCall kind)) :
    (∀ within t, .new 0 1 ≤ t → within.contains t = true →
      (Covered ((run act (new uuid diskDir, disk) as).1.invalidatedRanges within) t ↔
        run (mark t) false as = false ∧
          ¬∃ p ∈ (run act (new uuid diskDir, disk) as).1.passthroughs, p.1.contains t = true)) ∧
    ∀ range now t (bs : List (CacheCall kind)), range.contains t = true →
      (∀ b ∈ bs, ¬b.Offers t) →
      (run act (new uuid diskDir, disk)
        (as ++ .invalidate range now :: bs)).1.frameFilename timestamp t = none := by
  constructor
  · intro within t hzero ht
    have hstart : Covered (new uuid diskDir : PlaybackCache kind).validated t ↔ false = true :=
      iff_of_false covered_nil Bool.false_ne_true
    rw [covered_invalidatedRanges hzero ht, covered_run (new uuid diskDir, disk) as hstart,
      Bool.not_eq_true, covered_passed]
  · intro range now t bs ht hbs
    by_cases hkind : kind.isFrameHash = true
    · rw [run_append, run_cons, frameFilename_eq_none_iff timestamp hkind, ← not_or]
      exact not_offered_run (not_offered_invalidate now ht) hbs
    · rw [frameFilename, Bool.eq_false_iff.2 hkind]
      rfl

/-- The range of ten seconds from zero on. -/
def tenSeconds : CacheRange := .new (.new 0 1) (.new 10 1)

def zeroUuid : Uuid := .ofBytes [0, 0, 0, 0, 0, 0, 0, 0, 0, 0, 0, 0, 0, 0, 0, 0] rfl

def otherUuid : Uuid := .ofBytes [1, 0, 0, 0, 0, 0, 0, 0, 0, 0, 0, 0, 0, 0, 0, 0] rfl

/-- A cache of another node in which the ten seconds are valid. -/
def otherCache : PlaybackCache .videoFrame :=
  { (new otherUuid "/cache" : PlaybackCache .videoFrame) with
    validated := [tenSeconds]
    apart := List.pairwise_singleton _ _ }

/-- After the ten seconds were invalidated and taken over from another cache, the frame at five
seconds is offered, although the cache was not validated again. -/
theorem offered_from_other : ¬∀ (range : CacheRange) (now : ℤ) (t : Ratio)
    (bs : List (CacheCall .videoFrame)), range.contains t = true →
    (∀ b ∈ bs, ∀ valid, mark t valid b = true → valid = true) →
    (run act (new zeroUuid "/cache", fun _ _ => none)
      (.invalidate range now :: bs)).1.frameFilename (fun _ _ => 0) t = none := by
  intro h
  have hnone := h tenSeconds 0 (.new 5 1) [.setPassthrough otherCache 0] (by decide)
    (fun b hb valid hvalid => by rwa [List.mem_singleton.1 hb] at hvalid)
  refine ((frameFilename_eq_none_iff (fun _ _ => 0) rfl).1 hnone).2 (covered_passed.2 ?_)
  exact ⟨(tenSeconds, otherUuid), List.mem_append_left _ (List.mem_append_right _
    (List.mem_singleton_self _)), by decide⟩

theorem cache_run_ten :
    (run act (new zeroUuid "/cache", fun _ _ => none)
      ([.validate tenSeconds 0] ++ .invalidate tenSeconds 0 ::
        [(.invalidate tenSeconds 0 : CacheCall .videoFrame)])).1.frameFilename (fun _ _ => 0)
          (.new 5 1) = none := by
  refine (cache_run (fun _ _ => 0) zeroUuid "/cache" (fun _ _ => none) [.validate tenSeconds 0]).2
    tenSeconds 0 (.new 5 1) [.invalidate tenSeconds 0] (by decide) fun b hb => ?_
  rw [List.mem_singleton.1 hb]
  exact not_false

end Oak.Render
