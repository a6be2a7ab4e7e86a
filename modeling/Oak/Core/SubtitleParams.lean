import Oak.Core.ReduceFraction
import Oak.Core.XmlReader

/-!
# Subtitle parameters

`SubtitleParams` of `oak-core/src/subtitleparams.rs` as it is saved to XML and loaded from it. The
arithmetic on times is that of a release build, which wraps around.

* `RoundTrips p`: what was saved is loaded as it was, and saved as the same text again.

## Main results

* `rationalReduce_eq_self_iff`: a stored time is reduced to itself when its denominator is not
  negative.
* `loadXml_saveXml_iff`: no text makes `load_xml` panic, and when a value makes the round trip.
-/

namespace Oak.Core.Subtitles

open Oak.Lib Text

/-- A rational time: numerator and denominator. -/
abbrev Time := Int32 × Int32

/-- `Subtitle`. -/
structure Subtitle where
  inTime : Time
  outTime : Time
  text : Text
  deriving DecidableEq

/-- `SubtitleParams`. -/
structure SubtitleParams where
  streamIndex : Int32
  enabled : Bool
  subtitles : List Subtitle
  deriving DecidableEq

/-! ### Times -/

/-- `fix_signs` of `rational_reduce`. -/
def fixSigns (num den : Int32) : Time :=
  if den < 0 then (-num, -den)
  else if den = 0 then (0, den)
  else if num = 0 then (num, 1)
  else (num, den)

/-- `i64_gcd`. -/
def i64Gcd (t : Time) : ℤ := gcdLoop (magnitude t.1.toInt) (magnitude t.2.toInt)

/-- `rational_reduce`. -/
def rationalReduce (num den : Int32) : Time :=
  let fixed := fixSigns num den
  if fixed.2 ≠ 0 then
    let gcd := i64Gcd fixed
    if 0 < gcd then
      (Int32.ofInt (fixed.1.toInt.tdiv gcd), Int32.ofInt (fixed.2.toInt.tdiv gcd))
    else fixed
  else fixed

variable (n : Int32)

/-- The digits of an integer. -/
def digits : Text := (toString n.toInt).toList

/-- `rational_to_string`. -/
def rationalToString (t : Time) : Text := digits t.1 ++ '/' :: digits t.2

/-- `str::parse` for an integer of 32 bits. -/
def parseI32 (s : Text) : Option Int32 :=
  (parseInt s).bind fun i => if -2 ^ 31 ≤ i ∧ i < 2 ^ 31 then some (Int32.ofInt i) else none

/-- `parse_lenient`. -/
def parseLenient (s : Text) : Int32 := (parseI32 s).getD 0

/-- `rational_from_string`. -/
def rationalFromString (s : Text) : Time :=
  match s.splitOn '/' with
  | [num] => (parseLenient num, 1)
  | [num, den] => rationalReduce (parseLenient num) (parseLenient den)
  | _ => (0, 0)

/-! ### Saving -/

/-- The entity of a character that is escaped. -/
def entityOf (c : Char) : Text :=
  if c = '&' then "&amp;".toList
  else if c = '<' then "&lt;".toList
  else if c = '>' then "&gt;".toList
  else if c = '"' then "&quot;".toList
  else [c]

/-- The characters `special` of a text are escaped. -/
def escapeChar (special : List Char) (c : Char) : Text :=
  if c ∈ special then entityOf c else [c]

/-- `escape_text`. -/
def escapeText (inp : Text) : Text := inp.flatMap (escapeChar ['&', '<', '>'])

/-- `escape_attribute`. -/
def escapeAttribute (inp : Text) : Text := inp.flatMap (escapeChar ['&', '<', '>', '"'])

variable (sub : Subtitle)

/-- A subtitle in `save_xml`. -/
def saveSubtitle : Text :=
  "<subtitle".toList ++
    " in=\"".toList ++ escapeAttribute (rationalToString sub.inTime) ++ "\"".toList ++
    " out=\"".toList ++ escapeAttribute (rationalToString sub.outTime) ++ "\"".toList ++
    ">".toList ++ escapeText sub.text ++ "</subtitle>".toList

variable (p : SubtitleParams)

/-- `save_xml`. -/
def SubtitleParams.saveXml : Text :=
  "<subtitleparams>".toList ++
    "<streamindex>".toList ++ digits p.streamIndex ++ "</streamindex>".toList ++
    "<enabled>".toList ++ (if p.enabled then "1".toList else "0".toList) ++ "</enabled>".toList ++
    "<subtitles>".toList ++ p.subtitles.flatMap saveSubtitle ++ "</subtitles>".toList ++
    "</subtitleparams>".toList

/-! ### Loading -/

/-- `read_next_start`: the next start element, unless an end comes first. -/
def readNextStart : List XmlEvent → Option (Text × List (Text × Text)) × List XmlEvent
  | [] => (none, [])
  | .start name attrs :: events => (some (name, attrs), events)
  | .endElement :: events => (none, events)
  | .characters _ :: events => readNextStart events

/-- The loop of `read_element_text`. -/
def readElementText : List XmlEvent → ℕ → Text → Text × List XmlEvent
  | [], _, result => (result, [])
  | .start _ _ :: events, depth, result => readElementText events (depth + 1) result
  | .endElement :: events, depth, result =>
    if depth - 1 = 0 then (result, events) else readElementText events (depth - 1) result
  | .characters t :: events, depth, result =>
    readElementText events depth (if depth = 1 then result ++ t else result)

/-- The loop of `skip_current_element`. -/
def skipCurrentElement : List XmlEvent → ℕ → List XmlEvent
  | [], _ => []
  | .start _ _ :: events, depth => skipCurrentElement events (depth + 1)
  | .endElement :: events, depth =>
    if depth - 1 = 0 then events else skipCurrentElement events (depth - 1)
  | .characters _ :: events, depth => skipCurrentElement events depth

theorem length_readNextStart (events : List XmlEvent) :
    (readNextStart events).2.length ≤ events.length ∧
      ((readNextStart events).1.isSome → (readNextStart events).2.length < events.length) := by
  induction events with
  | nil => exact ⟨le_rfl, fun h => absurd h (by simp [readNextStart])⟩
  | cons event events ih =>
    cases event with
    | start name attrs => exact ⟨Nat.le_succ _, fun _ => Nat.lt_succ_self _⟩
    | endElement => exact ⟨Nat.le_succ _, fun h => absurd h (by simp [readNextStart])⟩
    | characters text =>
      exact ⟨ih.1.trans (Nat.le_succ _), fun h => (ih.2 h).trans (Nat.lt_succ_self _)⟩

theorem length_readElementText (events : List XmlEvent) (depth : ℕ) (result : Text) :
    (readElementText events depth result).2.length ≤ events.length := by
  induction events generalizing depth result with
  | nil => exact le_rfl
  | cons event events ih =>
    cases event with
    | start name attrs => exact (ih _ _).trans (Nat.le_succ _)
    | endElement =>
      rw [readElementText]
      split_ifs
      · exact Nat.le_succ _
      · exact (ih _ _).trans (Nat.le_succ _)
    | characters text => exact (ih _ _).trans (Nat.le_succ _)

theorem length_skipCurrentElement (events : List XmlEvent) (depth : ℕ) :
    (skipCurrentElement events depth).length ≤ events.length := by
  induction events generalizing depth with
  | nil => exact le_rfl
  | cons event events ih =>
    cases event with
    | start name attrs => exact (ih _).trans (Nat.le_succ _)
    | endElement =>
      rw [skipCurrentElement]
      split_ifs
      · exact Nat.le_succ _
      · exact (ih _).trans (Nat.le_succ _)
    | characters text => exact (ih _).trans (Nat.le_succ _)

/-- The times of a subtitle from its attributes. -/
def timesOf (attrs : List (Text × Text)) : Time × Time :=
  attrs.foldl (fun times a =>
    if a.1 = "in".toList then (rationalFromString a.2, times.2)
    else if a.1 = "out".toList then (times.1, rationalFromString a.2)
    else times) ((0, 1), (0, 1))

/-- The loop over the subtitles. -/
def loadSubtitles (events : List XmlEvent) (subs : List Subtitle) :
    List Subtitle × List XmlEvent :=
  match h : readNextStart events with
  | (none, rest) => (subs, rest)
  | (some (name, attrs), rest) =>
    have : rest.length < events.length := by
      have hlt := (length_readNextStart events).2
      rw [h] at hlt
      exact hlt rfl
    if name = "subtitle".toList then
      let text := readElementText rest 1 []
      have : (readElementText rest 1 []).2.length ≤ rest.length :=
        length_readElementText rest 1 []
      loadSubtitles text.2 (subs ++ [⟨(timesOf attrs).1, (timesOf attrs).2, text.1⟩])
    else
      have : (skipCurrentElement rest 1).length ≤ rest.length := length_skipCurrentElement rest 1
      loadSubtitles (skipCurrentElement rest 1) subs
termination_by events.length

theorem length_loadSubtitles (events : List XmlEvent) (subs : List Subtitle) :
    (loadSubtitles events subs).2.length ≤ events.length := by
  fun_induction loadSubtitles events subs with
  | case1 events subs rest h =>
    have hle := (length_readNextStart events).1
    rwa [h] at hle
  | case2 events subs attrs rest text hle h hlt ih => exact ih.trans (hle.trans hlt.le)
  | case3 events subs name attrs rest h hlt hne hle ih => exact ih.trans (hle.trans hlt.le)

/-- The loop of `load_xml` over the children of the root. -/
def loadChildren (p : SubtitleParams) (events : List XmlEvent) :
    Except Error Unit × SubtitleParams :=
  match h : readNextStart events with
  | (none, _) => (.ok (), p)
  | (some (name, _), rest) =>
    have : rest.length < events.length := by
      have hlt := (length_readNextStart events).2
      rw [h] at hlt
      exact hlt rfl
    if name = "streamindex".toList then
      let text := readElementText rest 1 []
      have : (readElementText rest 1 []).2.length ≤ rest.length :=
        length_readElementText rest 1 []
      match parseI32 text.1 with
      | none => (.error (.failed "invalid subtitleparams streamindex"), p)
      | some index => loadChildren { p with streamIndex := index } text.2
    else if name = "enabled".toList then
      let text := readElementText rest 1 []
      have : (readElementText rest 1 []).2.length ≤ rest.length :=
        length_readElementText rest 1 []
      match parseI32 text.1 with
      | none => (.error (.failed "invalid subtitleparams enabled"), p)
      | some enabled => loadChildren { p with enabled := enabled ≠ 0 } text.2
    else if name = "subtitles".toList then
      let subs := loadSubtitles rest p.subtitles
      have : (loadSubtitles rest p.subtitles).2.length ≤ rest.length :=
        length_loadSubtitles rest p.subtitles
      loadChildren { p with subtitles := subs.1 } subs.2
    else
      have : (skipCurrentElement rest 1).length ≤ rest.length := length_skipCurrentElement rest 1
      loadChildren p (skipCurrentElement rest 1)
termination_by events.length

/-- `load_xml`, with the value that it leaves. -/
def SubtitleParams.loadXml (p : SubtitleParams) (xml : Text) :
    Option (Except Error Unit × SubtitleParams) :=
  match parseEvents xml with
  | none => none
  | some (.error e) => some (.error e, p)
  | some (.ok events) =>
    match readNextStart events with
    | (none, _) => some (.error (.failed "missing root element"), p)
    | (some _, rest) => some (loadChildren { p with subtitles := [] } rest)

/-! ### Values -/

/-- `new`. -/
def SubtitleParams.new : SubtitleParams := ⟨0, true, []⟩

/-- `add_subtitle`. -/
def SubtitleParams.addSubtitle (inNum inDen outNum outDen : Int32) (text : Text) : SubtitleParams :=
  { p with
    subtitles := p.subtitles ++ [⟨rationalReduce inNum inDen, rationalReduce outNum outDen, text⟩] }

/-- `clear`. -/
def SubtitleParams.clear : SubtitleParams := { p with subtitles := [] }

/-- The values that come about. -/
inductive Reachable : SubtitleParams → Prop
  | new : Reachable .new
  | setStreamIndex {p : SubtitleParams} (h : Reachable p) (index : Int32) :
      Reachable { p with streamIndex := index }
  | setEnabled {p : SubtitleParams} (h : Reachable p) (enabled : Bool) :
      Reachable { p with enabled := enabled }
  | addSubtitle {p : SubtitleParams} (h : Reachable p) (inNum inDen outNum outDen : Int32)
      (text : Text) : Reachable (p.addSubtitle inNum inDen outNum outDen text)
  | clear {p : SubtitleParams} (h : Reachable p) : Reachable p.clear
  | loadXml {p q : SubtitleParams} (h : Reachable p) {xml : Text} {r : Except Error Unit}
      (hload : p.loadXml xml = some (r, q)) : Reachable q

/-- Loading what was saved restores the value, whatever it is loaded into, and saving it again
gives the same text. -/
def RoundTrips : Prop := ∀ q : SubtitleParams, ∃ p' : SubtitleParams,
  q.loadXml p.saveXml = some (.ok (), p') ∧ p' = p ∧ p'.saveXml = p.saveXml

/-! ### Reducing times -/

variable {t : Time} {num den : Int32}

theorem i64Gcd_eq_gcd (t : Time) : i64Gcd t = Int.gcd t.1.toInt t.2.toInt := by
  rw [i64Gcd, magnitude_eq_abs, magnitude_eq_abs, gcdLoop_eq (abs_nonneg _) (abs_nonneg _),
    Int.gcd_def, Int.natAbs_abs, Int.natAbs_abs, Int.gcd_def]

theorem toInt_ne_zero {n : Int32} (h : n ≠ 0) : n.toInt ≠ 0 := fun hzero =>
  h (Int32.toInt_inj.1 (hzero.trans Int32.toInt_zero.symm))

/-- The parts of a fraction that is divided by its greatest common divisor. -/
theorem rationalReduce_of_fixed (hfixed : fixSigns num den = t) (hden : t.2 ≠ 0) :
    (rationalReduce num den).1.toInt = t.1.toInt / Int.gcd t.1.toInt t.2.toInt ∧
      (rationalReduce num den).2.toInt = t.2.toInt / Int.gcd t.1.toInt t.2.toInt := by
  have hpos : 0 < Int.gcd t.1.toInt t.2.toInt :=
    Int.gcd_pos_of_ne_zero_right _ (toInt_ne_zero hden)
  have hexact {n : Int32} (hdvd : (Int.gcd t.1.toInt t.2.toInt : ℤ) ∣ n.toInt) :
      (Int32.ofInt (n.toInt.tdiv (Int.gcd t.1.toInt t.2.toInt))).toInt =
        n.toInt / Int.gcd t.1.toInt t.2.toInt := by
    obtain ⟨k, hk⟩ := hdvd
    have hlower := n.le_toInt
    have hupper := n.toInt_lt
    have hone : (1 : ℤ) ≤ Int.gcd t.1.toInt t.2.toInt := by exact_mod_cast hpos
    rw [hk] at hlower hupper ⊢
    rw [Int.mul_tdiv_cancel_left _ (by omega), Int.mul_ediv_cancel_left _ (by omega)]
    refine Int32.toInt_ofInt_of_le ?_ ?_
    · nlinarith
    · nlinarith
  rw [rationalReduce, hfixed]
  dsimp only
  rw [if_pos hden, i64Gcd_eq_gcd, if_pos (by exact_mod_cast hpos)]
  exact ⟨hexact (Int.gcd_dvd_left _ _), hexact (Int.gcd_dvd_right _ _)⟩

/-- A fraction in lowest terms with a positive denominator is its own reduction. -/
theorem rationalReduce_of_coprime (hden : 0 < t.2.toInt)
    (hcoprime : Int.gcd t.1.toInt t.2.toInt = 1) : rationalReduce t.1 t.2 = t := by
  have hpos : ¬ t.2 < 0 := by
    rw [Int32.lt_iff_toInt_lt, Int32.toInt_zero]
    exact hden.not_gt
  have hne : t.2 ≠ 0 := by
    intro heq
    rw [heq, Int32.toInt_zero] at hden
    exact lt_irrefl _ hden
  have hfixed : fixSigns t.1 t.2 = t := by
    rw [fixSigns, if_neg hpos, if_neg hne]
    split_ifs with hnum
    · -- zero is in lowest terms only over one
      rw [hnum, Int32.toInt_zero, Int.gcd_zero_left] at hcoprime
      have hone : t.2.toInt = (1 : Int32).toInt := by
        rw [Int32.toInt_one]
        omega
      exact Prod.ext rfl (Int32.toInt_inj.1 hone).symm
    · rfl
  obtain ⟨h₁, h₂⟩ := rationalReduce_of_fixed hfixed hne
  rw [hcoprime, Nat.cast_one, Int.ediv_one] at h₁ h₂
  exact Prod.ext (Int32.toInt_inj.1 h₁) (Int32.toInt_inj.1 h₂)

theorem toInt_neg_of_ne {n : Int32} (h : n.toInt ≠ -2 ^ 31) : (-n).toInt = -n.toInt := by
  have hlower := n.le_toInt
  have hupper := n.toInt_lt
  rw [Int32.toInt_neg]
  exact Int.bmod_eq_of_le (by omega) (by omega)

theorem fixSigns_den (num : Int32) (h : den.toInt ≠ -2 ^ 31) :
    (fixSigns num den).2 = 0 ∧ den = 0 ∨ 0 < (fixSigns num den).2.toInt := by
  rw [fixSigns]
  split_ifs with hneg hzero hnum
  · rw [Int32.lt_iff_toInt_lt, Int32.toInt_zero] at hneg
    right
    rw [toInt_neg_of_ne h]
    omega
  · exact .inl ⟨hzero, hzero⟩
  · exact .inr (by rw [Int32.toInt_one]; exact Int.one_pos)
  · rw [Int32.lt_iff_toInt_lt, Int32.toInt_zero] at hneg
    have hne := toInt_ne_zero hzero
    right
    dsimp only
    omega

/-- A reduced time is zero over zero or in lowest terms, unless the denominator has no negation. -/
theorem rationalReduce_cases (num : Int32) (h : den.toInt ≠ -2 ^ 31) :
    rationalReduce num den = (0, 0) ∨ 0 < (rationalReduce num den).2.toInt ∧
      Int.gcd (rationalReduce num den).1.toInt (rationalReduce num den).2.toInt = 1 := by
  rcases fixSigns_den num h with ⟨-, hzero⟩ | hpos
  · left
    rw [hzero, rationalReduce, fixSigns]
    rfl
  · right
    have hne : (fixSigns num den).2 ≠ 0 := by
      intro heq
      rw [heq, Int32.toInt_zero] at hpos
      exact lt_irrefl _ hpos
    obtain ⟨h₁, h₂⟩ := rationalReduce_of_fixed (t := fixSigns num den) rfl hne
    have hgcd : 0 < Int.gcd (fixSigns num den).1.toInt (fixSigns num den).2.toInt :=
      Int.gcd_pos_of_ne_zero_right _ hpos.ne'
    rw [h₁, h₂]
    exact ⟨Int.ediv_pos_of_pos_of_dvd hpos (Int.natCast_nonneg _) (Int.gcd_dvd_right _ _),
      Int.gcd_ediv_gcd_ediv_gcd hgcd⟩

/-- The least value has no negation, and a denominator that is the least value stays negative. -/
theorem rationalReduce_den_neg (num : Int32) (h : den.toInt = -2 ^ 31) :
    (rationalReduce num den).2.toInt < 0 ∧ fixSigns num den = (-num, den) := by
  have hmin : den = Int32.minValue := Int32.toInt_inj.1 (h.trans Int32.toInt_minValue.symm)
  have hfixed : fixSigns num den = (-num, den) := by
    rw [fixSigns, if_pos (by rw [hmin]; decide), hmin]
    rfl
  refine ⟨?_, hfixed⟩
  have hne : ((-num, den) : Time).2 ≠ 0 := by
    show den ≠ 0
    rw [hmin]
    decide
  obtain ⟨-, h₂⟩ := rationalReduce_of_fixed hfixed hne
  rw [h₂]
  exact Int.ediv_neg_of_neg_of_pos (by dsimp only; omega)
    (by exact_mod_cast Int.gcd_pos_of_ne_zero_right _ (toInt_ne_zero hne))

/-- A time with a negative denominator is not its own reduction. -/
theorem rationalReduce_ne_self (h : t.2.toInt < 0) : rationalReduce t.1 t.2 ≠ t := by
  intro heq
  by_cases hmin : t.2.toInt = -2 ^ 31
  · obtain ⟨-, hfixed⟩ := rationalReduce_den_neg t.1 hmin
    have hne : ((-t.1, t.2) : Time).2 ≠ 0 := by
      intro hzero
      rw [show t.2 = 0 from hzero, Int32.toInt_zero] at hmin
      exact absurd hmin (by decide)
    obtain ⟨h₁, h₂⟩ := rationalReduce_of_fixed hfixed hne
    rw [heq] at h₁ h₂
    dsimp only at h₁ h₂
    -- nothing was divided, and the numerator is its own negation
    have hdvd := Int.gcd_dvd_right (-t.1).toInt t.2.toInt
    have hone : Int.gcd (-t.1).toInt t.2.toInt = 1 := by
      have hcancel := Int.ediv_mul_cancel hdvd
      rw [← h₂] at hcancel
      have hmul : t.2.toInt * (Int.gcd (-t.1).toInt t.2.toInt : ℤ) = t.2.toInt * 1 := by omega
      exact_mod_cast Int.eq_of_mul_eq_mul_left h.ne hmul
    rw [hone, Nat.cast_one, Int.ediv_one, Int32.toInt_neg] at h₁
    have hlower := t.1.le_toInt
    have hupper := t.1.toInt_lt
    have hnum : t.1.toInt = 0 ∨ t.1.toInt = -2 ^ 31 := by
      by_cases hleast : t.1.toInt = -2 ^ 31
      · exact .inr hleast
      · rw [Int.bmod_eq_of_le (by omega) (by omega)] at h₁
        exact .inl (by omega)
    rw [Int32.toInt_neg, hmin] at hone
    rcases hnum with hnum | hnum <;> rw [hnum] at hone <;> exact absurd hone (by decide)
  · rcases rationalReduce_cases t.1 hmin with hzero | ⟨hpos, -⟩
    · rw [heq] at hzero
      rw [hzero] at h
      exact absurd h (by decide)
    · rw [heq] at hpos
      exact absurd h hpos.not_gt

/-- The times that values hold: reduced ones, and whole numbers. -/
def Stored (t : Time) : Prop := (∃ num den, t = rationalReduce num den) ∨ t.2 = 1 ∨ t = (0, 0)

/-- A stored time is reduced to itself when its denominator is not negative. -/
theorem rationalReduce_eq_self_iff (h : Stored t) :
    rationalReduce t.1 t.2 = t ↔ 0 ≤ t.2.toInt := by
  constructor
  · intro heq
    by_contra hneg
    exact rationalReduce_ne_self (not_le.1 hneg) heq
  · intro hpos
    rcases h with ⟨num, den, rfl⟩ | hone | rfl
    · by_cases hmin : den.toInt = -2 ^ 31
      · exact absurd (rationalReduce_den_neg num hmin).1 hpos.not_gt
      · rcases rationalReduce_cases num hmin with hzero | ⟨hden, hcoprime⟩
        · rw [hzero]
          rfl
        · exact rationalReduce_of_coprime hden hcoprime
    · have hden : t.2.toInt = 1 := by rw [hone, Int32.toInt_one]
      exact rationalReduce_of_coprime (by omega) (by rw [hden, Int.gcd_one])
    · rfl

/-- An entry that is added has a negative denominator exactly when it is given the least value. -/
theorem rationalReduce_den_nonneg_iff (num den : Int32) :
    0 ≤ (rationalReduce num den).2.toInt ↔ den.toInt ≠ -2 ^ 31 := by
  constructor
  · intro hpos hmin
    exact absurd (rationalReduce_den_neg num hmin).1 hpos.not_gt
  · intro hmin
    rcases rationalReduce_cases num hmin with hzero | ⟨hden, -⟩
    · rw [hzero]
      decide
    · exact hden.le

/-! ### The saved text as events -/

variable {special : List Char}

theorem escapes_escapeChar (hamp : '&' ∈ special) : Escapes (escapeChar special) := by
  intro c
  rw [escapeChar]
  split_ifs with hc
  · rw [entityOf]
    split_ifs with h₁ h₂ h₃ h₄
    · exact .inr ⟨"amp".toList, by decide, by decide, by rw [h₁]; decide⟩
    · exact .inr ⟨"lt".toList, by decide, by decide, by rw [h₂]; decide⟩
    · exact .inr ⟨"gt".toList, by decide, by decide, by rw [h₃]; decide⟩
    · exact .inr ⟨"quot".toList, by decide, by decide, by rw [h₄]; decide⟩
    · exact .inl ⟨rfl, h₁⟩
  · refine .inl ⟨rfl, ?_⟩
    rintro rfl
    exact hc hamp

theorem notMem_escapeChar {d : Char} (hd : d ∈ special) (hdelim : d ∈ ['<', '>', '"']) (c : Char) :
    d ∉ escapeChar special c := by
  rw [escapeChar, entityOf]
  have hcases : d = '<' ∨ d = '>' ∨ d = '"' := by simpa using hdelim
  split_ifs with hc h₁ h₂ h₃ h₄
  · rcases hcases with rfl | rfl | rfl <;> decide
  · rcases hcases with rfl | rfl | rfl <;> decide
  · rcases hcases with rfl | rfl | rfl <;> decide
  · rcases hcases with rfl | rfl | rfl <;> decide
  · rw [List.mem_singleton]
    rintro rfl
    rcases hcases with rfl | rfl | rfl
    · exact h₂ rfl
    · exact h₃ rfl
    · exact h₄ rfl
  · rw [List.mem_singleton]
    rintro rfl
    exact hc hd

theorem flatMap_escapeChar {inp : Text} (h : ∀ c ∈ inp, c ∉ special) :
    inp.flatMap (escapeChar special) = inp := by
  have hself : inp.flatMap (escapeChar special) = inp.flatMap fun c => [c] :=
    List.flatMap_congr fun c hc => if_neg (h c hc)
  rw [hself, List.flatMap_singleton']

theorem notMem_digits {c : Char} (hminus : c ≠ '-') (hdigit : c.isDigit = false) (n : Int32) :
    c ∉ digits n := by
  intro hc
  rcases of_mem_toString_int hc with hc | hc
  · exact hminus hc
  · exact absurd hc (by simp [hdigit])

theorem digits_ne_nil : digits n ≠ [] := toString_int_ne_nil n.toInt

theorem reads_tag {text : Text} (name : Text) (htext : text = '<' :: (name ++ ['>']))
    (hname : IsName name) (hfirst : ∀ c ∈ name.head?, c ≠ '!' ∧ c ≠ '?') :
    Reads text [.start name []] := by
  have hattrs : ∀ a ∈ ([] : List (Text × Text)), IsName a.1 := by simp
  have hescapes : '&' ∈ ['&', '"'] ∧ '"' ∈ ['&', '"'] := by decide
  rw [htext]
  exact reads_open (escapes_escapeChar hescapes.1) (notMem_escapeChar hescapes.2 (by decide)) hname
    hfirst hattrs

theorem reads_end {text : Text} (name : Text) (htext : text = '<' :: '/' :: (name ++ ['>']))
    (hname : '>' ∉ name) : Reads text [.endElement] := by
  rw [htext]
  exact reads_close hname

theorem reads_plain {t close : Text} (name : Text) (hclose : close = '<' :: '/' :: (name ++ ['>']))
    (ht : ∀ c ∈ t, c ∉ ['&', '<', '>']) (hne : t ≠ []) (hname : '>' ∉ name) :
    Reads (t ++ close) [.characters t, .endElement] := by
  have hescapes : '&' ∈ ['&', '<', '>'] ∧ '<' ∈ ['&', '<', '>'] := by decide
  have hread := reads_text (escapes_escapeChar hescapes.1)
    (notMem_escapeChar hescapes.2 (by decide)) hname t
  rw [hclose]
  rwa [flatMap_escapeChar ht, if_neg hne] at hread

/-- The events of a subtitle. -/
def subtitleEvents : List XmlEvent :=
  .start "subtitle".toList [("in".toList, rationalToString sub.inTime),
    ("out".toList, rationalToString sub.outTime)] ::
      ((if sub.text = [] then [] else [.characters sub.text]) ++ [.endElement])

/-- The events behind the root element. -/
def childEvents : List XmlEvent :=
  .start "streamindex".toList [] :: .characters (digits p.streamIndex) :: .endElement ::
    .start "enabled".toList [] :: .characters (if p.enabled then "1".toList else "0".toList) ::
      .endElement :: .start "subtitles".toList [] ::
        (p.subtitles.flatMap subtitleEvents ++ [.endElement, .endElement])

/-- An element with two attributes and text. -/
theorem reads_element {f g : Char → Text} (hf : Escapes f) (hquote : ∀ c, '"' ∉ f c)
    (hg : Escapes g) (hopen : ∀ c, '<' ∉ g c) {name first second : Text} (hname : IsName name)
    (hfirst : ∀ c ∈ name.head?, c ≠ '!' ∧ c ≠ '?') (hnames : IsName first ∧ IsName second)
    (hend : '>' ∉ name) {begin₁ begin₂ begin₃ quote close finish : Text} (u v t : Text)
    (h₁ : begin₁ = '<' :: name) (h₂ : begin₂ = ' ' :: (first ++ ['=', '"']))
    (h₃ : begin₃ = ' ' :: (second ++ ['=', '"'])) (hq : quote = ['"']) (hclose : close = ['>'])
    (hfinish : finish = '<' :: '/' :: (name ++ ['>'])) :
    Reads (begin₁ ++ begin₂ ++ u.flatMap f ++ quote ++ begin₃ ++ v.flatMap f ++ quote ++ close ++
        t.flatMap g ++ finish)
      (.start name [(first, u), (second, v)] ::
        ((if t = [] then [] else [.characters t]) ++ [.endElement])) := by
  subst h₁ h₂ h₃ hq hclose hfinish
  have hattrs : ∀ a ∈ [(first, u), (second, v)], IsName a.1 :=
    List.forall_mem_cons.2 ⟨hnames.1, List.forall_mem_cons.2 ⟨hnames.2, by simp⟩⟩
  have hboth := (reads_open hf hquote hname hfirst hattrs).append (reads_text hg hopen hend t)
  simpa only [List.flatMap_cons, List.flatMap_nil, writeAttribute, List.append_assoc,
    List.cons_append, List.nil_append, List.append_nil] using hboth

theorem reads_saveSubtitle : Reads (saveSubtitle sub) (subtitleEvents sub) :=
  reads_element (escapes_escapeChar (by decide)) (notMem_escapeChar (by decide) (by decide))
    (escapes_escapeChar (by decide)) (notMem_escapeChar (by decide) (by decide)) (by decide)
    (by decide) (by decide) (by decide) _ _ _ (by decide) (by decide) (by decide) (by decide)
    (by decide) (by decide)

/-- A root element with two children that hold text and one that holds elements. -/
theorem parseEvents_document {root open₁ open₂ open₃ close₁ close₂ close₃ finish t₁ t₂ t₃ : Text}
    {rootName name₁ name₂ name₃ : Text} {found : List XmlEvent}
    (hroot : Reads root [.start rootName []]) (hopen₁ : Reads open₁ [.start name₁ []])
    (ht₁ : Reads (t₁ ++ close₁) [.characters t₁, .endElement])
    (hopen₂ : Reads open₂ [.start name₂ []])
    (ht₂ : Reads (t₂ ++ close₂) [.characters t₂, .endElement])
    (hopen₃ : Reads open₃ [.start name₃ []]) (ht₃ : Reads t₃ found)
    (hclose₃ : Reads close₃ [.endElement]) (hfinish : Reads finish [.endElement]) :
    parseEvents (root ++ open₁ ++ t₁ ++ close₁ ++ open₂ ++ t₂ ++ close₂ ++ open₃ ++ t₃ ++ close₃ ++
        finish) =
      some (.ok (.start rootName [] :: .start name₁ [] :: .characters t₁ :: .endElement ::
        .start name₂ [] :: .characters t₂ :: .endElement :: .start name₃ [] ::
          (found ++ [.endElement, .endElement]))) := by
  have hall := hroot.append (hopen₁.append (ht₁.append (hopen₂.append (ht₂.append
    (hopen₃.append (ht₃.append (hclose₃.append hfinish)))))))
  simpa only [List.append_assoc, List.cons_append, List.nil_append] using hall.parseEvents

theorem parseEvents_saveXml :
    parseEvents p.saveXml = some (.ok (.start "subtitleparams".toList [] :: childEvents p)) := by
  have hdigits : ∀ c ∈ digits p.streamIndex, c ∉ ['&', '<', '>'] := by
    intro c hc hspecial
    have hcases : c = '&' ∨ c = '<' ∨ c = '>' := by simpa using hspecial
    rcases hcases with rfl | rfl | rfl <;> exact notMem_digits (by decide) (by decide) _ hc
  have henabled : ∀ c ∈ (if p.enabled then "1".toList else "0".toList), c ∉ ['&', '<', '>'] := by
    split_ifs <;> decide
  have hne : (if p.enabled then "1".toList else "0".toList) ≠ [] := by
    split_ifs <;> decide
  have hroot : Reads "<subtitleparams>".toList [.start "subtitleparams".toList []] :=
    reads_tag _ (by decide) (by decide) (by decide)
  have hindex : Reads "<streamindex>".toList [.start "streamindex".toList []] :=
    reads_tag _ (by decide) (by decide) (by decide)
  have hindexText : Reads (digits p.streamIndex ++ "</streamindex>".toList)
      [.characters (digits p.streamIndex), .endElement] :=
    reads_plain "streamindex".toList (by decide) hdigits (digits_ne_nil _) (by decide)
  have hflag : Reads "<enabled>".toList [.start "enabled".toList []] :=
    reads_tag _ (by decide) (by decide) (by decide)
  have hflagText : Reads ((if p.enabled then "1".toList else "0".toList) ++ "</enabled>".toList)
      [.characters (if p.enabled then "1".toList else "0".toList), .endElement] :=
    reads_plain "enabled".toList (by decide) henabled hne (by decide)
  have hsubtitles : Reads "<subtitles>".toList [.start "subtitles".toList []] :=
    reads_tag _ (by decide) (by decide) (by decide)
  have hclose : Reads "</subtitles>".toList [.endElement] :=
    reads_end "subtitles".toList (by decide) (by decide)
  have hfinish : Reads "</subtitleparams>".toList [.endElement] :=
    reads_end "subtitleparams".toList (by decide) (by decide)
  exact parseEvents_document hroot hindex hindexText hflag hflagText hsubtitles
    (Reads.flatMap reads_saveSubtitle p.subtitles) hclose hfinish

/-! ### Loading what was saved -/

theorem parseI32_digits : parseI32 (digits n) = some n := by
  have hlower := n.le_toInt
  have hupper := n.toInt_lt
  rw [parseI32, digits, parseInt_toString, Option.bind_some, if_pos ⟨hlower, hupper⟩,
    Int32.ofInt_toInt]

theorem parseLenient_digits : parseLenient (digits n) = n := by
  rw [parseLenient, parseI32_digits, Option.getD_some]

theorem rationalFromString_rationalToString (t : Time) :
    rationalFromString (rationalToString t) = rationalReduce t.1 t.2 := by
  have hslash (n : Int32) : '/' ∉ digits n := notMem_digits (by decide) (by decide) n
  have hsplit : (rationalToString t).splitOn '/' = [digits t.1, digits t.2] := by
    rw [rationalToString, List.splitOn_append_cons_self_of_not_mem (hslash t.1),
      List.splitOn_eq_singleton (hslash t.2)]
  rw [rationalFromString, hsplit]
  dsimp only
  rw [parseLenient_digits, parseLenient_digits]

/-- A subtitle whose times are reduced. -/
def Subtitle.reduced : Subtitle :=
  ⟨rationalReduce sub.inTime.1 sub.inTime.2, rationalReduce sub.outTime.1 sub.outTime.2, sub.text⟩

theorem timesOf_pair (s t : Text) :
    timesOf [("in".toList, s), ("out".toList, t)] =
      (rationalFromString s, rationalFromString t) := by
  have hne : "out".toList ≠ "in".toList := by decide
  rw [timesOf, List.foldl_cons, if_pos rfl, List.foldl_cons, if_neg hne, if_pos rfl, List.foldl_nil]

variable {events rest : List XmlEvent} {name : Text} {attrs : List (Text × Text)}

theorem loadSubtitles_end (h : readNextStart events = (none, rest)) (subs : List Subtitle) :
    loadSubtitles events subs = (subs, rest) := by
  rw [loadSubtitles]
  split
  · next heq =>
    rw [h] at heq
    rw [(Prod.mk.inj heq).2]
  · next heq =>
    rw [h] at heq
    cases (Prod.mk.inj heq).1

theorem loadSubtitles_subtitle (h : readNextStart events = (some ("subtitle".toList, attrs), rest))
    (subs : List Subtitle) :
    loadSubtitles events subs = loadSubtitles (readElementText rest 1 []).2
      (subs ++ [⟨(timesOf attrs).1, (timesOf attrs).2, (readElementText rest 1 []).1⟩]) := by
  rw [loadSubtitles]
  split
  · next heq =>
    rw [h] at heq
    cases (Prod.mk.inj heq).1
  · next heq =>
    rw [h] at heq
    obtain ⟨hstart, hrest⟩ := Prod.mk.inj heq
    obtain ⟨hname, hattrs⟩ := Prod.mk.inj (Option.some.inj hstart)
    rw [if_pos hname.symm, hattrs, hrest]

/-- The subtitles that were saved are read, with their times reduced. -/
theorem loadSubtitles_flatMap (l subs : List Subtitle) (rest : List XmlEvent) :
    loadSubtitles (l.flatMap subtitleEvents ++ .endElement :: rest) subs =
      (subs ++ l.map Subtitle.reduced, rest) := by
  induction l generalizing subs with
  | nil =>
    rw [List.flatMap_nil, List.nil_append, loadSubtitles_end rfl, List.map_nil, List.append_nil]
  | cons sub l ih =>
    have htext (rest : List XmlEvent) :
        readElementText ((if sub.text = [] then [] else [.characters sub.text]) ++
          .endElement :: rest) 1 [] = (sub.text, rest) := by
      split_ifs with hempty
      · rw [hempty]
        rfl
      · rfl
    rw [List.flatMap_cons, subtitleEvents, List.append_assoc, List.cons_append,
      loadSubtitles_subtitle rfl, List.append_assoc, List.cons_append, List.nil_append, htext,
      timesOf_pair, rationalFromString_rationalToString, rationalFromString_rationalToString, ih,
      List.map_cons, List.append_assoc]
    rfl

/-! ### The children of the root -/

section Children

variable {q : SubtitleParams}

theorem loadChildren_end (h : readNextStart events = (none, rest)) (q : SubtitleParams) :
    loadChildren q events = (.ok (), q) := by
  rw [loadChildren]
  split
  · rfl
  · next heq =>
    rw [h] at heq
    cases (Prod.mk.inj heq).1

theorem loadChildren_start (h : readNextStart events = (some (name, attrs), rest))
    (q : SubtitleParams) :
    loadChildren q events =
      if name = "streamindex".toList then
        (match parseI32 (readElementText rest 1 []).1 with
        | none => (.error (.failed "invalid subtitleparams streamindex"), q)
        | some index => loadChildren { q with streamIndex := index } (readElementText rest 1 []).2)
      else if name = "enabled".toList then
        (match parseI32 (readElementText rest 1 []).1 with
        | none => (.error (.failed "invalid subtitleparams enabled"), q)
        | some enabled =>
          loadChildren { q with enabled := enabled ≠ 0 } (readElementText rest 1 []).2)
      else if name = "subtitles".toList then
        loadChildren { q with subtitles := (loadSubtitles rest q.subtitles).1 }
          (loadSubtitles rest q.subtitles).2
      else loadChildren q (skipCurrentElement rest 1) := by
  rw [loadChildren]
  split
  · next heq =>
    rw [h] at heq
    cases (Prod.mk.inj heq).1
  · next heq =>
    rw [h] at heq
    obtain ⟨hstart, rfl⟩ := Prod.mk.inj heq
    obtain ⟨rfl, rfl⟩ := Prod.mk.inj (Option.some.inj hstart)
    rfl

theorem readElementText_characters (t : Text) (rest : List XmlEvent) :
    readElementText (.characters t :: .endElement :: rest) 1 [] = (t, rest) := rfl

/-- The children that were saved are read, with the times reduced. -/
theorem loadChildren_childEvents (p q : SubtitleParams) :
    loadChildren q (childEvents p) = (.ok (), { p with
      subtitles := q.subtitles ++ p.subtitles.map Subtitle.reduced }) := by
  have henabled : parseI32 (if p.enabled then "1".toList else "0".toList) =
      some (if p.enabled then 1 else 0) := by
    split_ifs
    · exact parseI32_digits 1
    · exact parseI32_digits 0
  have hflag : decide ((if p.enabled then (1 : Int32) else 0) ≠ 0) = p.enabled := by
    cases p.enabled <;> decide
  have hne : "enabled".toList ≠ "streamindex".toList ∧ "subtitles".toList ≠ "streamindex".toList ∧
      "subtitles".toList ≠ "enabled".toList := by decide
  rw [childEvents, loadChildren_start rfl, if_pos rfl, readElementText_characters, parseI32_digits]
  dsimp only
  rw [loadChildren_start rfl, if_neg hne.1, if_pos rfl, readElementText_characters, henabled]
  dsimp only
  rw [loadChildren_start rfl, if_neg hne.2.1, if_neg hne.2.2, if_pos rfl, loadSubtitles_flatMap,
    loadChildren_end rfl, hflag]

/-- Loading what was saved gives the value with its times reduced. -/
theorem loadXml_saveXml (p q : SubtitleParams) :
    q.loadXml p.saveXml =
      some (.ok (), { p with subtitles := p.subtitles.map Subtitle.reduced }) := by
  rw [SubtitleParams.loadXml, parseEvents_saveXml]
  dsimp only
  rw [readNextStart]
  dsimp only
  rw [loadChildren_childEvents, List.nil_append]

/-! ### The times of values -/

/-- The times of a subtitle are stored ones. -/
def Subtitle.Stored (sub : Subtitle) : Prop :=
  Subtitles.Stored sub.inTime ∧ Subtitles.Stored sub.outTime

theorem stored_rationalFromString (s : Text) : Stored (rationalFromString s) := by
  rw [rationalFromString]
  split
  · exact .inr (.inl rfl)
  · exact .inl ⟨_, _, rfl⟩
  · exact .inr (.inr rfl)

theorem stored_timesOf (attrs : List (Text × Text)) :
    Stored (timesOf attrs).1 ∧ Stored (timesOf attrs).2 := by
  rw [timesOf]
  refine List.foldlRecOn (motive := fun times : Time × Time => Stored times.1 ∧ Stored times.2)
    attrs _ ⟨.inr (.inl rfl), .inr (.inl rfl)⟩ fun times h a _ => ?_
  split_ifs
  · exact ⟨stored_rationalFromString a.2, h.2⟩
  · exact ⟨h.1, stored_rationalFromString a.2⟩
  · exact h

theorem stored_loadSubtitles (events : List XmlEvent) (subs : List Subtitle)
    (h : ∀ sub ∈ subs, sub.Stored) : ∀ sub ∈ (loadSubtitles events subs).1, sub.Stored := by
  fun_induction loadSubtitles events subs with
  | case1 events subs rest hnext => exact h
  | case2 events subs attrs rest text hle hnext hlt ih =>
    refine ih fun sub hsub => ?_
    rcases List.mem_append.1 hsub with hsub | hsub
    · exact h sub hsub
    · rw [List.mem_singleton.1 hsub]
      exact stored_timesOf attrs
  | case3 events subs name attrs rest hnext hlt hne hle ih => exact ih h

theorem stored_loadChildren (q : SubtitleParams) (events : List XmlEvent)
    (h : ∀ sub ∈ q.subtitles, sub.Stored) :
    ∀ sub ∈ (loadChildren q events).2.subtitles, sub.Stored := by
  fun_induction loadChildren q events with
  | case1 => exact h
  | case2 => exact h
  | case3 q events attrs rest hnext hlt text hle index hindex ih => exact ih h
  | case4 => exact h
  | case5 q events attrs rest hnext hlt hne text hle enabled henabled ih => exact ih h
  | case6 q events attrs rest hnext hlt hne hne' subs hle ih =>
    exact ih (stored_loadSubtitles rest q.subtitles h)
  | case7 q events name attrs rest hnext hlt hne hne' hne'' hle ih => exact ih h

theorem Reachable.stored {p : SubtitleParams} (h : Reachable p) :
    ∀ sub ∈ p.subtitles, sub.Stored := by
  induction h with
  | new => exact fun sub hsub => absurd hsub List.not_mem_nil
  | setStreamIndex _ index ih => exact ih
  | setEnabled _ enabled ih => exact ih
  | addSubtitle _ inNum inDen outNum outDen text ih =>
    intro sub hsub
    rcases List.mem_append.1 hsub with hsub | hsub
    · exact ih sub hsub
    · rw [List.mem_singleton.1 hsub]
      exact ⟨.inl ⟨inNum, inDen, rfl⟩, .inl ⟨outNum, outDen, rfl⟩⟩
  | clear _ ih => exact fun sub hsub => absurd hsub List.not_mem_nil
  | @loadXml p q _ xml r hload ih =>
    rw [SubtitleParams.loadXml] at hload
    split at hload
    · cases hload
    · obtain ⟨-, rfl⟩ := Prod.mk.inj (Option.some.inj hload)
      exact ih
    · split at hload
      · obtain ⟨-, rfl⟩ := Prod.mk.inj (Option.some.inj hload)
        exact ih
      · next _ rest _ =>
        have hstored := stored_loadChildren { p with subtitles := [] } rest
          fun sub hsub => absurd hsub List.not_mem_nil
        rwa [Option.some.inj hload] at hstored

/-- A value makes the round trip when its times are their own reductions. -/
theorem roundTrips_iff (p : SubtitleParams) : RoundTrips p ↔ ∀ sub ∈ p.subtitles,
    rationalReduce sub.inTime.1 sub.inTime.2 = sub.inTime ∧
      rationalReduce sub.outTime.1 sub.outTime.2 = sub.outTime := by
  have hsame : (∀ sub ∈ p.subtitles, rationalReduce sub.inTime.1 sub.inTime.2 = sub.inTime ∧
      rationalReduce sub.outTime.1 sub.outTime.2 = sub.outTime) ↔
        p.subtitles.map Subtitle.reduced = p.subtitles.map id := by
    rw [List.map_eq_map_iff]
    refine forall₂_congr fun sub _ => ?_
    rw [id_eq, Subtitle.reduced, Subtitle.mk.injEq]
    exact ⟨fun h => ⟨h.1, h.2, rfl⟩, fun h => ⟨h.1, h.2.1⟩⟩
  rw [hsame, List.map_id]
  constructor
  · intro h
    obtain ⟨p', hload, rfl, -⟩ := h p
    rw [loadXml_saveXml] at hload
    exact congrArg SubtitleParams.subtitles (Prod.mk.inj (Option.some.inj hload)).2
  · intro h q
    exact ⟨p, by rw [loadXml_saveXml, h], rfl, rfl⟩

theorem exists_loadXml (q : SubtitleParams) (xml : Text) : ∃ r, q.loadXml xml = some r := by
  obtain ⟨r, hr⟩ := exists_parseEvents xml
  rw [SubtitleParams.loadXml, hr]
  rcases r with e | events
  · exact ⟨_, rfl⟩
  · dsimp only
    split <;> exact ⟨_, rfl⟩

/-- `load_xml` ends without a panic on every text, and a value is restored from its saved text, with
the same text saved again, exactly when no denominator is negative: that is, when no entry was given
the least value as a denominator, which has no negation. -/
theorem loadXml_saveXml_iff {p : SubtitleParams} (h : Reachable p) :
    (∀ (q : SubtitleParams) (xml : Text), ∃ r, q.loadXml xml = some r) ∧
      (RoundTrips p ↔
        ∀ sub ∈ p.subtitles, 0 ≤ sub.inTime.2.toInt ∧ 0 ≤ sub.outTime.2.toInt) := by
  refine ⟨exists_loadXml, (roundTrips_iff p).trans ?_⟩
  refine forall₂_congr fun sub hsub => ?_
  obtain ⟨hin, hout⟩ := h.stored sub hsub
  rw [rationalReduce_eq_self_iff hin, rationalReduce_eq_self_iff hout]

theorem loadXml_saveXml_iff_markup :
    RoundTrips (SubtitleParams.new.addSubtitle 6 (-4) 0 0 "<b>&amp;\r\n".toList) := by
  refine (loadXml_saveXml_iff (.addSubtitle .new 6 (-4) 0 0 _)).2.2 fun sub hsub => ?_
  rw [List.mem_singleton.1 hsub]
  exact ⟨(rationalReduce_den_nonneg_iff 6 (-4)).2 (by decide),
    (rationalReduce_den_nonneg_iff 0 0).2 (by decide)⟩

/-- One over the least value is stored as minus one over it, and loaded as one over it. -/
theorem not_roundTrips_minValue : ∃ p, Reachable p ∧ ¬ RoundTrips p := by
  refine ⟨SubtitleParams.new.addSubtitle 1 Int32.minValue 1 1 [], .addSubtitle .new _ _ _ _ _, ?_⟩
  rw [roundTrips_iff]
  intro h
  have hmin : Int32.minValue.toInt = -2 ^ 31 := by decide
  have hneg := (rationalReduce_den_neg 1 hmin).1
  exact rationalReduce_ne_self hneg (h _ (List.mem_singleton.2 rfl)).1

end Children

end Oak.Core.Subtitles
