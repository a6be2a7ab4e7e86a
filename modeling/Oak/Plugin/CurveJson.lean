import Oak.Lib.Decimal
import Oak.Lib.Text
import Oak.Plugin.ParamCurve

/-!
# Parametric curves as text

The text of a list of curves in `oak-plugin/src/param_curve.rs`, and its parser. How a finite number
is printed and parsed is a parameter.

A text that is rejected, and a parser that reads past the end or does not end, are told apart by
`Stop`.

## Main results

* `curvesFromJson_ne_stuck`: on every text the parser ends, within the text.
* `curvesFromJson_curvesToJson`: curves are read from their own text.
-/

namespace Oak.Plugin

open Oak.Lib Text

/-- Why there is no result: the text is rejected, or the parser reads outside of it or has not ended
after one step for every byte. -/
inductive Stop where
  | rejected
  | stuck
  deriving DecidableEq, Repr

/-- The numbers of curves. -/
structure Numbers (F : Type) where
  isNan : F → Bool
  nan : F
  infinity : F
  negInfinity : F
  zero : F
  /-- `Display`. -/
  print : F → Text
  /-- `str::parse`. -/
  parse : Text → Option F

variable {F : Type} (num : Numbers F)

/-! ### Writing -/

section Writing

variable [DecidableEq F]

/-- `push_num`. -/
def pushNum (v : F) : Text :=
  if num.isNan v then "null".toList
  else if v = num.infinity then "\"inf\"".toList
  else if v = num.negInfinity then "\"-inf\"".toList
  else num.print v

/-- Items with commas between them. -/
def commaJoin {α : Type*} (write : α → Text) : List α → Text
  | [] => []
  | a :: l => write a ++ l.flatMap fun b => ',' :: write b

/-- A control point in `curves_to_json`. -/
def pointToJson (p : ControlPoint F) : Text :=
  "\x7b\"key\":".toList ++ pushNum num p.key ++ ",\"value\":".toList ++ pushNum num p.value ++
    ",\"slope\":".toList ++ pushNum num p.slope ++ "\x7d".toList

/-- A curve in `curves_to_json`. -/
def curveToJson (c : Curve F) : Text := '[' :: (commaJoin (pointToJson num) c.points ++ [']'])

/-- `curves_to_json`. -/
def curvesToJson (curves : List (Curve F)) : Text :=
  "\x7b\"curves\":[".toList ++ commaJoin (curveToJson num) curves ++ "]\x7d".toList

end Writing

/-! ### Reading -/

/-- `u8::is_ascii_whitespace`. -/
def isAsciiWhitespace (b : UInt8) : Bool :=
  b = ' '.toUInt8 || b = '\t'.toUInt8 || b = '\n'.toUInt8 || b = '\x0c'.toUInt8 ||
    b = '\r'.toUInt8

/-- `skip_ws`. -/
def skipWs (text : Text) (pos : ℕ) : ℕ := scan isAsciiWhitespace text pos

/-- `eat`, for a character of one byte. -/
def eat (text : Text) (c : Char) (pos : ℕ) : Except Stop ℕ :=
  if byteAt text pos = some c.toUInt8 then .ok (pos + 1) else .error .rejected

/-- The bytes from one place to another as text. -/
def utf8 (text : Text) (start pos : ℕ) : Except Stop Text :=
  if start ≤ pos ∧ pos ≤ size text then
    match slice text start pos with
    | some s => .ok s
    | none => .error .rejected
  else .error .stuck

/-- `parse_string`. -/
def parseString (text : Text) (pos : ℕ) : Except Stop (Text × ℕ) := do
  let start ← eat text '"' pos
  let pos := scan (fun b => b ≠ '"'.toUInt8) text start
  let s ← utf8 text start pos
  let pos ← eat text '"' pos
  return (s, pos)

/-- The bytes of numbers. -/
def isNumberByte (b : UInt8) : Bool :=
  b = '-'.toUInt8 || b = '+'.toUInt8 || b = '.'.toUInt8 ||
    ('0'.toUInt8 ≤ b && b ≤ '9'.toUInt8) || b = 'e'.toUInt8 || b = 'E'.toUInt8

/-- `parse_num`. -/
def parseNum (text : Text) (pos : ℕ) : Except Stop (F × ℕ) :=
  if size text < pos then .error .stuck
  else if (bytes "null".toList).isPrefixOf ((bytes text).drop pos) then
    .ok (num.nan, pos + 4)
  else if byteAt text pos = some '"'.toUInt8 then do
    let (s, pos) ← parseString text pos
    if s = "inf".toList then .ok (num.infinity, pos)
    else if s = "-inf".toList then .ok (num.negInfinity, pos)
    else .error .rejected
  else
    let start := pos
    let pos := scan isNumberByte text start
    if pos = start then .error .rejected
    else do
      let s ← utf8 text start pos
      match num.parse s with
      | some v => .ok (v, pos)
      | none => .error .rejected

/-- The loop over items with commas between them, up to a closing character; a comma may stand
before it. -/
def parseItems {σ : Type} (text : Text) (close : Char) (item : σ → ℕ → Except Stop (σ × ℕ)) :
    ℕ → ℕ → σ → Except Stop (σ × ℕ)
  | 0, _, _ => .error .stuck
  | fuel + 1, pos, acc =>
    let pos := skipWs text pos
    if byteAt text pos = some close.toUInt8 then .ok (acc, pos + 1)
    else do
      let (acc, pos) ← item acc pos
      let pos := skipWs text pos
      if byteAt text pos = some ','.toUInt8 then parseItems text close item fuel (pos + 1) acc
      else if byteAt text pos = some close.toUInt8 then .ok (acc, pos + 1)
      else .error .rejected

/-- The fields of a control point that were found. -/
structure Fields (F : Type) where
  key : Option F
  value : Option F
  slope : Option F

/-- A field in `parse_point`. -/
def parseField (text : Text) (fields : Fields F) (pos : ℕ) : Except Stop (Fields F × ℕ) := do
  let (name, pos) ← parseString text pos
  let pos ← eat text ':' (skipWs text pos)
  let (v, pos) ← parseNum num text (skipWs text pos)
  if name = "key".toList then .ok ({ fields with key := some v }, pos)
  else if name = "value".toList then .ok ({ fields with value := some v }, pos)
  else if name = "slope".toList then .ok ({ fields with slope := some v }, pos)
  else .error .rejected

/-- `parse_point`. -/
def parsePoint (text : Text) (pos : ℕ) : Except Stop (ControlPoint F × ℕ) := do
  let pos ← eat text '{' pos
  let (fields, pos) ← parseItems text '}' (parseField num text) (size text + 1) pos
    ⟨none, none, none⟩
  match fields.key, fields.value with
  | some key, some value => .ok (⟨key, value, fields.slope.getD num.zero⟩, pos)
  | _, _ => .error .rejected

/-- `parse_curve`. -/
def parseCurve (text : Text) (pos : ℕ) : Except Stop (Curve F × ℕ) := do
  let pos ← eat text '[' pos
  let (points, pos) ← parseItems text ']'
    (fun points pos => do
      let (p, pos) ← parsePoint num text pos
      return (points ++ [p], pos))
    (size text + 1) pos []
  return (⟨points⟩, pos)

/-- `curves_from_json`. -/
def curvesFromJson (text : Text) : Except Stop (List (Curve F)) := do
  let pos ← eat text '{' (skipWs text 0)
  let (name, pos) ← parseString text (skipWs text pos)
  if name ≠ "curves".toList then .error .rejected
  else do
    let pos ← eat text ':' (skipWs text pos)
    let pos ← eat text '[' (skipWs text pos)
    let (curves, pos) ← parseItems text ']'
      (fun curves pos => do
        let (c, pos) ← parseCurve num text pos
        return (curves ++ [c], pos))
      (size text + 1) pos []
    let pos ← eat text '}' (skipWs text pos)
    if skipWs text pos = size text then .ok curves else .error .rejected

/-! ### The parser stays within the text -/

section Ends

variable {num} {text rest : Text} {c : Char} {i n m : ℕ} {σ τ : Type}

theorem uniform_isAsciiWhitespace : Uniform isAsciiWhitespace := by
  have h (b : UInt8) (hb : 128 ≤ b) : isAsciiWhitespace b = false := by
    simp only [isAsciiWhitespace, decide_eq_false (ne_of_le (d := ' ') (by decide) hb),
      decide_eq_false (ne_of_le (d := '\t') (by decide) hb),
      decide_eq_false (ne_of_le (d := '\n') (by decide) hb),
      decide_eq_false (ne_of_le (d := '\x0c') (by decide) hb),
      decide_eq_false (ne_of_le (d := '\r') (by decide) hb), Bool.or_self]
  exact fun b b' hb hb' => (h b hb).trans (h b' hb').symm

theorem uniform_isNumberByte : Uniform isNumberByte := by
  have h (b : UInt8) (hb : 128 ≤ b) : isNumberByte b = false := by
    have hnine : ¬ b ≤ '9'.toUInt8 := fun hle => absurd (UInt8.le_trans hb hle) (by decide)
    simp only [isNumberByte, decide_eq_false (ne_of_le (d := '-') (by decide) hb),
      decide_eq_false (ne_of_le (d := '+') (by decide) hb),
      decide_eq_false (ne_of_le (d := '.') (by decide) hb), decide_eq_false hnine,
      decide_eq_false (ne_of_le (d := 'e') (by decide) hb),
      decide_eq_false (ne_of_le (d := 'E') (by decide) hb), Bool.and_false, Bool.or_self]
  exact fun b b' hb hb' => (h b hb).trans (h b' hb').symm

theorem exists_skipWs (h : At text i rest) :
    ∃ rest', At text (skipWs text i) rest' ∧ rest'.length ≤ rest.length :=
  ⟨_, h.scan_at uniform_isAsciiWhitespace, List.length_dropWhile_le _ _⟩

theorem eat_eq (h : At text i (c :: rest)) (hc : isAscii c = true) :
    eat text c i = .ok (i + 1) := by
  rw [eat, h.byteAt_cons, firstByte_of_isAscii hc, if_pos rfl]

theorem eat_cases (h : At text i rest) (hc : isAscii c = true) :
    eat text c i = .error .rejected ∨
      ∃ rest', rest = c :: rest' ∧ eat text c i = .ok (i + 1) ∧ At text (i + 1) rest' := by
  rw [eat]
  split_ifs with hbyte
  · right
    rcases rest with _ | ⟨d, rest⟩
    · rw [h.byteAt_nil] at hbyte
      cases hbyte
    · rw [h.byteAt_cons] at hbyte
      obtain rfl := (firstByte_eq_iff hc).1 (Option.some.inj hbyte)
      exact ⟨rest, rfl, rfl, h.cons_ascii hc⟩
  · exact .inl rfl

theorem utf8_eq {mid : Text} (h : At text i (mid ++ rest)) :
    utf8 text i (i + size mid) = .ok mid := by
  have hsize := h.append.size_eq
  rw [utf8, if_pos ⟨Nat.le_add_right _ _, by omega⟩, h.slice]

/-- A part of the parser rejects the text, or ends with less than `n` characters left. -/
def Ends (text : Text) (n : ℕ) (r : Except Stop (σ × ℕ)) : Prop :=
  r = .error .rejected ∨ ∃ a j rest, r = .ok (a, j) ∧ At text j rest ∧ rest.length < n

theorem Ends.rejected : Ends text n (.error .rejected : Except Stop (σ × ℕ)) := .inl rfl

theorem Ends.ok (a : σ) (h : At text i rest) (hlt : rest.length < n) :
    Ends text n (.ok (a, i)) := .inr ⟨a, i, rest, rfl, h, hlt⟩

theorem Ends.mono {r : Except Stop (σ × ℕ)} (h : Ends text n r) (hle : n ≤ m) : Ends text m r := by
  rcases h with hr | ⟨a, j, rest, hr, hat, hlt⟩
  · exact .inl hr
  · exact .inr ⟨a, j, rest, hr, hat, hlt.trans_le hle⟩

theorem Ends.bind {r : Except Stop (σ × ℕ)} (h : Ends text n r)
    {f : σ × ℕ → Except Stop (τ × ℕ)}
    (hf : ∀ a j rest, At text j rest → rest.length < n → Ends text m (f (a, j))) :
    Ends text m (r >>= f) := by
  rcases h with rfl | ⟨a, j, rest, rfl, hat, hlt⟩
  · exact .rejected
  · exact hf a j rest hat hlt

theorem ends_eat (h : At text i rest) (hc : isAscii c = true)
    {f : ℕ → Except Stop (τ × ℕ)}
    (hf : ∀ rest', At text (i + 1) rest' → rest'.length < rest.length → Ends text m (f (i + 1))) :
    Ends text m (eat text c i >>= f) := by
  rcases eat_cases h hc with heat | ⟨rest', rfl, heat, hat⟩
  · rw [heat]
    exact .rejected
  · rw [heat]
    exact hf rest' hat (Nat.lt_succ_self _)

theorem ends_parseString (h : At text i rest) : Ends text rest.length (parseString text i) := by
  refine ends_eat h (by decide) fun rest₁ h₁ hlt₁ => ?_
  have hquote : Uniform fun b => decide (b ≠ '"'.toUInt8) := uniform_ne (by decide)
  have hat := h₁.scan_at hquote
  have hslice : utf8 text (i + 1) (scan (fun b => b ≠ '"'.toUInt8) text (i + 1)) =
      .ok (rest₁.takeWhile fun c => decide (firstByte c ≠ '"'.toUInt8)) := by
    have hsplit : At text (i + 1) ((rest₁.takeWhile fun c => decide (firstByte c ≠ '"'.toUInt8)) ++
        rest₁.dropWhile fun c => decide (firstByte c ≠ '"'.toUInt8)) := by
      rwa [List.takeWhile_append_dropWhile]
    rw [h₁.scan hquote]
    exact utf8_eq hsplit
  dsimp only
  rw [hslice]
  refine ends_eat hat (by decide) fun rest₂ h₂ hlt₂ => .ok _ h₂ ?_
  have hle := List.length_dropWhile_le (fun c => decide (firstByte c ≠ '"'.toUInt8)) rest₁
  omega

/-- A text of one byte for each character is found by its bytes. -/
theorem exists_of_isPrefixOf {want : Text} (hwant : ∀ c ∈ want, isAscii c = true)
    (h : At text i rest) (hpre : (bytes want).isPrefixOf (bytes rest) = true) :
    ∃ tail, rest = want ++ tail := by
  induction want generalizing rest i with
  | nil => exact ⟨rest, rfl⟩
  | cons d want ih =>
    obtain ⟨hd, hothers⟩ := List.forall_mem_cons.1 hwant
    rcases rest with _ | ⟨e, rest⟩
    · rw [bytes_cons, encode_of_isAscii hd] at hpre
      cases hpre
    · rw [bytes_cons, encode_of_isAscii hd, bytes_cons, encode_eq_cons, List.cons_append,
        List.nil_append, List.cons_append, List.isPrefixOf_cons_cons, Bool.and_eq_true,
        beq_iff_eq] at hpre
      obtain ⟨hfirst, htail⟩ := hpre
      obtain rfl := (firstByte_eq_iff hd).1 hfirst.symm
      rw [encode_of_isAscii hd, List.tail_cons, List.nil_append] at htail
      obtain ⟨tail, rfl⟩ := ih hothers h.cons htail
      exact ⟨tail, rfl⟩

theorem ends_parseNum (h : At text i rest) : Ends text rest.length (parseNum num text i) := by
  have hsize := h.size_eq
  rw [parseNum, if_neg (by omega)]
  split_ifs with hnull hquote
  · rw [h.drop_bytes] at hnull
    obtain ⟨tail, rfl⟩ := exists_of_isPrefixOf (by decide) h hnull
    refine .ok _ h.append ?_
    rw [List.length_append]
    exact Nat.lt_add_of_pos_left (by decide)
  · refine (ends_parseString h).bind fun s j rest' hat hlt => ?_
    dsimp only
    split_ifs
    · exact .ok _ hat hlt
    · exact .ok _ hat hlt
    · exact .rejected
  · dsimp only
    split_ifs with hempty
    · exact .rejected
    have hat := h.scan_at uniform_isNumberByte
    have hsplit : At text i ((rest.takeWhile fun c => isNumberByte (firstByte c)) ++
        rest.dropWhile fun c => isNumberByte (firstByte c)) := by
      rwa [List.takeWhile_append_dropWhile]
    have hslice := utf8_eq hsplit
    rw [← h.scan uniform_isNumberByte] at hslice
    rw [hslice]
    have hlt : (rest.dropWhile fun c => isNumberByte (firstByte c)).length < rest.length := by
      have hlength := congrArg List.length
        (List.takeWhile_append_dropWhile (p := fun c => isNumberByte (firstByte c)) (l := rest))
      rw [List.length_append] at hlength
      have hpos : rest.takeWhile (fun c => isNumberByte (firstByte c)) ≠ [] := by
        intro hnil
        rw [h.scan uniform_isNumberByte, hnil, size_nil, Nat.add_zero] at hempty
        exact hempty rfl
      have := List.length_pos_iff.2 hpos
      omega
    show Ends text rest.length (match num.parse _ with
      | some v => .ok (v, _)
      | none => .error .rejected)
    split
    · exact .ok _ hat hlt
    · exact .rejected

theorem ends_parseItems {close : Char} (hclose : isAscii close = true)
    {item : σ → ℕ → Except Stop (σ × ℕ)}
    (hitem : ∀ acc i rest, At text i rest → Ends text rest.length (item acc i)) {fuel : ℕ}
    (h : At text i rest) (hfuel : rest.length < fuel) (acc : σ) :
    Ends text rest.length (parseItems text close item fuel i acc) := by
  induction fuel generalizing i rest acc with
  | zero => exact absurd hfuel (Nat.not_lt_zero _)
  | succ fuel ih =>
    obtain ⟨rest₁, h₁, hle₁⟩ := exists_skipWs h
    -- a byte that is a character of one byte
    have hbyte {j : ℕ} {rest : Text} {d : Char} (hd : isAscii d = true) (hat : At text j rest)
        (heq : byteAt text j = some d.toUInt8) :
        ∃ rest', At text (j + 1) rest' ∧ rest'.length < rest.length := by
      rcases eat_cases hat hd with heat | ⟨rest', rfl, -, hat'⟩
      · rw [eat, if_pos heq] at heat
        cases heat
      · exact ⟨rest', hat', Nat.lt_succ_self _⟩
    rw [parseItems]
    dsimp only
    split_ifs with hdone
    · obtain ⟨rest₂, h₂, hlt₂⟩ := hbyte hclose h₁ hdone
      exact .ok _ h₂ (hlt₂.trans_le hle₁)
    · refine ((hitem acc _ _ h₁).mono hle₁).bind fun acc' j rest₂ h₂ hlt₂ => ?_
      obtain ⟨rest₃, h₃, hle₃⟩ := exists_skipWs h₂
      dsimp only
      split_ifs with hcomma hend
      · obtain ⟨rest₄, h₄, hlt₄⟩ := hbyte (by decide) h₃ hcomma
        exact (ih h₄ (by omega) acc').mono (by omega)
      · obtain ⟨rest₄, h₄, hlt₄⟩ := hbyte hclose h₃ hend
        exact .ok _ h₄ (by omega)
      · exact .rejected

theorem ends_parseField (fields : Fields F) (h : At text i rest) :
    Ends text rest.length (parseField num text fields i) := by
  refine (ends_parseString h).bind fun name j rest₁ h₁ hlt₁ => ?_
  obtain ⟨rest₂, h₂, hle₂⟩ := exists_skipWs h₁
  refine ends_eat h₂ (by decide) fun rest₃ h₃ hlt₃ => ?_
  obtain ⟨rest₄, h₄, hle₄⟩ := exists_skipWs h₃
  refine ((ends_parseNum h₄).mono hle₄).bind fun v j rest₅ h₅ hlt₅ => ?_
  dsimp only
  split_ifs
  · exact .ok _ h₅ (by omega)
  · exact .ok _ h₅ (by omega)
  · exact .ok _ h₅ (by omega)
  · exact .rejected

theorem ends_parsePoint (h : At text i rest) : Ends text rest.length (parsePoint num text i) := by
  refine ends_eat h (by decide) fun rest₁ h₁ hlt₁ => ?_
  refine (ends_parseItems (by decide) (fun fields i rest hat => ends_parseField fields hat) h₁
    (Nat.lt_succ_of_le h₁.length_le) _).bind fun fields j rest₂ h₂ hlt₂ => ?_
  dsimp only
  split
  · exact .ok _ h₂ (by omega)
  · exact .rejected

theorem ends_parseCurve (h : At text i rest) : Ends text rest.length (parseCurve num text i) := by
  refine ends_eat h (by decide) fun rest₁ h₁ hlt₁ => ?_
  refine (ends_parseItems (by decide) (fun points i rest hat => ?_) h₁
    (Nat.lt_succ_of_le h₁.length_le) _).bind fun points j rest₂ h₂ hlt₂ =>
      .ok _ h₂ (by omega)
  exact (ends_parsePoint hat).bind fun p j rest₂ h₂ hlt₂ => .ok _ h₂ hlt₂

theorem Ends.bind_ne {r : Except Stop (σ × ℕ)} (h : Ends text n r)
    {f : σ × ℕ → Except Stop τ}
    (hf : ∀ a j rest, At text j rest → rest.length < n → f (a, j) ≠ .error .stuck) :
    (r >>= f) ≠ .error .stuck := by
  rcases h with rfl | ⟨a, j, rest, rfl, hat, hlt⟩
  · intro heq
    cases heq
  · exact hf a j rest hat hlt

theorem eat_ne (h : At text i rest) (hc : isAscii c = true) {f : ℕ → Except Stop τ}
    (hf : ∀ rest', At text (i + 1) rest' → f (i + 1) ≠ .error .stuck) :
    (eat text c i >>= f) ≠ .error .stuck := by
  rcases eat_cases h hc with heat | ⟨rest', rfl, heat, hat⟩
  · rw [heat]
    intro heq
    cases heq
  · rw [heat]
    exact hf rest' hat

/-- On every text the parser ends, within the text. -/
theorem curvesFromJson_ne_stuck (num : Numbers F) (text : Text) :
    curvesFromJson num text ≠ .error .stuck := by
  obtain ⟨rest₁, h₁, -⟩ := exists_skipWs (.start text)
  refine eat_ne h₁ (by decide) fun rest₂ h₂ => ?_
  obtain ⟨rest₃, h₃, -⟩ := exists_skipWs h₂
  refine (ends_parseString h₃).bind_ne fun name j rest₄ h₄ _ => ?_
  dsimp only
  split_ifs
  · intro heq
    cases heq
  obtain ⟨rest₅, h₅, -⟩ := exists_skipWs h₄
  refine eat_ne h₅ (by decide) fun rest₆ h₆ => ?_
  obtain ⟨rest₇, h₇, -⟩ := exists_skipWs h₆
  refine eat_ne h₇ (by decide) fun rest₈ h₈ => ?_
  refine (ends_parseItems (by decide) (fun curves i rest hat => ?_) h₈
    (Nat.lt_succ_of_le h₈.length_le) _).bind_ne fun curves j rest₉ h₉ _ => ?_
  · exact (ends_parseCurve hat).bind fun c j rest' h' hlt' => .ok _ h' hlt'
  obtain ⟨rest', h', -⟩ := exists_skipWs h₉
  refine eat_ne h' (by decide) fun rest'' h'' heq => ?_
  split_ifs at heq
  cases heq

end Ends

/-! ### The text of curves -/

/-- Finite numbers are printed with digits, signs, points and exponents, and parsed from that. -/
def Numbers.Prints {F : Type} (num : Numbers F) : Prop :=
  ∀ v, num.isNan v = false → v ≠ num.infinity → v ≠ num.negInfinity →
    num.print v ≠ [] ∧ (∀ c ∈ num.print v, isNumberByte (firstByte c) = true) ∧
      num.parse (num.print v) = some v

/-- A value that is no number is one value. -/
def Numbers.canonical {F : Type} (num : Numbers F) (v : F) : F :=
  if num.isNan v then num.nan else v

/-- A control point with the values that are no number identified. -/
def ControlPoint.canonical {F : Type} (num : Numbers F) (p : ControlPoint F) : ControlPoint F :=
  ⟨num.canonical p.key, num.canonical p.value, num.canonical p.slope⟩

/-- A curve with the values that are no number identified. -/
def Curve.canonical {F : Type} (num : Numbers F) (c : Curve F) : Curve F :=
  ⟨c.points.map (ControlPoint.canonical num)⟩

section RoundTrip

variable {num} {text rest : Text} {c d close : Char} {i fuel : ℕ} {σ : Type}

theorem ok_bind {α β : Type} (a : α) (f : α → Except Stop β) : (Except.ok a >>= f) = f a := rfl

theorem skipWs_eq (h : At text i (c :: rest)) (hc : isAsciiWhitespace (firstByte c) = false) :
    skipWs text i = i := by
  have h' : At text i ([] ++ c :: rest) := h
  exact (h'.scan_append uniform_isAsciiWhitespace (by simp) hc).trans
    (by rw [size_nil, Nat.add_zero])

theorem parseString_eq {name : Text} (hname : '"' ∉ name)
    (h : At text i ('"' :: (name ++ '"' :: rest))) :
    ∃ j, parseString text i = .ok (name, j) ∧ At text j rest := by
  have h₁ := h.cons_ascii (by decide)
  have h₂ := h₁.append
  have hscan := h₁.scan_append (uniform_ne (d := '"') (by decide))
    (fun e he => decide_eq_true fun heq => hname ((firstByte_eq_iff (by decide)).1 heq ▸ he))
    (by decide)
  refine ⟨_, ?_, h₂.cons_ascii (by decide)⟩
  rw [parseString, eat_eq h (by decide), ok_bind]
  dsimp only
  rw [hscan, utf8_eq h₁, ok_bind, eat_eq h₂ (by decide)]
  rfl

/-- A text that does not begin with an `n` is not the token of a value that is no number. -/
theorem not_isPrefixOf_null (h : At text i (c :: rest)) (hc : c ≠ 'n') :
    ¬ (bytes "null".toList).isPrefixOf ((bytes text).drop i) = true := by
  intro hpre
  have hword : "null".toList = 'n' :: ['u', 'l', 'l'] := by decide
  rw [h.drop_bytes] at hpre
  obtain ⟨tail, htail⟩ := exists_of_isPrefixOf (by decide) h hpre
  rw [hword, List.cons_append] at htail
  exact hc (List.cons.inj htail).1

theorem parseNum_string {token : Text} (name : Text) (htoken : token = '"' :: (name ++ ['"']))
    (hname : '"' ∉ name) (h : At text i (token ++ rest)) :
    ∃ j, parseNum num text i = (if name = "inf".toList then .ok (num.infinity, j)
      else if name = "-inf".toList then .ok (num.negInfinity, j)
      else .error .rejected) ∧ At text j rest := by
  have h' : At text i ('"' :: (name ++ '"' :: rest)) := by
    rwa [htoken, List.cons_append, List.append_assoc] at h
  obtain ⟨j, hparse, hat⟩ := parseString_eq hname h'
  have hsize := h'.lt_size
  refine ⟨j, ?_, hat⟩
  rw [parseNum, if_neg (by omega), if_neg (not_isPrefixOf_null h' (by decide)), h'.byteAt_cons,
    if_pos (by decide), hparse]
  rfl

theorem parseNum_pushNum [DecidableEq F] (hnum : num.Prints) (v : F)
    (hd : isNumberByte (firstByte d) = false) (h : At text i (pushNum num v ++ d :: rest)) :
    ∃ j, parseNum num text i = .ok (num.canonical v, j) ∧ At text j (d :: rest) := by
  rw [pushNum] at h
  rw [Numbers.canonical]
  by_cases hnan : num.isNan v = true
  · rw [if_pos hnan] at h ⊢
    have hpre : (bytes "null".toList).isPrefixOf ((bytes text).drop i) = true := by
      rw [h.drop_bytes, bytes_append]
      exact List.isPrefixOf_iff_prefix.2 (List.prefix_append _ _)
    have hsize := h.size_eq
    refine ⟨i + 4, ?_, h.append⟩
    rw [parseNum, if_neg (by omega), if_pos hpre]
  rw [if_neg hnan] at h ⊢
  by_cases hinf : v = num.infinity
  · rw [if_pos hinf] at h
    obtain ⟨j, hparse, hat⟩ := parseNum_string "inf".toList (by decide) (by decide) h
    rw [if_pos rfl] at hparse
    exact ⟨j, hinf ▸ hparse, hat⟩
  rw [if_neg hinf] at h
  by_cases hneg : v = num.negInfinity
  · rw [if_pos hneg] at h
    obtain ⟨j, hparse, hat⟩ := parseNum_string "-inf".toList (by decide) (by decide) h
    rw [if_neg (by decide), if_pos rfl] at hparse
    exact ⟨j, hneg ▸ hparse, hat⟩
  rw [if_neg hneg] at h
  obtain ⟨hne, hbytes, hparse⟩ := hnum v (Bool.eq_false_of_not_eq_true hnan) hinf hneg
  have hpos : 0 < size (num.print v) := (List.length_pos_iff.2 hne).trans_le (length_le_size _)
  have hscan := h.scan_append uniform_isNumberByte hbytes hd
  have hsize := h.size_eq
  -- the first byte is one of a number
  obtain ⟨e, t, he⟩ := List.exists_cons_of_ne_nil hne
  have hfirst : isNumberByte (firstByte e) = true := hbytes e (he ▸ List.mem_cons_self)
  have h' : At text i (e :: (t ++ d :: rest)) := by
    rwa [he] at h
  have hletter : e ≠ 'n' := by
    rintro rfl
    exact absurd hfirst (by decide)
  have hquote : ¬ some (firstByte e) = some '"'.toUInt8 := by
    intro heq
    obtain rfl := (firstByte_eq_iff (by decide)).1 (Option.some.inj heq)
    exact absurd hfirst (by decide)
  refine ⟨i + size (num.print v), ?_, h.append⟩
  rw [parseNum, if_neg (by omega), if_neg (not_isPrefixOf_null h' hletter), h'.byteAt_cons,
    if_neg hquote]
  dsimp only
  rw [hscan, if_neg (by omega), utf8_eq h, ok_bind, hparse]

theorem parseItems_step {item : σ → ℕ → Except Stop (σ × ℕ)} {acc acc' : σ} {j : ℕ} {t : Text}
    (hclose : isAscii close = true ∧ isAsciiWhitespace (firstByte close) = false)
    (h : At text i (c :: t)) (hc : isAsciiWhitespace (firstByte c) = false) (hne : c ≠ close)
    (hitem : item acc i = .ok (acc', j)) (hj : At text j (d :: rest)) (hd : d = ',' ∨ d = close) :
    parseItems text close item (fuel + 1) i acc =
      if d = ',' then parseItems text close item fuel (j + 1) acc' else .ok (acc', j + 1) := by
  have hfirst : ¬ some (firstByte c) = some close.toUInt8 := fun heq =>
    hne ((firstByte_eq_iff hclose.1).1 (Option.some.inj heq))
  have hspace : isAsciiWhitespace (firstByte d) = false := by
    rcases hd with rfl | rfl
    · decide
    · exact hclose.2
  rw [parseItems]
  dsimp only
  rw [skipWs_eq h hc, h.byteAt_cons, if_neg hfirst, hitem, ok_bind]
  dsimp only
  rw [skipWs_eq hj hspace, hj.byteAt_cons]
  by_cases hcomma : d = ','
  · rw [if_pos hcomma, if_pos]
    rw [hcomma]
    decide
  · obtain rfl := hd.resolve_left hcomma
    rw [if_neg hcomma, if_neg fun heq => hcomma ((firstByte_eq_iff (by decide)).1
      (Option.some.inj heq)), firstByte_of_isAscii hclose.1, if_pos rfl]

/-- The loop over written items. -/
theorem parseItems_eq {α : Type} {write : α → Text} {push : σ → α → σ}
    (hclose : isAscii close = true ∧ isAsciiWhitespace (firstByte close) = false ∧ close ≠ ',')
    {item : σ → ℕ → Except Stop (σ × ℕ)} {l : List α}
    (hitem : ∀ a ∈ l, ∀ acc i d rest, At text i (write a ++ d :: rest) → d = ',' ∨ d = close →
      ∃ j, item acc i = .ok (push acc a, j) ∧ At text j (d :: rest))
    (hwrite : ∀ a ∈ l, ∃ c t, write a = c :: t ∧ isAsciiWhitespace (firstByte c) = false ∧
      c ≠ close)
    (h : At text i (commaJoin write l ++ close :: rest)) (hfuel : l.length < fuel) (acc : σ) :
    ∃ j, parseItems text close item fuel i acc = .ok (l.foldl push acc, j) ∧ At text j rest := by
  obtain ⟨hascii, hspace, hcomma⟩ := hclose
  obtain ⟨fuel, rfl⟩ := Nat.exists_eq_succ_of_ne_zero (Nat.ne_zero_of_lt hfuel)
  rcases l with _ | ⟨a, l⟩
  · have h' : At text i (close :: rest) := h
    refine ⟨i + 1, ?_, h'.cons_ascii hascii⟩
    rw [parseItems, skipWs_eq h' hspace, h'.byteAt_cons, firstByte_of_isAscii hascii]
    exact if_pos rfl
  induction l generalizing a i acc fuel with
  | nil =>
    have h' : At text i (write a ++ close :: rest) := by
      rwa [commaJoin, List.flatMap_nil, List.append_nil] at h
    obtain ⟨c, t, hc, hcspace, hne⟩ := hwrite a List.mem_cons_self
    obtain ⟨j, hj, hat⟩ := hitem a List.mem_cons_self acc i close rest h' (.inr rfl)
    rw [hc, List.cons_append] at h'
    refine ⟨j + 1, ?_, hat.cons_ascii hascii⟩
    rw [parseItems_step ⟨hascii, hspace⟩ h' hcspace hne hj hat (.inr rfl), if_neg hcomma]
    rfl
  | cons b l ih =>
    have h' : At text i (write a ++ ',' :: (commaJoin write (b :: l) ++ close :: rest)) := by
      rwa [commaJoin, List.flatMap_cons, List.append_assoc, List.cons_append, List.cons_append] at h
    obtain ⟨c, t, hc, hcspace, hne⟩ := hwrite a List.mem_cons_self
    obtain ⟨j, hj, hat⟩ := hitem a List.mem_cons_self acc i ',' _ h' (.inl rfl)
    rw [hc, List.cons_append] at h'
    rw [List.length_cons] at hfuel
    obtain ⟨fuel, rfl⟩ :=
      Nat.exists_eq_succ_of_ne_zero (Nat.ne_zero_of_lt (Nat.lt_of_succ_lt_succ hfuel))
    obtain ⟨k, hk, hend⟩ := ih (push acc a) fuel b
      (fun x hx => hitem x (List.mem_cons_of_mem a hx))
      (fun x hx => hwrite x (List.mem_cons_of_mem a hx)) (hat.cons_ascii (by decide)) (by omega)
    refine ⟨k, ?_, hend⟩
    rw [parseItems_step ⟨hascii, hspace⟩ h' hcspace hne hj hat (.inl rfl), if_pos rfl, hk]
    rfl

variable [DecidableEq F]

/-- A field as it is written. -/
def fieldToJson (num : Numbers F) (a : Text × F) : Text :=
  '"' :: (a.1 ++ '"' :: ':' :: pushNum num a.2)

/-- The fields after one was found. -/
def setField (num : Numbers F) (fields : Fields F) (a : Text × F) : Fields F :=
  if a.1 = "key".toList then { fields with key := some (num.canonical a.2) }
  else if a.1 = "value".toList then { fields with value := some (num.canonical a.2) }
  else { fields with slope := some (num.canonical a.2) }

/-- The fields of a control point. -/
def fieldsOf (p : ControlPoint F) : List (Text × F) :=
  [("key".toList, p.key), ("value".toList, p.value), ("slope".toList, p.slope)]

theorem pushNum_append (hnum : num.Prints) (v : F) (t : Text) :
    ∃ c s, pushNum num v ++ t = c :: s ∧ isAsciiWhitespace (firstByte c) = false := by
  rw [pushNum]
  split_ifs with hnan hinf hneg
  · exact ⟨'n', ['u', 'l', 'l'] ++ t, by
      rw [show "null".toList = ['n', 'u', 'l', 'l'] by decide, List.cons_append], by decide⟩
  · exact ⟨'"', ['i', 'n', 'f', '"'] ++ t, by
      rw [show "\"inf\"".toList = ['"', 'i', 'n', 'f', '"'] by decide, List.cons_append], by decide⟩
  · exact ⟨'"', ['-', 'i', 'n', 'f', '"'] ++ t, by
      rw [show "\"-inf\"".toList = ['"', '-', 'i', 'n', 'f', '"'] by decide, List.cons_append],
      by decide⟩
  · obtain ⟨hne, hbytes, -⟩ := hnum v (Bool.eq_false_of_not_eq_true hnan) hinf hneg
    obtain ⟨c, s, hc⟩ := List.exists_cons_of_ne_nil hne
    refine ⟨c, s ++ t, by rw [hc, List.cons_append], ?_⟩
    have hnumber := hbytes c (hc ▸ List.mem_cons_self)
    cases hspace : isAsciiWhitespace (firstByte c) with
    | false => rfl
    | true =>
      simp only [isAsciiWhitespace, Bool.or_eq_true, decide_eq_true_iff] at hspace
      rcases hspace with (((h | h) | h) | h) | h <;> rw [h] at hnumber <;>
        exact absurd hnumber (by decide)

theorem parseField_eq (hnum : num.Prints) {name : Text}
    (hname : name = "key".toList ∨ name = "value".toList ∨ name = "slope".toList) (v : F)
    (fields : Fields F) (hd : isNumberByte (firstByte d) = false)
    (h : At text i (fieldToJson num (name, v) ++ d :: rest)) :
    ∃ j, parseField num text fields i = .ok (setField num fields (name, v), j) ∧
      At text j (d :: rest) := by
  have hquote : '"' ∉ name := by
    rcases hname with rfl | rfl | rfl <;> decide
  have h' : At text i ('"' :: (name ++ '"' :: ':' :: (pushNum num v ++ d :: rest))) := by
    rwa [fieldToJson, List.cons_append, List.append_assoc, List.cons_append, List.cons_append] at h
  obtain ⟨j, hparse, hcolon⟩ := parseString_eq hquote h'
  have hbehind := hcolon.cons_ascii (by decide)
  obtain ⟨c, s, hc, hspace⟩ := pushNum_append hnum v (d :: rest)
  have hskip : skipWs text (j + 1) = j + 1 := skipWs_eq (hc ▸ hbehind) hspace
  obtain ⟨k, hvalue, hat⟩ := parseNum_pushNum hnum v hd hbehind
  refine ⟨k, ?_, hat⟩
  rw [parseField, hparse, ok_bind]
  dsimp only
  rw [skipWs_eq hcolon (by decide), eat_eq hcolon (by decide), ok_bind, hskip, hvalue, ok_bind]
  dsimp only
  rw [setField]
  rcases hname with rfl | rfl | rfl
  · rw [if_pos rfl, if_pos rfl]
  · have hne : "value".toList ≠ "key".toList := by decide
    rw [if_neg hne, if_pos rfl, if_neg hne, if_pos rfl]
  · have hne : "slope".toList ≠ "key".toList ∧ "slope".toList ≠ "value".toList := by decide
    rw [if_neg hne.1, if_neg hne.2, if_pos rfl, if_neg hne.1, if_neg hne.2]

theorem append_fields {a b c d k v s n₁ n₂ n₃ : Text} (ha : a = '{' :: '"' :: (k ++ ['"', ':']))
    (hb : b = ',' :: '"' :: (v ++ ['"', ':'])) (hc : c = ',' :: '"' :: (s ++ ['"', ':']))
    (hd : d = ['}']) :
    a ++ n₁ ++ b ++ n₂ ++ c ++ n₃ ++ d =
      '{' :: (('"' :: (k ++ '"' :: ':' :: n₁) ++ (',' :: ('"' :: (v ++ '"' :: ':' :: n₂)) ++
        (',' :: ('"' :: (s ++ '"' :: ':' :: n₃)) ++ []))) ++ ['}']) := by
  subst ha hb hc hd
  simp only [List.append_assoc, List.cons_append, List.nil_append, List.append_nil]

theorem pointToJson_eq (p : ControlPoint F) :
    pointToJson num p = '{' :: (commaJoin (fieldToJson num) (fieldsOf p) ++ ['}']) := by
  have hkey : "\x7b\"key\":".toList = '{' :: '"' :: ("key".toList ++ ['"', ':']) := by decide
  have hvalue : ",\"value\":".toList = ',' :: '"' :: ("value".toList ++ ['"', ':']) := by decide
  have hslope : ",\"slope\":".toList = ',' :: '"' :: ("slope".toList ++ ['"', ':']) := by decide
  have hclose : "\x7d".toList = ['}'] := by decide
  exact append_fields hkey hvalue hslope hclose

omit [DecidableEq F] in
theorem foldl_setField (p : ControlPoint F) :
    (fieldsOf p).foldl (setField num) ⟨none, none, none⟩ =
      ⟨some (num.canonical p.key), some (num.canonical p.value), some (num.canonical p.slope)⟩ := by
  have hne : "value".toList ≠ "key".toList ∧ "slope".toList ≠ "key".toList ∧
      "slope".toList ≠ "value".toList := by decide
  rw [fieldsOf, List.foldl_cons, setField, if_pos rfl, List.foldl_cons, setField, if_neg hne.1,
    if_pos rfl, List.foldl_cons, setField, if_neg hne.2.1, if_neg hne.2.2, List.foldl_nil]

omit [DecidableEq F] in
theorem length_le_commaJoin {α : Type} {write : α → Text} {l : List α}
    (h : ∀ a ∈ l, ∃ c t, write a = c :: t ∧ isAsciiWhitespace (firstByte c) = false ∧ c ≠ close) :
    l.length ≤ (commaJoin write l).length := by
  rcases l with _ | ⟨a, l⟩
  · exact le_rfl
  have htail : l.length ≤ (l.flatMap fun b => ',' :: write b).length := by
    clear h
    induction l with
    | nil => exact le_rfl
    | cons b l ih =>
      rw [List.flatMap_cons, List.length_append, List.length_cons, List.length_cons]
      omega
  obtain ⟨c, t, hc, -⟩ := h a List.mem_cons_self
  rw [commaJoin, List.length_append, hc, List.length_cons, List.length_cons]
  omega

omit [DecidableEq F] in
theorem foldl_append_singleton {α β : Type} (f : α → β) (l : List α) (acc : List β) :
    l.foldl (fun acc a => acc ++ [f a]) acc = acc ++ l.map f := by
  induction l generalizing acc with
  | nil => rw [List.foldl_nil, List.map_nil, List.append_nil]
  | cons a l ih => rw [List.foldl_cons, ih, List.map_cons, List.append_assoc]; rfl

theorem parsePoint_eq (hnum : num.Prints) (p : ControlPoint F)
    (h : At text i (pointToJson num p ++ rest)) :
    ∃ j, parsePoint num text i = .ok (p.canonical num, j) ∧ At text j rest := by
  have h' : At text i ('{' :: (commaJoin (fieldToJson num) (fieldsOf p) ++ '}' :: rest)) := by
    rwa [pointToJson_eq, List.cons_append, List.append_assoc] at h
  have hitems := h'.cons_ascii (by decide)
  have hwrite : ∀ a ∈ fieldsOf p, ∃ c t, fieldToJson num a = c :: t ∧
      isAsciiWhitespace (firstByte c) = false ∧ c ≠ '}' :=
    fun a _ => ⟨'"', _, rfl, by decide, by decide⟩
  have hfuel : (fieldsOf p).length < size text + 1 := by
    have hle := length_le_commaJoin hwrite
    have hsize := hitems.length_le
    rw [List.length_append] at hsize
    omega
  have hfield : ∀ a ∈ fieldsOf p, ∀ (fields : Fields F) (i : ℕ) (d : Char) (rest : Text),
      At text i (fieldToJson num a ++ d :: rest) → d = ',' ∨ d = '}' →
        ∃ j, parseField num text fields i = .ok (setField num fields a, j) ∧
          At text j (d :: rest) := by
    intro a ha fields i d rest hat hd
    obtain ⟨name, v⟩ := a
    have hname : name = "key".toList ∨ name = "value".toList ∨ name = "slope".toList := by
      rcases List.mem_cons.1 ha with heq | ha
      · exact .inl (congrArg Prod.fst heq)
      rcases List.mem_cons.1 ha with heq | ha
      · exact .inr (.inl (congrArg Prod.fst heq))
      · exact .inr (.inr (congrArg Prod.fst (List.mem_singleton.1 ha)))
    refine parseField_eq hnum hname v fields ?_ hat
    rcases hd with rfl | rfl <;> decide
  obtain ⟨j, hparse, hat⟩ := parseItems_eq ⟨by decide, by decide, by decide⟩ hfield hwrite hitems
    hfuel ⟨none, none, none⟩
  refine ⟨j, ?_, hat⟩
  rw [parsePoint, eat_eq h' (by decide), ok_bind, hparse, ok_bind, foldl_setField]
  rfl

theorem parseCurve_eq (hnum : num.Prints) (c : Curve F)
    (h : At text i (curveToJson num c ++ rest)) :
    ∃ j, parseCurve num text i = .ok (c.canonical num, j) ∧ At text j rest := by
  have h' : At text i ('[' :: (commaJoin (pointToJson num) c.points ++ ']' :: rest)) := by
    rwa [curveToJson, List.cons_append, List.append_assoc] at h
  have hitems := h'.cons_ascii (by decide)
  have hwrite : ∀ p ∈ c.points, ∃ c t, pointToJson num p = c :: t ∧
      isAsciiWhitespace (firstByte c) = false ∧ c ≠ ']' :=
    fun p _ => ⟨'{', _, pointToJson_eq p, by decide, by decide⟩
  have hfuel : c.points.length < size text + 1 := by
    have hle := length_le_commaJoin hwrite
    have hsize := hitems.length_le
    rw [List.length_append] at hsize
    omega
  have hpoint : ∀ p ∈ c.points, ∀ (points : List (ControlPoint F)) (i : ℕ) (d : Char)
      (rest : Text), At text i (pointToJson num p ++ d :: rest) → d = ',' ∨ d = ']' →
        ∃ j, (do
          let (q, pos) ← parsePoint num text i
          return (points ++ [q], pos)) = .ok (points ++ [p.canonical num], j) ∧
            At text j (d :: rest) := by
    intro p _ points i d rest hat _
    obtain ⟨j, hparse, hj⟩ := parsePoint_eq hnum p hat
    exact ⟨j, by rw [hparse]; rfl, hj⟩
  obtain ⟨j, hparse, hat⟩ := parseItems_eq ⟨by decide, by decide, by decide⟩ hpoint hwrite hitems
    hfuel []
  refine ⟨j, ?_, hat⟩
  rw [parseCurve, eat_eq h' (by decide), ok_bind, hparse, ok_bind, foldl_append_singleton]
  rfl

theorem append_curves {a b m name : Text} (ha : a = '{' :: '"' :: (name ++ ['"', ':', '[']))
    (hb : b = [']', '}']) :
    a ++ m ++ b = '{' :: '"' :: (name ++ '"' :: ':' :: '[' :: (m ++ ']' :: ['}'])) := by
  subst ha hb
  simp only [List.append_assoc, List.cons_append, List.nil_append]

theorem curvesToJson_eq (curves : List (Curve F)) :
    curvesToJson num curves = '{' :: '"' :: ("curves".toList ++
      '"' :: ':' :: '[' :: (commaJoin (curveToJson num) curves ++ ']' :: ['}'])) := by
  have hopen : "\x7b\"curves\":[".toList = '{' :: '"' :: ("curves".toList ++ ['"', ':', '[']) := by
    decide
  have hclose : "]\x7d".toList = [']', '}'] := by decide
  exact append_curves hopen hclose

theorem parseItems_curves (hnum : num.Prints) (curves : List (Curve F))
    (h : At text i (commaJoin (curveToJson num) curves ++ ']' :: rest)) :
    ∃ j, parseItems text ']' (fun curves pos => do
        let (c, pos) ← parseCurve num text pos
        return (curves ++ [c], pos)) (size text + 1) i [] =
      .ok (curves.map (Curve.canonical num), j) ∧ At text j rest := by
  have hwrite : ∀ c ∈ curves, ∃ d t, curveToJson num c = d :: t ∧
      isAsciiWhitespace (firstByte d) = false ∧ d ≠ ']' :=
    fun c _ => ⟨'[', _, rfl, by decide, by decide⟩
  have hfuel : curves.length < size text + 1 := by
    have hle := length_le_commaJoin hwrite
    have hsize := h.length_le
    rw [List.length_append] at hsize
    omega
  have hcurve : ∀ c ∈ curves, ∀ (curves : List (Curve F)) (i : ℕ) (d : Char) (rest : Text),
      At text i (curveToJson num c ++ d :: rest) → d = ',' ∨ d = ']' →
        ∃ j, (do
          let (q, pos) ← parseCurve num text i
          return (curves ++ [q], pos)) = .ok (curves ++ [c.canonical num], j) ∧
            At text j (d :: rest) := by
    intro c _ curves i d rest hat _
    obtain ⟨j, hparse, hj⟩ := parseCurve_eq hnum c hat
    exact ⟨j, by rw [hparse]; rfl, hj⟩
  obtain ⟨j, hparse, hat⟩ := parseItems_eq ⟨by decide, by decide, by decide⟩ hcurve hwrite h hfuel
    []
  rw [foldl_append_singleton] at hparse
  exact ⟨j, hparse, hat⟩

theorem curvesFromJson_eq (hnum : num.Prints) (curves : List (Curve F)) {name : Text}
    (hname : name = "curves".toList) (hquote : '"' ∉ name)
    (h₀ : At text 0 ('{' :: '"' :: (name ++
      '"' :: ':' :: '[' :: (commaJoin (curveToJson num) curves ++ ']' :: ['}'])))) :
    curvesFromJson num text = .ok (curves.map (Curve.canonical num)) := by
  have h₁ := h₀.cons_ascii (by decide)
  obtain ⟨j, hparse, h₂⟩ := parseString_eq hquote h₁
  have h₃ := h₂.cons_ascii (by decide)
  obtain ⟨k, hcurves, h₄⟩ := parseItems_curves hnum curves (h₃.cons_ascii (by decide))
  have h₅ := h₄.cons_ascii (by decide)
  have hend : skipWs text (k + 1) = size text := h₅.scan_all uniform_isAsciiWhitespace (by simp)
  rw [curvesFromJson, skipWs_eq h₀ (by decide), eat_eq h₀ (by decide), ok_bind,
    skipWs_eq h₁ (by decide), hparse, ok_bind]
  dsimp only
  rw [if_neg fun hne => hne hname, skipWs_eq h₂ (by decide), eat_eq h₂ (by decide), ok_bind,
    skipWs_eq h₃ (by decide), eat_eq h₃ (by decide), ok_bind, hcurves, ok_bind]
  dsimp only
  rw [skipWs_eq h₄ (by decide), eat_eq h₄ (by decide), ok_bind, if_pos hend]

/-- Curves are read from their own text, up to the values that are no number, and on every text the
parser ends, within the text. -/
theorem curvesFromJson_curvesToJson (hnum : num.Prints) :
    (∀ curves : List (Curve F), curvesFromJson num (curvesToJson num curves) =
      .ok (curves.map (Curve.canonical num))) ∧
    ∀ text, curvesFromJson num text ≠ .error .stuck := by
  refine ⟨fun curves => ?_, curvesFromJson_ne_stuck num⟩
  refine curvesFromJson_eq hnum curves rfl (by decide) ?_
  rw [← curvesToJson_eq]
  exact .start _

end RoundTrip

/-! ### Whole numbers -/

theorem isNumberByte_of_isDigit {c : Char} (h : c.isDigit = true) :
    isNumberByte (firstByte c) = true := by
  have hc : 48 ≤ c.val.toNat ∧ c.val.toNat ≤ 57 := by
    simpa [Char.isDigit, UInt32.le_iff_toNat_le] using h
  have hascii : isAscii c = true := by
    refine decide_eq_true (UInt32.le_iff_toNat_le.2 ?_)
    exact hc.2.trans (by decide)
  have hbyte := toNat_of_isAscii hascii
  have hrange : '0'.toUInt8 ≤ c.toUInt8 ∧ c.toUInt8 ≤ '9'.toUInt8 := by
    rw [UInt8.le_iff_toNat_le, UInt8.le_iff_toNat_le, hbyte]
    exact hc
  rw [firstByte_of_isAscii hascii, isNumberByte, decide_eq_true hrange.1, decide_eq_true hrange.2,
    Bool.and_self, Bool.or_true, Bool.true_or, Bool.true_or]

/-- The numbers that are whole, the two infinities and one value that is no number. -/
def wholeNumbers : Numbers (ℤ ⊕ Fin 3) where
  isNan v := v = .inr 0
  nan := .inr 0
  infinity := .inr 1
  negInfinity := .inr 2
  zero := .inl 0
  print := Sum.elim (fun n => (toString n).toList) fun _ => []
  parse s := (parseInt s).map .inl

theorem wholeNumbers_prints : wholeNumbers.Prints := by
  rintro (n | k) hnan hinf hneg
  · refine ⟨toString_int_ne_nil n, fun c hc => ?_, ?_⟩
    · rcases of_mem_toString_int hc with rfl | hdigit
      · decide
      · exact isNumberByte_of_isDigit hdigit
    · show (parseInt (toString n).toList).map Sum.inl = _
      rw [parseInt_toString, Option.map_some]
  · fin_cases k
    · cases hnan
    · exact absurd rfl hinf
    · exact absurd rfl hneg

theorem curvesFromJson_curvesToJson_whole :
    curvesFromJson wholeNumbers (curvesToJson wholeNumbers
      [⟨[]⟩, ⟨[⟨.inl 0, .inl (-3), .inr 1⟩, ⟨.inl 10, .inr 2, .inr 0⟩]⟩]) =
        .ok [⟨[]⟩, ⟨[⟨.inl 0, .inl (-3), .inr 1⟩, ⟨.inl 10, .inr 2, .inr 0⟩]⟩] :=
  (curvesFromJson_curvesToJson wholeNumbers_prints).1 _

end Oak.Plugin
