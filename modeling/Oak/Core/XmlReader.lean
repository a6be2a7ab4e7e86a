import Oak.Lib.Decimal
import Oak.Lib.Text

/-!
# The reader of subtitle files

The pull reader of `oak-core/src/subtitleparams.rs`: entities, the list of events of a document, and
the cursor over it.

A panic of the source, and a loop that has not ended after one step for every byte, is `none`; what
the source reports is an `Error`.

## Main results

* `exists_decodeEntities`, `exists_parseEvents`: no text makes the reader panic, and it ends.
* `decodeEntities_flatMap`: what an escaper writes is decoded.
-/

namespace Oak.Core.Subtitles

open Oak.Lib Text

/-- The errors of this module. -/
inductive Error where
  | failed (message : String)
  deriving DecidableEq, Repr

/-! ### Entities -/

/-- The value of a digit. -/
def digitValue (radix : ℕ) (c : Char) : Option ℕ :=
  let n := c.toNat
  let value :=
    if 48 ≤ n ∧ n ≤ 57 then some (n - 48)
    else if 97 ≤ n ∧ n ≤ 122 then some (n - 87)
    else if 65 ≤ n ∧ n ≤ 90 then some (n - 55)
    else none
  value.bind fun d => if d < radix then some d else none

/-- `u32::from_str_radix`: a plus sign may stand before the digits. -/
def parseU32 (radix : ℕ) (s : Text) : Option ℕ :=
  let digits :=
    match s with
    | '+' :: s => s
    | s => s
  if digits = [] then none
  else
    (digits.foldl (fun n c => n.bind fun n => (digitValue radix c).map fun d => n * radix + d)
      (some 0)).bind fun n => if n < 2 ^ 32 then some n else none

/-- `char::from_u32`. -/
def charOfU32 (n : ℕ) : Option Char := if n.isValidChar then some (Char.ofNat n) else none

/-- What stands for an entity; an unknown one stands for itself. -/
def decodeEntity (entity : Text) : Text :=
  if entity = "amp".toList then ['&']
  else if entity = "lt".toList then ['<']
  else if entity = "gt".toList then ['>']
  else if entity = "quot".toList then ['"']
  else if entity = "apos".toList then ['\'']
  else
    let decoded :=
      match entity with
      | '#' :: 'x' :: hex => (parseU32 16 hex).bind charOfU32
      | '#' :: 'X' :: hex => (parseU32 16 hex).bind charOfU32
      | '#' :: dec => (parseU32 10 dec).bind charOfU32
      | _ => none
    decoded.elim ('&' :: entity ++ [';']) fun c => [c]

/-- The loop of `decode_entities`. -/
def decodeLoop (s : Text) : ℕ → ℕ → Text → Option Text
  | 0, _, _ => none
  | fuel + 1, i, out =>
    match byteAt s i with
    | none => some out
    | some b =>
      if b = '&'.toUInt8 then
        let semi := scan (fun x => x ≠ ';'.toUInt8) s (i + 1)
        if semi < size s then do
          let entity ← slice s (i + 1) semi
          decodeLoop s fuel (semi + 1) (out ++ decodeEntity entity)
        else decodeLoop s fuel (i + 1) (out ++ ['&'])
      else do
        let rest ← suffix s i
        let ch ← rest.head?
        decodeLoop s fuel (i + ch.utf8Size) (out ++ [ch])

/-- `decode_entities`. -/
def decodeEntities (s : Text) : Option Text := decodeLoop s (size s + 1) 0 []

/-! ### Events -/

/-- `XmlEvent`. -/
inductive XmlEvent where
  | start (name : Text) (attrs : List (Text × Text))
  | endElement
  | characters (text : Text)
  deriving DecidableEq, Repr

/-- White space between attributes. -/
def isSpace (b : UInt8) : Bool :=
  b = ' '.toUInt8 || b = '\t'.toUInt8 || b = '\r'.toUInt8 || b = '\n'.toUInt8

/-- `skip_ws`. -/
def skipWs (data : Text) (i : ℕ) : ℕ := scan isSpace data i

/-- `is_tag_delim`. -/
def isTagDelim (b : UInt8) : Bool :=
  b = ' '.toUInt8 || b = '\t'.toUInt8 || b = '\r'.toUInt8 || b = '\n'.toUInt8 || b = '>'.toUInt8 ||
    b = '/'.toUInt8 || b = '='.toUInt8

/-- The end of a name. -/
def scanName (data : Text) (i : ℕ) : ℕ := scan (fun b => !isTagDelim b) data i

/-- An attribute behind white space: its name, its value and where it ends. -/
def parseAttribute (data : Text) (i : ℕ) : Option (Except Error (Text × Text × ℕ)) :=
  let j := scanName data i
  if j = i then some (.error (.failed "malformed attribute in subtitleparams xml"))
  else do
    let name ← slice data i j
    let j := skipWs data j
    if byteAt data j ≠ some '='.toUInt8 then
      some (.error (.failed "attribute missing '='"))
    else
      let j := skipWs data (j + 1)
      match byteAt data j with
      | none => some (.error (.failed "attribute value not quoted"))
      | some quote =>
        if quote ≠ '"'.toUInt8 ∧ quote ≠ '\''.toUInt8 then
          some (.error (.failed "attribute value not quoted"))
        else
          let k := scan (fun b => b ≠ quote) data (j + 1)
          if size data ≤ k then some (.error (.failed "unterminated attribute value"))
          else do
            let value ← slice data (j + 1) k
            let value ← decodeEntities value
            some (.ok (name, value, k + 1))

/-- The loop over the attributes of a start element, with the events of the element and where it
ends. -/
def parseAttributes (data : Text) (name : Text) :
    ℕ → ℕ → List (Text × Text) → Option (Except Error (List XmlEvent × ℕ))
  | 0, _, _ => none
  | fuel + 1, i, attrs =>
    let i := skipWs data i
    match byteAt data i with
    | none => some (.error (.failed "unterminated start element"))
    | some b =>
      if b = '>'.toUInt8 then some (.ok ([.start name attrs], i + 1))
      else if b = '/'.toUInt8 ∧ byteAt data (i + 1) = some '>'.toUInt8 then
        some (.ok ([.start name attrs, .endElement], i + 2))
      else do
        match ← parseAttribute data i with
        | .error e => some (.error e)
        | .ok (aname, value, i) => parseAttributes data name fuel i (attrs ++ [(aname, value)])

/-- The loop over a declaration, with the number of open brackets. -/
def declarationEnd : List UInt8 → ℕ → Option ℕ
  | [], _ => none
  | b :: rest, subset =>
    if b = '>'.toUInt8 ∧ subset = 0 then some 0
    else
      let subset :=
        if b = '['.toUInt8 then subset + 1
        else if b = ']'.toUInt8 then subset - 1
        else subset
      (declarationEnd rest subset).map (· + 1)

/-- One round of the loop of `parse_events`: the events that are found at `i`, and where the next
round begins. -/
def parseStep (data : Text) (fuel i : ℕ) (b : UInt8) : Option (Except Error (List XmlEvent × ℕ)) :=
  if b ≠ '<'.toUInt8 then do
    let j := scan (fun b => b ≠ '<'.toUInt8) data i
    let text ← slice data i j
    let text ← decodeEntities text
    some (.ok ([.characters text], j))
  else
    match byteAt data (i + 1) with
    | none => some (.error (.failed "unterminated '<' in subtitleparams xml"))
    | some b =>
      if b = '/'.toUInt8 then
        let j := scan (fun b => b ≠ '>'.toUInt8) data (i + 2)
        if size data ≤ j then some (.error (.failed "unterminated end element"))
        else some (.ok ([.endElement], j + 1))
      else if b = '!'.toUInt8 then do
        let rest ← suffix data (i + 2)
        if "--".toList.isPrefixOf rest then do
          let content ← suffix data (i + 4)
          match findText "-->".toList content with
          | some p => some (.ok ([], i + 4 + p + 3))
          | none => some (.error (.failed "unterminated comment"))
        else
          match declarationEnd ((bytes data).drop (i + 2)) 0 with
          | some k => some (.ok ([], i + 2 + k + 1))
          | none => some (.error (.failed "unterminated declaration"))
      else if b = '?'.toUInt8 then do
        let rest ← suffix data (i + 2)
        match findText "?>".toList rest with
        | some p => some (.ok ([], i + 2 + p + 2))
        | none => some (.error (.failed "unterminated processing instruction"))
      else
        let j := scanName data (i + 1)
        if j = i + 1 then some (.error (.failed "empty element name"))
        else do
          let name ← slice data (i + 1) j
          parseAttributes data name fuel j []

/-- The loop of `parse_events`. -/
def parseLoop (data : Text) : ℕ → ℕ → List XmlEvent → Option (Except Error (List XmlEvent))
  | 0, _, _ => none
  | fuel + 1, i, events =>
    match byteAt data i with
    | none => some (.ok events)
    | some b => do
      match ← parseStep data fuel i b with
      | .error e => some (.error e)
      | .ok (found, i) => parseLoop data fuel i (events ++ found)

/-- `parse_events`. -/
def parseEvents (data : Text) : Option (Except Error (List XmlEvent)) :=
  parseLoop data (size data + 1) 0 []

/-! ### No text makes the reader panic -/

variable {s data rest : Text} {i fuel : ℕ}

theorem exists_decodeLoop (h : At s i rest) (hfuel : rest.length < fuel) (out : Text) :
    ∃ r, decodeLoop s fuel i out = some r := by
  induction fuel generalizing i rest out with
  | zero => exact absurd hfuel (Nat.not_lt_zero _)
  | succ fuel ih =>
    rcases rest with _ | ⟨c, rest⟩
    · exact ⟨out, by rw [decodeLoop, h.byteAt_nil]⟩
    rw [List.length_cons] at hfuel
    rw [decodeLoop, h.byteAt_cons]
    dsimp only
    split_ifs with hamp hsemi
    · -- an entity, up to the next semicolon
      obtain rfl := (firstByte_eq_iff (by decide)).1 hamp
      have hnext : At s (i + 1) rest := h.cons_ascii (by decide)
      rcases hnext.scan_cases (uniform_ne (d := ';') (by decide)) with
        hend | ⟨mid, c, tail, rfl, hscan, hc⟩
      · exact absurd hsemi (by rw [hend]; exact lt_irrefl _)
      obtain rfl : c = ';' := by
        rw [decide_eq_false_iff_not, not_not] at hc
        exact (firstByte_eq_iff (by decide)).1 hc
      have hsemi : At s (i + 1 + size mid) (';' :: tail) := hnext.append
      rw [hscan, hnext.slice, Option.bind_eq_bind, Option.bind_some]
      refine ih (hsemi.cons_ascii (by decide)) ?_ _
      rw [List.length_append, List.length_cons] at hfuel
      omega
    · obtain rfl := (firstByte_eq_iff (by decide)).1 hamp
      exact ih (h.cons_ascii (by decide)) (by omega) _
    · rw [suffix_eq_some_iff.2 h]
      exact ih h.cons (by omega) _

/-- No text makes `decode_entities` panic. -/
theorem exists_decodeEntities (s : Text) : ∃ r, decodeEntities s = some r :=
  exists_decodeLoop (.start s) (Nat.lt_succ_of_le (length_le_size s)) []

theorem uniform_isSpace : Uniform isSpace := by
  have h (b : UInt8) (hb : 128 ≤ b) : isSpace b = false := by
    simp only [isSpace, decide_eq_false (ne_of_le (d := ' ') (by decide) hb),
      decide_eq_false (ne_of_le (d := '\t') (by decide) hb),
      decide_eq_false (ne_of_le (d := '\r') (by decide) hb),
      decide_eq_false (ne_of_le (d := '\n') (by decide) hb), Bool.or_self]
  exact fun b b' hb hb' => (h b hb).trans (h b' hb').symm

theorem uniform_name : Uniform fun b => !isTagDelim b := by
  have h (b : UInt8) (hb : 128 ≤ b) : isTagDelim b = false := by
    simp only [isTagDelim, decide_eq_false (ne_of_le (d := ' ') (by decide) hb),
      decide_eq_false (ne_of_le (d := '\t') (by decide) hb),
      decide_eq_false (ne_of_le (d := '\r') (by decide) hb),
      decide_eq_false (ne_of_le (d := '\n') (by decide) hb),
      decide_eq_false (ne_of_le (d := '>') (by decide) hb),
      decide_eq_false (ne_of_le (d := '/') (by decide) hb),
      decide_eq_false (ne_of_le (d := '=') (by decide) hb), Bool.or_self]
  intro b b' hb hb'
  dsimp only
  rw [h b hb, h b' hb']

theorem exists_skipWs (h : At data i rest) :
    ∃ rest', At data (skipWs data i) rest' ∧ rest'.length ≤ rest.length :=
  ⟨_, h.scan_at uniform_isSpace, List.length_dropWhile_le _ _⟩

/-- An attribute is read up to the boundary of a character, and is not empty. -/
theorem parseAttribute_cases (h : At data i rest) :
    (∃ e, parseAttribute data i = some (.error e)) ∨ ∃ name value j rest',
      parseAttribute data i = some (.ok (name, value, j)) ∧ At data j rest' ∧
        rest'.length < rest.length := by
  rw [parseAttribute]
  dsimp only
  have hname : slice data i (scanName data i) =
      some (rest.takeWhile fun c => !isTagDelim (firstByte c)) := h.slice_scan uniform_name
  have hbehind : At data (scanName data i) (rest.dropWhile fun c => !isTagDelim (firstByte c)) :=
    h.scan_at uniform_name
  by_cases hempty : scanName data i = i
  · exact .inl ⟨_, if_pos hempty⟩
  rw [if_neg hempty, hname, Option.bind_eq_bind, Option.bind_some]
  obtain ⟨rest₁, h₁, hle₁⟩ := exists_skipWs hbehind
  by_cases heq : byteAt data (skipWs data (scanName data i)) = some '='.toUInt8
  swap
  · exact .inl ⟨_, if_pos heq⟩
  rw [if_neg (not_not.2 heq)]
  -- behind the equals sign
  obtain ⟨rest₂, rfl⟩ : ∃ rest₂, rest₁ = '=' :: rest₂ := by
    rcases rest₁ with _ | ⟨c, rest₂⟩
    · rw [h₁.byteAt_nil] at heq
      exact absurd heq (by simp)
    · rw [h₁.byteAt_cons] at heq
      exact ⟨rest₂, by rw [(firstByte_eq_iff (by decide)).1 (Option.some.inj heq)]⟩
  obtain ⟨rest₃, h₃, hle₃⟩ := exists_skipWs (h₁.cons_ascii (by decide))
  rcases rest₃ with _ | ⟨quote, rest₃⟩
  · rw [h₃.byteAt_nil]
    exact .inl ⟨_, rfl⟩
  rw [h₃.byteAt_cons]
  dsimp only
  split_ifs with hquote hend
  · exact .inl ⟨_, rfl⟩
  · exact .inl ⟨_, rfl⟩
  obtain ⟨d, hd, rfl⟩ : ∃ d, isAscii d = true ∧ quote = d := by
    rw [not_and_or, not_not, not_not] at hquote
    rcases hquote with hquote | hquote
    · exact ⟨'"', by decide, (firstByte_eq_iff (by decide)).1 hquote⟩
    · exact ⟨'\'', by decide, (firstByte_eq_iff (by decide)).1 hquote⟩
  rw [firstByte_of_isAscii hd] at hend ⊢
  have h₄ := h₃.cons_ascii hd
  rcases h₄.scan_cases (uniform_ne hd) with hall | ⟨mid, c, tail, rfl, hscan, hc⟩
  · exact absurd hall.ge hend
  rw [decide_eq_false_iff_not, not_not, firstByte_eq_iff hd] at hc
  obtain rfl := hc
  obtain ⟨value, hvalue⟩ := exists_decodeEntities mid
  rw [hscan, h₄.slice, Option.bind_some, hvalue, Option.bind_some]
  refine .inr ⟨_, _, _, tail, rfl, (At.cons_ascii h₄.append hd), ?_⟩
  have hle := List.length_dropWhile_le (fun c => !isTagDelim (firstByte c)) rest
  simp only [List.length_cons, List.length_append] at hle₁ hle₃
  omega

/-- The result of a part of the parser: an error, or events, behind which less is left. -/
def Advances (data rest : Text) (r : Option (Except Error (List XmlEvent × ℕ))) : Prop :=
  (∃ e, r = some (.error e)) ∨ ∃ events j rest', r = some (.ok (events, j)) ∧
    At data j rest' ∧ rest'.length < rest.length

theorem Advances.error (e : Error) : Advances data rest (some (.error e)) := .inl ⟨e, rfl⟩

theorem Advances.ok {rest' : Text} (events : List XmlEvent) (h : At data i rest')
    (hlt : rest'.length < rest.length) : Advances data rest (some (.ok (events, i))) :=
  .inr ⟨events, i, rest', rfl, h, hlt⟩

theorem Advances.mono {rest' : Text} {r : Option (Except Error (List XmlEvent × ℕ))}
    (h : Advances data rest' r) (hle : rest'.length ≤ rest.length) : Advances data rest r := by
  rcases h with herror | ⟨events, j, left, hr, hat, hlt⟩
  · exact .inl herror
  · exact .inr ⟨events, j, left, hr, hat, hlt.trans_le hle⟩

theorem advances_parseAttributes (h : At data i rest) (hfuel : rest.length < fuel) (name : Text)
    (attrs : List (Text × Text)) : Advances data rest (parseAttributes data name fuel i attrs) := by
  induction fuel generalizing i rest attrs with
  | zero => exact absurd hfuel (Nat.not_lt_zero _)
  | succ fuel ih =>
    obtain ⟨rest₁, h₁, hle⟩ := exists_skipWs h
    refine Advances.mono ?_ hle
    rw [parseAttributes]
    rcases rest₁ with _ | ⟨c, rest₁⟩
    · rw [h₁.byteAt_nil]
      exact .error _
    rw [h₁.byteAt_cons]
    dsimp only
    rw [List.length_cons] at hle
    by_cases hclose : firstByte c = '>'.toUInt8
    · obtain rfl := (firstByte_eq_iff (by decide)).1 hclose
      rw [if_pos hclose]
      exact .ok _ (h₁.cons_ascii (by decide)) (by rw [List.length_cons]; omega)
    rw [if_neg hclose]
    by_cases hempty : firstByte c = '/'.toUInt8 ∧
        byteAt data (skipWs data i + 1) = some '>'.toUInt8
    · obtain ⟨hslash, hgt⟩ := hempty
      obtain rfl := (firstByte_eq_iff (by decide)).1 hslash
      have h₂ := h₁.cons_ascii (by decide)
      rw [if_pos ⟨hslash, hgt⟩]
      rcases rest₁ with _ | ⟨d, rest₁⟩
      · rw [h₂.byteAt_nil] at hgt
        exact absurd hgt (by simp)
      rw [h₂.byteAt_cons] at hgt
      obtain rfl := (firstByte_eq_iff (by decide)).1 (Option.some.inj hgt)
      exact .ok _ (h₂.cons_ascii (by decide)) (by simp only [List.length_cons]; omega)
    rw [if_neg hempty]
    rcases parseAttribute_cases h₁ with ⟨e, he⟩ | ⟨aname, value, j, rest₂, hok, h₂, hlt⟩
    · rw [he]
      exact .error _
    · rw [hok]
      rw [List.length_cons] at hlt
      exact Advances.mono (ih h₂ (by omega) _) (by rw [List.length_cons]; omega)

/-- The closing bracket of a declaration is a byte of its own. -/
theorem declarationEnd_eq_some {l : List UInt8} {subset k : ℕ}
    (h : declarationEnd l subset = some k) : l[k]? = some '>'.toUInt8 := by
  induction l generalizing subset k with
  | nil => exact absurd h (by simp [declarationEnd])
  | cons b l ih =>
    rw [declarationEnd] at h
    by_cases hend : b = '>'.toUInt8 ∧ subset = 0
    · rw [if_pos hend] at h
      obtain rfl := Option.some.inj h
      rw [hend.1]
      rfl
    · rw [if_neg hend] at h
      obtain ⟨k, hk, rfl⟩ := Option.map_eq_some_iff.1 h
      rw [List.getElem?_cons_succ]
      exact ih hk

variable {c : Char}

theorem advances_parseStep (h : At data i (c :: rest)) (hfuel : rest.length < fuel) :
    Advances data (c :: rest) (parseStep data fuel i (firstByte c)) := by
  rw [parseStep]
  by_cases hopen : firstByte c = '<'.toUInt8
  swap
  · -- character data
    rw [if_pos hopen]
    have hpass : decide (firstByte c ≠ '<'.toUInt8) = true := decide_eq_true hopen
    have huniform := uniform_ne (d := '<') (by decide)
    dsimp only
    obtain ⟨text, htext⟩ := exists_decodeEntities
      ((c :: rest).takeWhile fun c => decide (firstByte c ≠ '<'.toUInt8))
    rw [h.slice_scan huniform, Option.bind_eq_bind, Option.bind_some, htext]
    refine .ok _ (h.scan_at huniform) ?_
    rw [List.dropWhile_cons, if_pos hpass]
    exact Nat.lt_succ_of_le (List.length_dropWhile_le _ _)
  rw [if_neg (not_not.2 hopen)]
  obtain rfl := (firstByte_eq_iff (by decide)).1 hopen
  have h₁ : At data (i + 1) rest := h.cons_ascii (by decide)
  refine Advances.mono ?_ (Nat.le_succ rest.length)
  rcases rest with _ | ⟨c, rest⟩
  · rw [h₁.byteAt_nil]
    exact .error _
  rw [h₁.byteAt_cons]
  dsimp only
  by_cases hslash : firstByte c = '/'.toUInt8
  · -- an end element
    obtain rfl := (firstByte_eq_iff (by decide)).1 hslash
    rw [if_pos hslash]
    have h₂ : At data (i + 2) rest := h₁.cons_ascii (by decide)
    split_ifs with hend
    · exact .error _
    rcases h₂.scan_cases (uniform_ne (d := '>') (by decide)) with
      hall | ⟨mid, c, tail, rfl, hscan, hc⟩
    · exact absurd hall.ge hend
    rw [decide_eq_false_iff_not, not_not, firstByte_eq_iff (by decide)] at hc
    obtain rfl := hc
    rw [hscan]
    refine .ok _ (At.cons_ascii h₂.append (by decide)) ?_
    simp only [List.length_cons, List.length_append]
    omega
  rw [if_neg hslash]
  by_cases hbang : firstByte c = '!'.toUInt8
  · obtain rfl := (firstByte_eq_iff (by decide)).1 hbang
    rw [if_pos hbang]
    have h₂ : At data (i + 2) rest := h₁.cons_ascii (by decide)
    rw [suffix_eq_some_iff.2 h₂, Option.bind_eq_bind, Option.bind_some]
    by_cases hcomment : "--".toList.isPrefixOf rest = true
    · -- a comment
      rw [if_pos hcomment]
      obtain ⟨content, rfl⟩ := List.isPrefixOf_iff_prefix.1 hcomment
      have h₄ : At data (i + 4) content := h₂.append
      rw [suffix_eq_some_iff.2 h₄, Option.bind_some]
      rcases hfind : findText "-->".toList content with _ | p
      · exact .error _
      · obtain ⟨tail, htail, hle⟩ := h₄.findText hfind
        refine .ok _ htail ?_
        simp only [List.length_cons, List.length_append]
        omega
    · -- a declaration
      rw [if_neg hcomment]
      rcases hend : declarationEnd ((bytes data).drop (i + 2)) 0 with _ | k
      · exact .error _
      rw [h₂.drop_bytes] at hend
      obtain ⟨mid, d, tail, rfl, rfl, hd, hbyte⟩ :=
        exists_of_bytes (by decide) (declarationEnd_eq_some hend)
      refine .ok _ (At.cons_ascii h₂.append hd) ?_
      simp only [List.length_cons, List.length_append]
      omega
  rw [if_neg hbang]
  by_cases hmark : firstByte c = '?'.toUInt8
  · -- a processing instruction
    obtain rfl := (firstByte_eq_iff (by decide)).1 hmark
    rw [if_pos hmark]
    have h₂ : At data (i + 2) rest := h₁.cons_ascii (by decide)
    rw [suffix_eq_some_iff.2 h₂, Option.bind_eq_bind, Option.bind_some]
    rcases hfind : findText "?>".toList rest with _ | p
    · exact .error _
    · obtain ⟨tail, htail, hle⟩ := h₂.findText hfind
      exact .ok _ htail (Nat.lt_succ_of_le hle)
  rw [if_neg hmark]
  -- a start element
  have hname : slice data (i + 1) (scanName data (i + 1)) =
      some ((c :: rest).takeWhile fun c => !isTagDelim (firstByte c)) := h₁.slice_scan uniform_name
  have hbehind : At data (scanName data (i + 1))
    ((c :: rest).dropWhile fun c => !isTagDelim (firstByte c)) := h₁.scan_at uniform_name
  by_cases hempty : scanName data (i + 1) = i + 1
  · rw [if_pos hempty]
    exact .error _
  rw [if_neg hempty, hname, Option.bind_eq_bind, Option.bind_some]
  have hle := List.length_dropWhile_le (fun c => !isTagDelim (firstByte c)) (c :: rest)
  exact Advances.mono (advances_parseAttributes hbehind (by omega) _ _) hle

theorem exists_parseLoop (h : At data i rest) (hfuel : rest.length < fuel)
    (events : List XmlEvent) : ∃ r, parseLoop data fuel i events = some r := by
  induction fuel generalizing i rest events with
  | zero => exact absurd hfuel (Nat.not_lt_zero _)
  | succ fuel ih =>
    rw [parseLoop]
    rcases rest with _ | ⟨c, rest⟩
    · rw [h.byteAt_nil]
      exact ⟨_, rfl⟩
    rw [List.length_cons] at hfuel
    rw [h.byteAt_cons]
    dsimp only
    rcases advances_parseStep h (by omega : rest.length < fuel) with
      ⟨e, he⟩ | ⟨found, j, rest', hok, h', hlt⟩
    · rw [he]
      exact ⟨_, rfl⟩
    · rw [hok]
      rw [List.length_cons] at hlt
      exact ih h' (by omega) _

/-- No text makes `parse_events` panic, or go on for ever. -/
theorem exists_parseEvents (data : Text) : ∃ r, parseEvents data = some r :=
  exists_parseLoop (.start data) (Nat.lt_succ_of_le (length_le_size data)) []

/-! ### What an escaper writes -/

/-- An escaper: a character stands for itself, or is written as an entity. -/
def Escapes (f : Char → Text) : Prop := ∀ c, f c = [c] ∧ c ≠ '&' ∨
  ∃ name, f c = '&' :: (name ++ [';']) ∧ ';' ∉ name ∧ decodeEntity name = [c]

variable {f : Char → Text}

theorem decodeLoop_flatMap (hf : Escapes f) (t : Text) (h : At s i (t.flatMap f))
    (hfuel : (t.flatMap f).length < fuel) (out : Text) :
    decodeLoop s fuel i out = some (out ++ t) := by
  induction t generalizing i fuel out with
  | nil =>
    obtain ⟨fuel, rfl⟩ := Nat.exists_eq_succ_of_ne_zero (Nat.ne_of_gt hfuel)
    rw [List.flatMap_nil] at h
    rw [decodeLoop, h.byteAt_nil, List.append_nil]
  | cons c t ih =>
    obtain ⟨fuel, rfl⟩ := Nat.exists_eq_succ_of_ne_zero (Nat.ne_zero_of_lt hfuel)
    rw [List.flatMap_cons] at h hfuel
    rw [List.append_cons]
    rcases hf c with ⟨hself, hne⟩ | ⟨name, hentity, hnot, hdecode⟩
    · -- a character that stands for itself
      rw [hself] at h hfuel
      have hamp : firstByte c ≠ '&'.toUInt8 := fun heq =>
        hne ((firstByte_eq_iff (by decide)).1 heq)
      have hc : At s i (c :: t.flatMap f) := h
      rw [decodeLoop, hc.byteAt_cons]
      dsimp only
      rw [if_neg hamp, suffix_eq_some_iff.2 hc]
      refine ih hc.cons ?_ _
      rw [List.length_append, List.length_singleton] at hfuel
      omega
    · -- an entity
      rw [hentity] at h hfuel
      have hc : At s i ('&' :: (name ++ ';' :: t.flatMap f)) := by
        rwa [List.cons_append, List.append_assoc] at h
      have hnext := hc.cons_ascii (by decide)
      have hsemi := hnext.append
      have hscan := hnext.scan_append (uniform_ne (d := ';') (by decide))
        (fun d hd => decide_eq_true fun heq =>
          hnot ((firstByte_eq_iff (by decide)).1 heq ▸ hd)) (by decide)
      rw [decodeLoop, hc.byteAt_cons]
      dsimp only
      rw [if_pos (firstByte_of_isAscii (by decide)), hscan, if_pos hsemi.lt_size, hnext.slice,
        Option.bind_eq_bind, Option.bind_some, hdecode]
      refine ih (hsemi.cons_ascii (by decide)) ?_ _
      simp only [List.length_append, List.length_cons] at hfuel
      omega

/-- What an escaper writes is decoded. -/
theorem decodeEntities_flatMap (hf : Escapes f) (t : Text) :
    decodeEntities (t.flatMap f) = some t :=
  decodeLoop_flatMap hf t (.start _) (Nat.lt_succ_of_le (length_le_size _)) []

/-! ### What a writer writes -/

/-- The parser takes a text for events, whatever comes behind it. -/
def Reads (t : Text) (found : List XmlEvent) : Prop :=
  ∀ (data : Text) (i : ℕ) (rest : Text) (fuel : ℕ) (events : List XmlEvent),
    At data i (t ++ rest) → (t ++ rest).length < fuel → ∃ j fuel', At data j rest ∧
      rest.length < fuel' ∧
        parseLoop data fuel i events = parseLoop data fuel' j (events ++ found)

theorem Reads.nil : Reads [] [] := fun data i rest fuel events h hfuel =>
  ⟨i, fuel, h, hfuel, by rw [List.append_nil]⟩

theorem Reads.append {t u : Text} {found found' : List XmlEvent} (ht : Reads t found)
    (hu : Reads u found') : Reads (t ++ u) (found ++ found') := by
  intro data i rest fuel events h hfuel
  rw [List.append_assoc] at h hfuel
  obtain ⟨j, fuel', h', hfuel', hloop⟩ := ht data i (u ++ rest) fuel events h hfuel
  obtain ⟨k, fuel'', h'', hfuel'', hloop'⟩ := hu data j rest fuel' (events ++ found) h' hfuel'
  exact ⟨k, fuel'', h'', hfuel'', by rw [hloop, hloop', List.append_assoc]⟩

theorem Reads.flatMap {α : Type*} {write : α → Text} {found : α → List XmlEvent}
    (h : ∀ a, Reads (write a) (found a)) (l : List α) :
    Reads (l.flatMap write) (l.flatMap found) := by
  induction l with
  | nil => exact .nil
  | cons a l ih => exact (h a).append ih

theorem Reads.parseEvents {t : Text} {found : List XmlEvent} (h : Reads t found) :
    parseEvents t = some (.ok found) := by
  have hstart : At t 0 (t ++ []) := by
    rw [List.append_nil]
    exact .start t
  obtain ⟨j, fuel, hend, hfuel, hloop⟩ := h t 0 [] (size t + 1) [] hstart (by
    rw [List.append_nil]
    exact Nat.lt_succ_of_le (length_le_size t))
  obtain ⟨fuel, rfl⟩ := Nat.exists_eq_succ_of_ne_zero (Nat.ne_zero_of_lt hfuel)
  rw [Subtitles.parseEvents, hloop, parseLoop, hend.byteAt_nil]
  rfl

theorem reads_of_step {t : Text} {found : List XmlEvent}
    (h : ∀ (data : Text) (i : ℕ) (rest : Text) (fuel : ℕ), At data i (c :: (t ++ rest)) →
      (t ++ rest).length < fuel → ∃ j, At data j rest ∧
        parseStep data fuel i (firstByte c) = some (.ok (found, j))) : Reads (c :: t) found := by
  intro data i rest fuel events hat hfuel
  obtain ⟨fuel, rfl⟩ := Nat.exists_eq_succ_of_ne_zero (Nat.ne_zero_of_lt hfuel)
  rw [List.cons_append] at hat hfuel
  have hlt : (t ++ rest).length < fuel := Nat.lt_of_succ_lt_succ hfuel
  obtain ⟨j, hj, hstep⟩ := h data i rest fuel hat hlt
  refine ⟨j, fuel, hj, ?_, ?_⟩
  · rw [List.length_append] at hlt
    omega
  · rw [parseLoop, hat.byteAt_cons]
    dsimp only
    rw [hstep]
    rfl

variable {name : Text}

theorem reads_close (hname : '>' ∉ name) : Reads ('<' :: '/' :: (name ++ ['>'])) [.endElement] := by
  refine reads_of_step fun data i rest fuel h _ => ?_
  have h₁ := h.cons_ascii (by decide)
  have h₂ : At data (i + 2) (name ++ '>' :: rest) := by
    have h₂ : At data (i + 2) ((name ++ ['>']) ++ rest) := h₁.cons_ascii (by decide)
    rwa [List.append_assoc] at h₂
  have hend := h₂.append
  have hscan := h₂.scan_append (uniform_ne (d := '>') (by decide))
    (fun d hd => decide_eq_true fun heq => hname ((firstByte_eq_iff (by decide)).1 heq ▸ hd))
    (by decide)
  refine ⟨_, hend.cons_ascii (by decide), ?_⟩
  rw [parseStep, if_neg (by decide), h₁.byteAt_cons]
  dsimp only
  rw [if_pos (by decide), hscan, if_neg (Nat.not_le.2 hend.lt_size)]

theorem parseStep_characters (hf : Escapes f) (hopen : ∀ c, '<' ∉ f c) {t : Text} {tail : Text}
    (ht : t.flatMap f = c :: tail) (h : At data i (c :: (tail ++ '<' :: rest))) :
    parseStep data fuel i (firstByte c) =
      some (.ok ([.characters t], i + size (c :: tail))) := by
  have hnot : '<' ∉ c :: tail := by
    rw [← ht, List.mem_flatMap]
    exact fun ⟨d, _, hd⟩ => hopen d hd
  have hpass : ∀ d ∈ c :: tail, decide (firstByte d ≠ '<'.toUInt8) = true := fun d hd =>
    decide_eq_true fun heq => hnot ((firstByte_eq_iff (by decide)).1 heq ▸ hd)
  have h' : At data i ((c :: tail) ++ '<' :: rest) := h
  have hscan := h'.scan_append (uniform_ne (d := '<') (by decide)) hpass (by decide)
  have hslice := h'.slice
  rw [parseStep, if_pos (of_decide_eq_true (hpass c List.mem_cons_self))]
  dsimp only
  rw [hscan, hslice, Option.bind_eq_bind, Option.bind_some, ← ht, decodeEntities_flatMap hf,
    Option.bind_some]

theorem reads_text (hf : Escapes f) (hopen : ∀ c, '<' ∉ f c) (hname : '>' ∉ name) (t : Text) :
    Reads (t.flatMap f ++ '<' :: '/' :: (name ++ ['>']))
      ((if t = [] then [] else [.characters t]) ++ [.endElement]) := by
  rcases ht : t.flatMap f with _ | ⟨c, tail⟩
  · have hnil : t = [] := by
      rcases t with _ | ⟨d, t⟩
      · rfl
      · rw [List.flatMap_cons] at ht
        rcases hf d with ⟨hself, -⟩ | ⟨_, hentity, -⟩
        · rw [hself] at ht
          exact absurd ht (by simp)
        · rw [hentity] at ht
          exact absurd ht (by simp)
    rw [if_pos hnil]
    exact reads_close hname
  · have hne : t ≠ [] := by
      rintro rfl
      exact absurd ht (by simp)
    rw [if_neg hne]
    intro data i rest fuel events h hfuel
    obtain ⟨fuel, rfl⟩ := Nat.exists_eq_succ_of_ne_zero (Nat.ne_zero_of_lt hfuel)
    have h' : At data i (c :: (tail ++ '<' :: ('/' :: (name ++ ['>']) ++ rest))) := by
      rwa [List.append_assoc] at h
    have hclose : At data (i + size (c :: tail)) (('<' :: '/' :: (name ++ ['>'])) ++ rest) := by
      have hbegin : At data i ((c :: tail) ++ (('<' :: '/' :: (name ++ ['>'])) ++ rest)) := h'
      exact hbegin.append
    have hlt : (('<' :: '/' :: (name ++ ['>'])) ++ rest).length < fuel := by
      rw [List.append_assoc, List.length_append, List.length_cons] at hfuel
      omega
    obtain ⟨j, fuel', hj, hfuel', hloop⟩ :=
      reads_close hname data _ rest fuel (events ++ [.characters t]) hclose hlt
    refine ⟨j, fuel', hj, hfuel', ?_⟩
    rw [parseLoop, h'.byteAt_cons]
    dsimp only
    rw [parseStep_characters hf hopen ht h', Option.bind_eq_bind, Option.bind_some]
    dsimp only
    rw [hloop, List.append_assoc]

/-- A name as the parser takes it. -/
def IsName (name : Text) : Prop := name ≠ [] ∧ ∀ c ∈ name, isTagDelim (firstByte c) = false

instance (name : Text) : Decidable (IsName name) := inferInstanceAs (Decidable (_ ∧ _))

theorem IsName.pass (h : IsName name) :
    ∀ c ∈ name, (!isTagDelim (firstByte c)) = true := fun c hc => by rw [h.2 c hc, Bool.not_false]

theorem isSpace_of_not_isTagDelim {b : UInt8} (h : isTagDelim b = false) : isSpace b = false := by
  simp only [isTagDelim, Bool.or_eq_false_iff] at h
  simp only [isSpace, Bool.or_eq_false_iff]
  exact h.1.1.1

theorem skipWs_eq (h : At data i (c :: rest)) (hc : isSpace (firstByte c) = false) :
    skipWs data i = i := by
  have h' : At data i ([] ++ c :: rest) := h
  exact (h'.scan_append uniform_isSpace (by simp) hc).trans (by rw [size_nil, Nat.add_zero])

theorem scanName_eq (h : At data i (name ++ c :: rest)) (hname : IsName name)
    (hc : isTagDelim (firstByte c) = true) :
    scanName data i = i + size name ∧ slice data i (i + size name) = some name := by
  refine ⟨h.scan_append uniform_name hname.pass ?_, h.slice⟩
  rw [hc, Bool.not_true]

theorem IsName.size_pos (h : IsName name) : 0 < size name :=
  (List.length_pos_iff.2 h.1).trans_le (length_le_size name)

/-- An attribute as it is written. -/
def writeAttribute (f : Char → Text) (a : Text × Text) : Text :=
  ' ' :: (a.1 ++ '=' :: '"' :: (a.2.flatMap f ++ ['"']))

theorem parseAttribute_write (hf : Escapes f) (hquote : ∀ c, '"' ∉ f c) {name value : Text}
    (hname : IsName name) (h : At data i (name ++ '=' :: '"' :: (value.flatMap f ++ '"' :: rest))) :
    ∃ j, At data j rest ∧ parseAttribute data i = some (.ok (name, value, j)) := by
  obtain ⟨hscan, hslice⟩ := scanName_eq h hname (by decide)
  have heq := h.append
  have hopen := heq.cons_ascii (by decide)
  have hvalue := hopen.cons_ascii (by decide)
  have hclose := hvalue.append
  have hnot : '"' ∉ value.flatMap f := by
    rw [List.mem_flatMap]
    exact fun ⟨c, _, hc⟩ => hquote c hc
  have hend := hvalue.scan_append (uniform_ne (d := '"') (by decide))
    (fun d hd => decide_eq_true fun heq => hnot ((firstByte_eq_iff (by decide)).1 heq ▸ hd))
    (by decide)
  have hpos := hname.size_pos
  refine ⟨_, hclose.cons_ascii (by decide), ?_⟩
  rw [parseAttribute]
  dsimp only
  rw [hscan, if_neg (by omega), hslice, Option.bind_eq_bind, Option.bind_some,
    skipWs_eq heq (by decide), heq.byteAt_cons, firstByte_of_isAscii (by decide),
    if_neg (not_not.2 rfl), skipWs_eq hopen (by decide), hopen.byteAt_cons]
  dsimp only
  rw [firstByte_of_isAscii (by decide), if_neg (by decide), hend,
    if_neg (Nat.not_le.2 hclose.lt_size), hvalue.slice, Option.bind_some,
    decodeEntities_flatMap hf, Option.bind_some]

variable {attrs : List (Text × Text)}

/-- The attributes of a start element as they are written. -/
theorem parseAttributes_write (hf : Escapes f) (hquote : ∀ c, '"' ∉ f c) (name : Text)
    (hnames : ∀ a ∈ attrs, IsName a.1)
    (h : At data i (attrs.flatMap (writeAttribute f) ++ '>' :: rest))
    (hfuel : (attrs.flatMap (writeAttribute f)).length < fuel) (before : List (Text × Text)) :
    ∃ j, At data j rest ∧ parseAttributes data name fuel i before =
      some (.ok ([.start name (before ++ attrs)], j)) := by
  induction attrs generalizing i fuel before with
  | nil =>
    obtain ⟨fuel, rfl⟩ := Nat.exists_eq_succ_of_ne_zero (Nat.ne_zero_of_lt hfuel)
    rw [List.flatMap_nil, List.nil_append] at h
    refine ⟨_, h.cons_ascii (by decide), ?_⟩
    rw [parseAttributes, skipWs_eq h (by decide), h.byteAt_cons]
    dsimp only
    rw [if_pos (by decide), List.append_nil]
  | cons a attrs ih =>
    obtain ⟨fuel, rfl⟩ := Nat.exists_eq_succ_of_ne_zero (Nat.ne_zero_of_lt hfuel)
    obtain ⟨aname, value⟩ := a
    obtain ⟨hname, hothers⟩ := List.forall_mem_cons.1 hnames
    have hspace : At data i (' ' :: (aname ++ '=' :: '"' :: (value.flatMap f ++
        '"' :: (attrs.flatMap (writeAttribute f) ++ '>' :: rest)))) := by
      rw [List.flatMap_cons, writeAttribute] at h
      simpa only [List.cons_append, List.append_assoc, List.nil_append] using h
    have hattr := hspace.cons_ascii (by decide)
    obtain ⟨c, tail, rfl⟩ := List.exists_cons_of_ne_nil hname.1
    have hc : isTagDelim (firstByte c) = false := hname.2 c List.mem_cons_self
    have hskip : skipWs data i = i + 1 := by
      have hone : At data i ([' '] ++ c :: (tail ++ '=' :: '"' :: (value.flatMap f ++
          '"' :: (attrs.flatMap (writeAttribute f) ++ '>' :: rest)))) := hspace
      exact hone.scan_append uniform_isSpace (by decide) (isSpace_of_not_isTagDelim hc)
    obtain ⟨j, hj, hparse⟩ := parseAttribute_write hf hquote hname hattr
    have hlt : (attrs.flatMap (writeAttribute f)).length < fuel := by
      rw [List.flatMap_cons, List.length_append] at hfuel
      have hpos : 0 < (writeAttribute f (c :: tail, value)).length := List.length_pos_of_ne_nil (by
        simp [writeAttribute])
      omega
    obtain ⟨k, hk, hrest⟩ := ih hothers hj hlt (before ++ [(c :: tail, value)])
    refine ⟨k, hk, ?_⟩
    have hclose : firstByte c ≠ '>'.toUInt8 ∧ firstByte c ≠ '/'.toUInt8 := by
      simp only [isTagDelim, Bool.or_eq_false_iff, decide_eq_false_iff_not] at hc
      exact ⟨hc.1.1.2, hc.1.2⟩
    have hfirst : At data (i + 1) (c :: (tail ++ '=' :: '"' :: (value.flatMap f ++
        '"' :: (attrs.flatMap (writeAttribute f) ++ '>' :: rest)))) := hattr
    rw [parseAttributes, hskip, hfirst.byteAt_cons]
    dsimp only
    rw [if_neg hclose.1, if_neg fun hboth => hclose.2 hboth.1, hparse, Option.bind_eq_bind,
      Option.bind_some]
    dsimp only
    rw [hrest, List.append_assoc]
    rfl

theorem reads_open (hf : Escapes f) (hquote : ∀ c, '"' ∉ f c) (hname : IsName name)
    (hfirst : ∀ c ∈ name.head?, c ≠ '!' ∧ c ≠ '?') (hnames : ∀ a ∈ attrs, IsName a.1) :
    Reads ('<' :: (name ++ (attrs.flatMap (writeAttribute f) ++ ['>']))) [.start name attrs] := by
  refine reads_of_step fun data i rest fuel h hfuel => ?_
  obtain ⟨c, tail, rfl⟩ := List.exists_cons_of_ne_nil hname.1
  obtain ⟨hbang, hmark⟩ := hfirst c rfl
  have hc : isTagDelim (firstByte c) = false := hname.2 c List.mem_cons_self
  have hslash : firstByte c ≠ '/'.toUInt8 := by
    simp only [isTagDelim, Bool.or_eq_false_iff, decide_eq_false_iff_not] at hc
    exact hc.1.2
  have h₁ : At data (i + 1) ((c :: tail) ++ (attrs.flatMap (writeAttribute f) ++ '>' :: rest)) := by
    have h₁ := h.cons_ascii (by decide)
    simpa only [List.append_assoc, List.cons_append, List.nil_append] using h₁
  have h₁' : At data (i + 1) (c :: (tail ++ (attrs.flatMap (writeAttribute f) ++ '>' :: rest))) :=
    h₁
  have hend : scanName data (i + 1) = i + 1 + size (c :: tail) ∧
      slice data (i + 1) (i + 1 + size (c :: tail)) = some (c :: tail) := by
    rcases attrs with _ | ⟨a, attrs⟩
    · exact scanName_eq h₁ hname (by decide)
    · exact scanName_eq (c := ' ') h₁ hname (by decide)
  have hlt : (attrs.flatMap (writeAttribute f)).length < fuel := by
    simp only [List.length_append] at hfuel
    omega
  obtain ⟨j, hj, hattrs⟩ :=
    parseAttributes_write hf hquote (c :: tail) hnames h₁.append hlt []
  refine ⟨j, hj, ?_⟩
  have hpos := hname.size_pos
  rw [parseStep, if_neg (by decide), h₁'.byteAt_cons]
  dsimp only
  rw [if_neg hslash, if_neg fun heq => hbang ((firstByte_eq_iff (by decide)).1 heq),
    if_neg fun heq => hmark ((firstByte_eq_iff (by decide)).1 heq), hend.1, if_neg (by omega),
    hend.2]
  exact hattrs

end Oak.Core.Subtitles
