import Oak.Lib.Cursor
import Oak.Lib.Decimal

/-!
# The parser of export presets

A preset is a small XML document. The parser walks it with a cursor that counts bytes: names are
passed over in whole characters, but white space, attribute values and texts one byte at a time.

* `El`: an element of a document.
* `parseElement inp wide fuel`: the parser over an input; `wide` tells which characters of more
  than one byte are letters or digits.
* `parsePreset wide data`: the parser on the bytes of `data`, `none` where it slices within a
  character.
* `tree wide data`, `passed wide data`: what the same parser makes of whole characters, and the
  characters it passes in white space, values and texts.
* `Piece`: a text that is read as an element, with the characters passed in it.

## Main results

* `parsePreset_eq`: the cursor makes of a text what the reader of characters does, as long as the
  characters passed have one byte each.
* `tree_ne_stuck`: the parser terminates.
-/

namespace Oak.Codec

open Oak.Lib Oak.Lib.Text

/-- `El`. -/
structure El where
  name : Text
  attrs : List (Text × Text)
  text : Option Text
  children : List El

/-- `child`. -/
def child (el : El) (name : Text) : Option El := el.children.find? fun c => c.name = name

/-- `attr`. -/
def attr (el : El) (name : Text) : Option Text := el.attrs.lookup name

/-! ### The parser -/

section Parser

variable {m : Type → Type} [Monad m] (inp : Input m) (wide : Char → Bool)

/-- The characters of a name: `is_alphanumeric`, `_` and `-`. -/
def isNameChar (c : Char) : Bool :=
  (if isAscii c then c.isAlphanum else wide c) || c = '_' || c = '-'

/-- `skip_ws`. -/
def skipWs : m Unit := do
  let _ ← inp.pass isWhitespace
  pure ()

/-- A text that has to come next. -/
def require (text message : Text) : m Unit := do
  if ← inp.eat text then pure () else inp.fail (.failed message)

/-- `read_name`. -/
def readName : m Text := do
  let name ← inp.word (isNameChar wide)
  if name = [] then inp.fail (.failed "expected element/attribute name".toList) else pure name

/-- `read_attr_value`. -/
def readAttrValue : m Text := do
  skipWs inp
  require inp "\"".toList "expected quoted attribute value".toList
  let v ← inp.pass (· ≠ '"')
  if ← inp.atEnd then inp.fail (.failed "unterminated attribute value".toList)
  else do
    let _ ← inp.eat "\"".toList
    pure v

/-- `expect_end`. -/
def expectEnd (name : Text) : m Unit := do
  skipWs inp
  require inp "</".toList ("expected </".toList ++ name ++ ">".toList)
  let n ← readName inp wide
  skipWs inp
  require inp ">".toList "expected '>' closing end tag".toList
  if n = name then pure ()
  else inp.fail (.failed ("mismatched end tag ".toList ++ n ++ " vs ".toList ++ name))

/-- The attributes of an element, and whether it ends with them. -/
def readAttrs : ℕ → m (Bool × List (Text × Text))
  | 0 => inp.fail .stuck
  | fuel + 1 => do
    skipWs inp
    if ← inp.eat "/>".toList then pure (true, [])
    else if ← inp.eat ">".toList then pure (false, [])
    else do
      let an ← readName inp wide
      skipWs inp
      let _ ← inp.eat "=".toList
      let v ← readAttrValue inp
      let (closed, attrs) ← readAttrs fuel
      pure (closed, (an, v) :: attrs)

/-- The elements within an element. -/
def parseChildren (element : m El) : ℕ → m (List El)
  | 0 => inp.fail .stuck
  | fuel + 1 => do
    skipWs inp
    if ← inp.atEnd then inp.fail (.failed "unexpected EOF in element".toList)
    else if ← inp.startsWith "</".toList then pure []
    else if ← inp.startsWith "<".toList then do
      let c ← element
      let children ← parseChildren element fuel
      pure (c :: children)
    else inp.fail (.failed "unexpected text at element level".toList)

/-- `parse_element`. -/
def parseElement : ℕ → m El
  | 0 => inp.fail .stuck
  | fuel + 1 => do
    skipWs inp
    require inp "<".toList "expected element".toList
    let name ← readName inp wide
    skipWs inp
    let (closed, attrs) ← readAttrs inp wide fuel
    if closed then pure ⟨name, attrs, none, []⟩
    else do
      skipWs inp
      -- at the end of the text no element begins
      if ← inp.startsWith "<".toList then do
        let children ← parseChildren inp (parseElement fuel) fuel
        expectEnd inp wide name
        pure ⟨name, attrs, none, children⟩
      else do
        let text ← inp.pass (· ≠ '<')
        expectEnd inp wide name
        pure ⟨name, attrs, some text, []⟩

end Parser

variable (wide : Char → Bool) (data : Text)

/-- `parse_preset`. -/
def parsePreset : Option (Except Fault El) :=
  (parseElement (cursor data) wide (size data + 2) 0).map (Except.map Prod.fst)

/-- What the parser makes of whole characters. -/
def tree : Except Fault El :=
  Except.map Prod.fst (parseElement reader wide (size data + 2) data).1

/-- The characters that it passes in white space, values and texts. -/
def passed : List Char := (parseElement reader wide (size data + 2) data).2

/-! ### Bytes and characters -/

variable {wide data} {s : Text}

theorem sim_skipWs (s : Text) : Sim s (skipWs (cursor s)) (skipWs reader) :=
  (sim_pass s isWhitespace).bind fun _ => .pure s ()

theorem sim_require (s text message : Text) :
    Sim s (require (cursor s) text message) (require reader text message) := by
  refine (sim_eat s text).bind fun b => ?_
  cases b with
  | true => exact .pure s ()
  | false => exact sim_fail s _

theorem sim_readName (s : Text) : Sim s (readName (cursor s) wide) (readName reader wide) := by
  refine (sim_word s _).bind fun name => ?_
  by_cases hname : name = []
  · rw [if_pos hname, if_pos hname]
    exact sim_fail s _
  · rw [if_neg hname, if_neg hname]
    exact .pure s name

theorem sim_readAttrValue (s : Text) : Sim s (readAttrValue (cursor s)) (readAttrValue reader) := by
  refine (sim_skipWs s).bind fun _ => (sim_require s _ _).bind fun _ =>
    (sim_pass s _).bind fun v => (sim_atEnd s).bind fun b => ?_
  cases b with
  | true => exact sim_fail s _
  | false => exact (sim_eat s _).bind fun _ => .pure s v

theorem sim_expectEnd (s name : Text) :
    Sim s (expectEnd (cursor s) wide name) (expectEnd reader wide name) := by
  refine (sim_skipWs s).bind fun _ => (sim_require s _ _).bind fun _ =>
    (sim_readName s).bind fun n => (sim_skipWs s).bind fun _ => (sim_require s _ _).bind fun _ => ?_
  by_cases hn : n = name
  · rw [if_pos hn, if_pos hn]
    exact .pure s ()
  · rw [if_neg hn, if_neg hn]
    exact sim_fail s _

theorem sim_readAttrs (s : Text) (fuel : ℕ) :
    Sim s (readAttrs (cursor s) wide fuel) (readAttrs reader wide fuel) := by
  induction fuel with
  | zero => exact sim_fail s _
  | succ fuel ih =>
    refine (sim_skipWs s).bind fun _ => (sim_eat s _).bind fun b => ?_
    cases b with
    | true => exact .pure s _
    | false =>
      refine (sim_eat s _).bind fun b => ?_
      cases b with
      | true => exact .pure s _
      | false =>
        exact (sim_readName s).bind fun _ => (sim_skipWs s).bind fun _ =>
          (sim_eat s _).bind fun _ => (sim_readAttrValue s).bind fun _ =>
            ih.bind fun _ => .pure s _

theorem sim_parseChildren {x : Cursor El} {r : Reader El} (h : Sim s x r) (fuel : ℕ) :
    Sim s (parseChildren (cursor s) x fuel) (parseChildren reader r fuel) := by
  induction fuel with
  | zero => exact sim_fail s _
  | succ fuel ih =>
    refine (sim_skipWs s).bind fun _ => (sim_atEnd s).bind fun b => ?_
    cases b with
    | true => exact sim_fail s _
    | false =>
      refine (sim_startsWith s _).bind fun b => ?_
      cases b with
      | true => exact .pure s _
      | false =>
        refine (sim_startsWith s _).bind fun b => ?_
        cases b with
        | true => exact h.bind fun _ => ih.bind fun _ => .pure s _
        | false => exact sim_fail s _

theorem sim_parseElement (s : Text) (fuel : ℕ) :
    Sim s (parseElement (cursor s) wide fuel) (parseElement reader wide fuel) := by
  induction fuel with
  | zero => exact sim_fail s _
  | succ fuel ih =>
    refine (sim_skipWs s).bind fun _ => (sim_require s _ _).bind fun _ =>
      (sim_readName s).bind fun name => (sim_skipWs s).bind fun _ =>
        (sim_readAttrs s fuel).bind fun p => ?_
    obtain ⟨closed, attrs⟩ := p
    cases closed with
    | true => exact .pure s _
    | false =>
      refine (sim_skipWs s).bind fun _ => (sim_startsWith s _).bind fun b => ?_
      cases b with
      | true =>
        exact (sim_parseChildren ih fuel).bind fun _ => (sim_expectEnd s name).bind fun _ =>
          .pure s _
      | false =>
        exact (sim_pass s _).bind fun _ => (sim_expectEnd s name).bind fun _ => .pure s _

/-- The cursor makes of a text what the reader of characters does, as long as the characters that
are passed in white space, values and texts have one byte each. -/
theorem parsePreset_eq (wide : Char → Bool) (data : Text) :
    parsePreset wide data =
      if ∀ c ∈ passed wide data, isAscii c = true then some (tree wide data) else none := by
  have hsim : Sim data (parseElement (cursor data) wide (size data + 2)) _ := sim_parseElement _ _
  have h := hsim 0 data (.start data)
  rw [Agrees] at h
  rw [parsePreset, passed, tree]
  split_ifs with hall
  · rw [if_pos hall] at h
    rcases hr : (parseElement reader wide (size data + 2) data).1 with e | ⟨el, t⟩
    · rw [hr] at h
      exact congrArg _ h
    · rw [hr] at h
      obtain ⟨i, -, hi⟩ := h
      exact congrArg _ hi
  · rw [if_neg hall] at h
    exact congrArg _ h

/-! ### Termination -/

variable {fuel : ℕ}

section Termination

variable {α : Type} {t : Text} {k : ℕ}

/-- At most `k` characters are left. -/
abbrev Leaves (r : Reader α) (t : Text) (k : ℕ) : Prop := Ensures r t fun _ u => u.length ≤ k

theorem leaves_pass (p : Char → Bool) (h : t.length ≤ k) : Leaves (reader.pass p) t k :=
  (ensures_pass p t).mono fun _ u hu => by omega

theorem leaves_eat (text : Text) (h : t.length ≤ k) : Leaves (reader.eat text) t k :=
  (ensures_eat text t).mono fun _ u hu => by
    rcases hu with ⟨-, hu⟩ | ⟨-, rfl⟩ <;> omega

theorem leaves_skipWs (h : t.length ≤ k) : Leaves (skipWs reader) t k :=
  (leaves_pass isWhitespace h).bind fun _ _ hu => ensures_pure hu

theorem ensures_require (text message t : Text) :
    Ensures (require reader text message) t fun _ u => u.length + text.length = t.length := by
  refine (ensures_eat text t).bind fun b u hu => ?_
  rcases hu with ⟨rfl, hu⟩ | ⟨rfl, -⟩
  · exact ensures_pure hu
  · exact ensures_fail _ u

theorem leaves_require (text message : Text) (h : t.length ≤ k) :
    Leaves (require reader text message) t k :=
  (ensures_require text message t).mono fun _ u hu => by omega

theorem ensures_readName (t : Text) :
    Ensures (readName reader wide) t fun _ u => u.length < t.length := by
  refine (ensures_word _ t).bind fun name u hu => ?_
  by_cases hname : name = []
  · rw [if_pos hname]
    exact ensures_fail _ u
  · rw [if_neg hname]
    have hpos := List.length_pos_iff.2 hname
    exact ensures_pure (by omega)

theorem leaves_readName (h : t.length ≤ k) : Leaves (readName reader wide) t k :=
  (ensures_readName t).mono fun _ u hu => by omega

theorem leaves_readAttrValue (h : t.length ≤ k) : Leaves (readAttrValue reader) t k := by
  refine (leaves_skipWs h).bind fun _ u hu => (leaves_require _ _ hu).bind fun _ u hu =>
    (leaves_pass _ hu).bind fun v u hu => (ensures_atEnd u).bind fun b u' hb => ?_
  obtain ⟨rfl, -⟩ := hb
  cases b with
  | true => exact ensures_fail _ u'
  | false => exact (leaves_eat _ hu).bind fun _ _ hu => ensures_pure hu

theorem leaves_expectEnd (name : Text) (h : t.length ≤ k) :
    Leaves (expectEnd reader wide name) t k := by
  refine (leaves_skipWs h).bind fun _ u hu => (leaves_require _ _ hu).bind fun _ u hu =>
    (leaves_readName hu).bind fun n u hu => (leaves_skipWs hu).bind fun _ u hu =>
      (leaves_require _ _ hu).bind fun _ u hu => ?_
  by_cases hn : n = name
  · rw [if_pos hn]
    exact ensures_pure hu
  · rw [if_neg hn]
    exact ensures_fail _ u

theorem leaves_readAttrs (hfuel : t.length < fuel) (h : t.length ≤ k) :
    Leaves (readAttrs reader wide fuel) t k := by
  induction fuel generalizing t with
  | zero => omega
  | succ fuel ih =>
    refine (leaves_skipWs le_rfl).bind fun _ u hu => (leaves_eat _ hu).bind fun b u hu => ?_
    cases b with
    | true => exact ensures_pure (hu.trans h)
    | false =>
      refine (leaves_eat _ hu).bind fun b u hu => ?_
      cases b with
      | true => exact ensures_pure (hu.trans h)
      | false =>
        refine (ensures_readName u).bind fun _ v hv => (leaves_skipWs le_rfl).bind fun _ w hw =>
          (leaves_eat _ hw).bind fun _ w hw => (leaves_readAttrValue hw).bind fun _ w hw => ?_
        exact (ih (by omega) (by omega)).bind fun _ _ hu => ensures_pure hu

theorem leaves_parseChildren {r : Reader El} {n : ℕ}
    (hr : ∀ u : Text, u.length ≤ n → Ensures r u fun _ v => v.length < u.length)
    (hfuel : t.length < fuel) (hn : t.length ≤ n) (h : t.length ≤ k) :
    Leaves (parseChildren reader r fuel) t k := by
  induction fuel generalizing t with
  | zero => omega
  | succ fuel ih =>
    refine (leaves_skipWs le_rfl).bind fun _ u hu => (ensures_atEnd u).bind fun b u' hb => ?_
    obtain ⟨rfl, -⟩ := hb
    cases b with
    | true => exact ensures_fail _ u'
    | false =>
      refine (ensures_startsWith _ u').bind fun b u hb => ?_
      obtain ⟨rfl, -⟩ := hb
      cases b with
      | true => exact ensures_pure (hu.trans h)
      | false =>
        refine (ensures_startsWith _ u).bind fun b u' hb => ?_
        obtain ⟨rfl, -⟩ := hb
        cases b with
        | true =>
          refine (hr u' (hu.trans hn)).bind fun c v hv => ?_
          exact (ih (by omega) (by omega) (by omega)).bind fun _ _ hu => ensures_pure hu
        | false => exact ensures_fail _ u'

theorem ensures_parseElement (hfuel : t.length < fuel) :
    Ensures (parseElement reader wide fuel) t fun _ u => u.length < t.length := by
  induction fuel generalizing t with
  | zero => omega
  | succ fuel ih =>
    refine (leaves_skipWs le_rfl).bind fun _ u hu => (ensures_require _ _ u).bind fun _ v hv => ?_
    have hone : "<".toList.length = 1 := by decide
    obtain ⟨n, hn⟩ : ∃ n, t.length = n + 1 := ⟨t.length - 1, by omega⟩
    have hv : v.length ≤ n := by omega
    refine (leaves_readName hv).bind fun name u hu => (leaves_skipWs hu).bind fun _ u hu =>
      (leaves_readAttrs (by omega) hu).bind fun p u hu => ?_
    obtain ⟨closed, attrs⟩ := p
    cases closed with
    | true => exact ensures_pure (by omega)
    | false =>
      refine (leaves_skipWs hu).bind fun _ u hu => (ensures_startsWith _ u).bind fun b u' hb => ?_
      obtain ⟨rfl, -⟩ := hb
      cases b with
      | true =>
        have hr (w : Text) (hw : w.length ≤ n) :
            Ensures (parseElement reader wide fuel) w fun _ v => v.length < w.length :=
          ih (by omega)
        refine (leaves_parseChildren hr (by omega) hu hu).bind fun _ w hw => ?_
        exact (leaves_expectEnd name hw).bind fun _ w hw => ensures_pure (by omega)
      | false =>
        refine (leaves_pass _ hu).bind fun _ w hw => ?_
        exact (leaves_expectEnd name hw).bind fun _ w hw => ensures_pure (by omega)

end Termination

/-- The parser terminates. -/
theorem tree_ne_stuck (wide : Char → Bool) (data : Text) : tree wide data ≠ .error .stuck := by
  have hfuel : data.length < size data + 2 := by
    have := length_le_size data
    omega
  have hends : Ensures (parseElement reader wide (size data + 2)) data _ :=
    ensures_parseElement hfuel
  have h := hends.ne_stuck
  rw [tree]
  rcases hr : (parseElement reader wide (size data + 2) data).1 with e | p
  · rw [hr] at h
    exact fun hne => h (congrArg Except.error (Except.error.inj hne))
  · exact fun hne => by cases hne

/-! ### Texts that are read as elements -/

variable {c : Char}

section Pieces

variable {name attrName value txt rest t : Text}

/-- `<name>txt</name>`. -/
def element (name txt : Text) : Text :=
  '<' :: (name ++ '>' :: (txt ++ '<' :: '/' :: (name ++ ['>'])))

/-- `<name attr="value">`. -/
def startTag (name attrName value : Text) : Text :=
  '<' :: (name ++ ' ' :: (attrName ++ '=' :: '"' :: (value ++ ['"', '>'])))

/-- `</name>`. -/
def endTag (name : Text) : Text := '<' :: '/' :: (name ++ ['>'])

/-- A name of letters. -/
def IsName (name : Text) : Prop := name ≠ [] ∧ ∀ c ∈ name, isAscii c = true ∧ c.isAlphanum = true

instance (name : Text) : Decidable (IsName name) := inferInstanceAs (Decidable (_ ∧ _))

theorem IsName.isNameChar (h : IsName name) : ∀ c ∈ name, isNameChar wide c = true := by
  intro c hc
  rw [Codec.isNameChar, (h.2 c hc).1, if_pos rfl, (h.2 c hc).2]
  rfl

/-- A character that ends white space and names. -/
def IsMark (c : Char) : Prop := c ∈ ['<', '>', '/', '=', '"']

instance (c : Char) : Decidable (IsMark c) := inferInstanceAs (Decidable (c ∈ _))

theorem IsMark.isWhitespace {c : Char} (h : IsMark c) : isWhitespace c = false := by
  have hall : ∀ d ∈ ['<', '>', '/', '=', '"'], Lib.isWhitespace d = false := by decide
  exact hall c h

theorem isNameChar_of_isAscii (hc : isAscii c = true) :
    isNameChar wide c = (c.isAlphanum || c = '_' || c = '-') := by
  rw [Codec.isNameChar, hc, if_pos rfl]

theorem IsMark.isNameChar {c : Char} (h : IsMark c) : isNameChar wide c = false := by
  have hall : ∀ d ∈ ['<', '>', '/', '=', '"'],
      isAscii d = true ∧ (d.isAlphanum || d = '_' || d = '-') = false := by decide
  rw [isNameChar_of_isAscii (hall c h).1, (hall c h).2]

theorem runs_skipWs (h : ∀ c ∈ t.head?, isWhitespace c = false) :
    Runs (skipWs reader) t () t [] :=
  (runs_pass (List.forall_mem_nil _) h).bind (.pure () t)

theorem runs_skipWs_space (h : ∀ c ∈ t.head?, isWhitespace c = false) :
    Runs (skipWs reader) (' ' :: t) () t [' '] :=
  (runs_pass (List.forall_mem_singleton.2 rfl) h).bind (.pure () t)

theorem runs_require (text message t : Text) :
    Runs (require reader text message) (text ++ t) () t [] :=
  (runs_eat text t).bind (.pure () t)

theorem runs_readName (hname : IsName name) (h : ∀ c ∈ t.head?, isNameChar wide c = false) :
    Runs (readName reader wide) (name ++ t) name t [] := by
  refine (runs_word (p := isNameChar wide) hname.isNameChar h).bind ?_
  rw [if_neg hname.1]
  exact .pure name t

theorem runs_expectEnd (hname : IsName name) (t : Text) :
    Runs (expectEnd reader wide name) (endTag name ++ t) () t [] := by
  have hopen : "</".toList = ['<', '/'] := by decide
  have hclose : ">".toList = ['>'] := by decide
  have htext : endTag name ++ t = "</".toList ++ (name ++ (">".toList ++ t)) := by
    rw [hopen, hclose, endTag]
    simp only [List.cons_append, List.append_assoc, List.nil_append]
  have hlt : IsMark '<' := by decide
  have hgt : IsMark '>' := by decide
  rw [htext]
  refine (runs_skipWs ?_).silent <| (runs_require _ _ _).silent <|
    (runs_readName hname ?_).silent <| (runs_skipWs ?_).silent <| (runs_require _ _ _).silent ?_
  · rw [hopen]
    rintro c ⟨⟩
    exact hlt.isWhitespace
  · rw [hclose]
    rintro c ⟨⟩
    exact hgt.isNameChar
  · rw [hclose]
    rintro c ⟨⟩
    exact hgt.isWhitespace
  · rw [if_pos rfl]
    exact .pure () t

theorem runs_readAttrs_nil (fuel : ℕ) (t : Text) :
    Runs (readAttrs reader wide (fuel + 1)) ('>' :: t) (false, []) t [] := by
  have hgt : IsMark '>' := by decide
  have hclose : ">".toList = ['>'] := by decide
  have hempty : "/>".toList = ['/', '>'] := by decide
  have hskip : ∀ c ∈ ('>' :: t).head?, isWhitespace c = false := by
    rintro c ⟨⟩
    exact hgt.isWhitespace
  have hnot : ¬ "/>".toList <+: '>' :: t := by
    rw [hempty]
    exact fun h => absurd (List.cons_prefix_cons.1 h).1 (by decide)
  have heat : Runs (reader.eat ">".toList) ('>' :: t) true t [] := by
    have h := runs_eat ">".toList t
    rwa [hclose] at h ⊢
  exact (runs_skipWs hskip).silent <| (runs_eat_of_not hnot).silent <| heat.silent <|
    .pure (false, []) t

theorem runs_readAttrValue (hvalue : '"' ∉ value) (t : Text) :
    Runs (readAttrValue reader) ('"' :: (value ++ '"' :: t)) value t value := by
  have hquote : "\"".toList = ['"'] := by decide
  have hmark : IsMark '"' := by decide
  have hskip : ∀ c ∈ ('"' :: (value ++ '"' :: t)).head?, isWhitespace c = false := by
    rintro c ⟨⟩
    exact hmark.isWhitespace
  have heat (u : Text) : Runs (reader.eat "\"".toList) ('"' :: u) true u [] := by
    have h := runs_eat "\"".toList u
    rwa [hquote] at h ⊢
  have hvalue' : ∀ c ∈ value, decide (c ≠ '"') = true := fun c hc =>
    decide_eq_true fun heq => hvalue (heq ▸ hc)
  have hend : ∀ c ∈ ('"' :: t).head?, decide (c ≠ '"') = false := by
    rintro c ⟨⟩
    decide
  exact (runs_skipWs hskip).silent <| ((heat _).silent (.pure () _)).silent <|
    (runs_pass hvalue' hend).bind_silent <| (runs_atEnd ('"' :: t)).silent <| (heat t).silent <|
    .pure value t

theorem forall_head_isNameChar (h : IsMark c) (t : Text) :
    ∀ d ∈ (c :: t).head?, isNameChar wide d = false := by
  rintro d ⟨⟩
  exact h.isNameChar

theorem forall_head_isWhitespace (h : IsMark c) (t : Text) :
    ∀ d ∈ (c :: t).head?, isWhitespace d = false := by
  rintro d ⟨⟩
  exact h.isWhitespace

theorem isWhitespace_of_isAlphanum (h : c.isAlphanum = true) : isWhitespace c = false := by
  have hc : (65 ≤ c.toNat ∧ c.toNat ≤ 90) ∨ (97 ≤ c.toNat ∧ c.toNat ≤ 122) ∨
      (48 ≤ c.toNat ∧ c.toNat ≤ 57) := by
    have hdef : c.isAlphanum = ((decide (65 ≤ c.val ∧ c.val ≤ 90) ||
        (decide (97 ≤ c.val) && decide (c.val ≤ 122))) ||
        (decide (48 ≤ c.val) && decide (c.val ≤ 57))) := rfl
    simpa [hdef, UInt32.le_iff_toNat_le, or_assoc] using h
  simp only [isWhitespace, Bool.or_eq_false_iff, Bool.and_eq_false_iff, decide_eq_false_iff_not]
  omega

theorem isWhitespace_of_isName (hname : IsName name) (t : Text) :
    ∀ d ∈ (name ++ t).head?, isWhitespace d = false := by
  obtain ⟨c, name', rfl⟩ := List.exists_cons_of_ne_nil hname.1
  rintro d ⟨⟩
  exact isWhitespace_of_isAlphanum (hname.2 c List.mem_cons_self).2

theorem runs_readAttrs_one (hname : IsName attrName) (hvalue : '"' ∉ value) (fuel : ℕ) (t : Text) :
    Runs (readAttrs reader wide (fuel + 2)) (attrName ++ '=' :: '"' :: (value ++ '"' :: '>' :: t))
      (false, [(attrName, value)]) t value := by
  have hequals : "=".toList = ['='] := by decide
  have hempty : "/>".toList = ['/', '>'] := by decide
  have hclose : ">".toList = ['>'] := by decide
  obtain ⟨c, name', rfl⟩ := List.exists_cons_of_ne_nil hname.1
  have hc := (hname.2 c List.mem_cons_self).2
  have hne (d : Char) (hd : d.isAlphanum = false) : c ≠ d := by
    rintro rfl
    exact Bool.false_ne_true (hd.symm.trans hc)
  have hnot : ¬ "/>".toList <+: c :: name' ++ '=' :: '"' :: (value ++ '"' :: '>' :: t) := by
    rw [hempty]
    exact fun h => hne '/' (by decide) (List.cons_prefix_cons.1 h).1.symm
  have hnot' : ¬ ">".toList <+: c :: name' ++ '=' :: '"' :: (value ++ '"' :: '>' :: t) := by
    rw [hclose]
    exact fun h => hne '>' (by decide) (List.cons_prefix_cons.1 h).1.symm
  have heat : Runs (reader.eat "=".toList) ('=' :: '"' :: (value ++ '"' :: '>' :: t)) true
      ('"' :: (value ++ '"' :: '>' :: t)) [] := by
    have h := runs_eat "=".toList ('"' :: (value ++ '"' :: '>' :: t))
    rwa [hequals] at h ⊢
  exact (runs_skipWs (isWhitespace_of_isName hname _)).silent <| (runs_eat_of_not hnot).silent <|
    (runs_eat_of_not hnot').silent <|
    (runs_readName hname (forall_head_isNameChar (by decide) _)).silent <|
    (runs_skipWs (forall_head_isWhitespace (by decide) _)).silent <| heat.silent <|
    (runs_readAttrValue hvalue ('>' :: t)).bind_silent <| (runs_readAttrs_nil fuel t).silent <|
    .pure _ t

/-- The characters behind the first ones of white space, if there are any. -/
def leafText (txt : Text) : Option Text :=
  if txt.dropWhile isWhitespace = [] then none else some (txt.dropWhile isWhitespace)

theorem runs_open (t : Text) :
    Runs (require reader "<".toList "expected element".toList) ('<' :: t) () t [] := by
  have hopen : "<".toList = ['<'] := by decide
  have h := runs_require "<".toList "expected element".toList t
  rwa [hopen] at h ⊢

theorem runs_startsWith_open (t : Text) :
    Runs (reader.startsWith "<".toList) ('<' :: t) true ('<' :: t) [] := by
  have hopen : "<".toList = ['<'] := by decide
  rw [hopen]
  exact runs_startsWith ['<'] ('<' :: t)

theorem runs_startsWith_open_of_ne (hc : c ≠ '<') (t : Text) :
    Runs (reader.startsWith "<".toList) (c :: t) false (c :: t) [] := by
  have hopen : "<".toList = ['<'] := by decide
  have h := runs_startsWith ['<'] (c :: t)
  rw [List.isPrefixOf_cons_cons, beq_false_of_ne hc.symm, Bool.false_and] at h
  rw [hopen]
  exact h

theorem runs_startsWith_slash (t : Text) :
    Runs (reader.startsWith "</".toList) ('<' :: '/' :: t) true ('<' :: '/' :: t) [] := by
  have hslash : "</".toList = ['<', '/'] := by decide
  rw [hslash]
  exact runs_startsWith ['<', '/'] ('<' :: '/' :: t)

theorem runs_parseChildren_nil (r : Reader El) (fuel : ℕ) (name t : Text) :
    Runs (parseChildren reader r (fuel + 1)) (endTag name ++ t) [] (endTag name ++ t) [] :=
  (runs_skipWs (forall_head_isWhitespace (by decide) _)).silent <| (runs_atEnd _).silent <|
    (runs_startsWith_slash _).silent <| .pure [] _

theorem runs_element (hname : IsName name) (htxt : '<' ∉ txt) (fuel : ℕ) (t : Text) :
    Runs (parseElement reader wide (fuel + 2)) (element name txt ++ t)
      ⟨name, [], leafText txt, []⟩ t txt := by
  have htext : element name txt ++ t = '<' :: (name ++ '>' :: (txt ++ (endTag name ++ t))) := by
    rw [element, endTag]
    simp only [List.cons_append, List.append_assoc, List.nil_append]
  have hspace : ∀ c ∈ txt.takeWhile isWhitespace, isWhitespace c = true := fun c hc =>
    List.mem_takeWhile_imp hc
  have hsplit := txt.takeWhile_append_dropWhile (p := isWhitespace)
  rw [htext]
  refine (runs_skipWs (forall_head_isWhitespace (by decide) _)).silent <| (runs_open _).silent <|
    (runs_readName hname (forall_head_isNameChar (by decide) _)).silent <|
    (runs_skipWs (forall_head_isWhitespace (by decide) _)).silent <|
    (runs_readAttrs_nil fuel _).silent ?_
  rw [leafText]
  rcases hrest : txt.dropWhile isWhitespace with _ | ⟨c, mid⟩
  · -- only white space: the end tag comes where elements would
    rw [hrest, List.append_nil] at hsplit
    rw [hsplit] at hspace
    exact ((runs_pass hspace (forall_head_isWhitespace (by decide) _)).bind_silent
      (.pure () _)).bind_silent <| (runs_startsWith_open _).silent <|
      (runs_parseChildren_nil _ fuel name t).silent <| (runs_expectEnd hname t).silent <|
      .pure _ t
  · rw [hrest] at hsplit
    have hmem : '<' ∉ c :: mid := fun hlt => htxt (hsplit ▸ List.mem_append_right _ hlt)
    have hne : c ≠ '<' := fun heq => hmem (heq ▸ List.mem_cons_self)
    have hc : isWhitespace c = false := by
      have hhead := List.head?_dropWhile_not isWhitespace txt
      rw [hrest] at hhead
      simpa using hhead
    have hstop : ∀ d ∈ (c :: mid ++ (endTag name ++ t)).head?, isWhitespace d = false := by
      rintro d ⟨⟩
      exact hc
    have hmid : ∀ d ∈ c :: mid, decide (d ≠ '<') = true := fun d hd =>
      decide_eq_true fun heq => hmem (heq ▸ hd)
    have hend : ∀ d ∈ (endTag name ++ t).head?, decide (d ≠ '<') = false := by
      rintro d ⟨⟩
      decide
    generalize txt.takeWhile isWhitespace = blank at hspace hsplit
    subst hsplit
    rw [if_neg (List.cons_ne_nil c mid), List.append_assoc]
    exact ((runs_pass hspace hstop).bind_silent (.pure () _)).bind <|
      (runs_startsWith_open_of_ne hne _).silent <| (runs_pass hmid hend).bind_silent <|
      (runs_expectEnd hname t).silent <| .pure _ t

/-- A text that is read as an element, with the characters that are passed in it. -/
structure Piece (wide : Char → Bool) where
  text : Text
  el : El
  passed : List Char
  /-- It is no end tag. -/
  opens : ∃ c t, text = '<' :: c :: t ∧ c ≠ '/'
  reads : ∀ (fuel : ℕ) (t : Text), (text ++ t).length ≤ fuel →
    Runs (parseElement reader wide (fuel + 2)) (text ++ t) el t passed

/-- The element of a text. -/
def leaf (wide : Char → Bool) (name : Text) (hname : IsName name) (txt : Text)
    (htxt : '<' ∉ txt) : Piece wide where
  text := element name txt
  el := ⟨name, [], leafText txt, []⟩
  passed := txt
  opens := by
    obtain ⟨c, name', rfl⟩ := List.exists_cons_of_ne_nil hname.1
    refine ⟨c, _, rfl, ?_⟩
    rintro rfl
    exact absurd (hname.2 _ List.mem_cons_self).2 (by decide)
  reads fuel t _ := runs_element hname htxt fuel t

theorem runs_startsWith_slash_of_ne (hc : c ≠ '/') (t : Text) :
    Runs (reader.startsWith "</".toList) ('<' :: c :: t) false ('<' :: c :: t) [] := by
  have hslash : "</".toList = ['<', '/'] := by decide
  have h := runs_startsWith ['<', '/'] ('<' :: c :: t)
  rw [List.isPrefixOf_cons_cons, List.isPrefixOf_cons_cons, beq_false_of_ne hc.symm,
    Bool.false_and, Bool.and_false] at h
  rw [hslash]
  exact h

variable (pieces : List (Piece wide))

theorem runs_parseChildren (name t : Text) (fuel k : ℕ)
    (hk : (pieces.flatMap Piece.text ++ (endTag name ++ t)).length < k)
    (hfuel : (pieces.flatMap Piece.text ++ (endTag name ++ t)).length ≤ fuel) :
    Runs (parseChildren reader (parseElement reader wide (fuel + 2)) k)
      (pieces.flatMap Piece.text ++ (endTag name ++ t)) (pieces.map Piece.el)
      (endTag name ++ t) (pieces.flatMap Piece.passed) := by
  obtain ⟨k, rfl⟩ : ∃ l, k = l + 1 := ⟨k - 1, by omega⟩
  induction pieces generalizing k with
  | nil => exact runs_parseChildren_nil _ k name t
  | cons p pieces ih =>
    have hreads := p.reads fuel (pieces.flatMap Piece.text ++ (endTag name ++ t))
      (by rwa [List.flatMap_cons, List.append_assoc] at hfuel)
    obtain ⟨c, u, hopens, hc⟩ := p.opens
    rw [List.flatMap_cons, List.append_assoc, hopens] at hk hfuel
    simp only [List.cons_append, List.length_cons] at hk hfuel
    have hlength : (u ++ (pieces.flatMap Piece.text ++ (endTag name ++ t))).length =
        u.length + (pieces.flatMap Piece.text ++ (endTag name ++ t)).length := List.length_append
    obtain ⟨k, rfl⟩ : ∃ l, k = l + 1 := ⟨k - 1, by omega⟩
    have hnext := ih (by omega) k (by omega)
    rw [List.flatMap_cons, List.append_assoc, List.flatMap_cons, List.map_cons]
    rw [hopens] at hreads ⊢
    exact (runs_skipWs (forall_head_isWhitespace (by decide) _)).silent <|
      (runs_atEnd _).silent <| (runs_startsWith_slash_of_ne hc _).silent <|
      (runs_startsWith_open _).silent <| hreads.bind <| hnext.bind_silent <| .pure _ _

theorem forall_head_pieces (name t : Text) :
    ∃ u, pieces.flatMap Piece.text ++ (endTag name ++ t) = '<' :: u := by
  cases pieces with
  | nil => exact ⟨_, rfl⟩
  | cons p pieces =>
    obtain ⟨c, u, hopens, -⟩ := p.opens
    exact ⟨_, by rw [List.flatMap_cons, hopens]; rfl⟩

theorem runs_parent (hname : IsName name) (hattr : IsName attrName) (hvalue : '"' ∉ value)
    (pieces : List (Piece wide)) (fuel : ℕ) (t : Text)
    (hfuel :
      (startTag name attrName value ++ pieces.flatMap Piece.text ++ endTag name ++ t).length ≤ fuel) :
    Runs (parseElement reader wide (fuel + 2))
      (startTag name attrName value ++ pieces.flatMap Piece.text ++ endTag name ++ t)
      ⟨name, [(attrName, value)], none, pieces.map Piece.el⟩ t
      (' ' :: value ++ pieces.flatMap Piece.passed) := by
  have htext : startTag name attrName value ++ pieces.flatMap Piece.text ++ endTag name ++ t =
      '<' :: (name ++ ' ' :: (attrName ++ '=' :: '"' :: (value ++ '"' :: '>' ::
        (pieces.flatMap Piece.text ++ (endTag name ++ t))))) := by
    rw [startTag]
    simp only [List.cons_append, List.append_assoc, List.nil_append]
  obtain ⟨u, hu⟩ := forall_head_pieces pieces name t
  have hlength : (pieces.flatMap Piece.text ++ (endTag name ++ t)).length < fuel := by
    rw [htext] at hfuel
    simp only [List.length_cons, List.length_append] at hfuel ⊢
    omega
  obtain ⟨fuel, rfl⟩ : ∃ l, fuel = l + 1 := ⟨fuel - 1, by omega⟩
  have hchildren := runs_parseChildren pieces name t fuel (fuel + 2) (by omega) (by omega)
  have hspace : ∀ d ∈ (' ' :: (attrName ++ '=' :: '"' :: (value ++ '"' :: '>' ::
      (pieces.flatMap Piece.text ++ (endTag name ++ t))))).head?, isNameChar wide d = false := by
    rintro d ⟨⟩
    exact (isNameChar_of_isAscii (by decide)).trans (by decide)
  rw [htext]
  refine (runs_skipWs (forall_head_isWhitespace (by decide) _)).silent <| (runs_open _).silent <|
    (runs_readName hname hspace).silent <|
    (runs_skipWs_space (isWhitespace_of_isName hattr _)).bind <|
    (runs_readAttrs_one hattr hvalue fuel _).bind ?_
  rw [hu] at hchildren ⊢
  exact (runs_skipWs (forall_head_isWhitespace (by decide) _)).silent <|
    (runs_startsWith_open _).silent <| hchildren.bind_silent <| (runs_expectEnd hname t).silent <|
    .pure _ t

/-- The element of some elements, with an attribute. -/
def parent (wide : Char → Bool) (name attrName value : Text) (hname : IsName name)
    (hattr : IsName attrName) (hvalue : '"' ∉ value) (pieces : List (Piece wide)) : Piece wide where
  text := startTag name attrName value ++ pieces.flatMap Piece.text ++ endTag name
  el := ⟨name, [(attrName, value)], none, pieces.map Piece.el⟩
  passed := ' ' :: value ++ pieces.flatMap Piece.passed
  opens := by
    obtain ⟨c, name', rfl⟩ := List.exists_cons_of_ne_nil hname.1
    refine ⟨c, _, rfl, ?_⟩
    rintro rfl
    exact absurd (hname.2 _ List.mem_cons_self).2 (by decide)
  reads fuel t hfuel := runs_parent hname hattr hvalue pieces fuel t hfuel

namespace Piece

variable (p : Piece wide)

theorem runs : Runs (parseElement reader wide (size p.text + 2)) p.text p.el [] p.passed := by
  have h := p.reads (size p.text) []
  rw [List.append_nil] at h
  exact h (length_le_size p.text)

theorem tree_text : tree wide p.text = .ok p.el := by
  rw [tree, p.runs]
  rfl

theorem passed_text : Codec.passed wide p.text = p.passed := by
  rw [Codec.passed, p.runs]

theorem parsePreset_text : parsePreset wide p.text =
    if ∀ c ∈ p.passed, isAscii c = true then some (.ok p.el) else none := by
  rw [parsePreset_eq, p.passed_text, p.tree_text]

end Piece

end Pieces

end Oak.Codec
