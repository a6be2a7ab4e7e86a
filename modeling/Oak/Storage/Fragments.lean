import Mathlib.Data.List.Basic
import Oak.Lib.Find

/-!
# Project documents

The library stores a project as texts: one fragment a node, keyed by the identity of the node, and
the settings element. `assembleXml` writes them into one document, which the serializer loads and a
snapshot keeps; `extractNodes` and `extractSettings` read them back out of the text.

* Reading is textual. A fragment is what stands between a node tag and the first end tag after it,
  its identity is its first `ptr` attribute, and a tag that only begins like a node tag is skipped.
* `Saveable` says of a state that this reading finds in each text what the writer meant: a
  fragment is closed by the first end tag in it, and the settings element holds no node and ends
  where it is read to end.

## Main results

* `extractNodes_assembleXml`, `extractSettings_assembleXml`: a saveable state is read back.
-/

namespace Oak.Storage

open Oak.Lib (findSplit)

/-- A text, by its characters. -/
abbrev Text := List Char

/-- The node fragments by identity. -/
abbrev NodeMap := Std.ExtTreeMap ℕ Text compare

/-- `EMPTY_SETTINGS`. -/
def emptySettings : Text := "<settings/>".toList

/-- The state of a project, as the library stores it. -/
structure ProjectState where
  nodes : NodeMap
  settings : Text
  deriving DecidableEq

/-- The empty project. -/
def ProjectState.empty : ProjectState := ⟨∅, emptySettings⟩

/-! ### Writing -/

/-- Every `c` replaced by `t`. -/
def replaceChar (c : Char) (t s : Text) : Text := s.flatMap fun d => if d = c then t else [d]

/-- `xml_escape`; `escape_text` of the writer gives the same text. -/
def xmlEscape (s : Text) : Text :=
  replaceChar '>' "&gt;".toList (replaceChar '<' "&lt;".toList (replaceChar '&' "&amp;".toList s))

/-- `assemble_xml`. -/
def assembleXml (uuid : Text) (p : ProjectState) : Text :=
  "<project version=\"1\"><uuid>".toList ++ xmlEscape uuid ++ "</uuid><nodes>".toList ++
    (p.nodes.toList.map Prod.snd).flatten ++ "</nodes>".toList ++ p.settings ++
    "</project>".toList

/-! ### Reading -/

def nodeTag : Text := "<node".toList

def nodeEnd : Text := "</node>".toList

def settingsTag : Text := "<settings>".toList

def settingsEnd : Text := "</settings>".toList

/-- The digits `s` after the value `v`, as a `u64`. -/
def parseDigits (v : ℕ) : Text → Option ℕ
  | [] => some v
  | c :: s =>
    if c.isDigit ∧ v * 10 + (c.toNat - '0'.toNat) < 2 ^ 64 then
      parseDigits (v * 10 + (c.toNat - '0'.toNat)) s
    else none

/-- `str::parse::<u64>`. A plus sign may stand before the digits. -/
def parseU64 (s : Text) : Option ℕ :=
  let digits := if s.head? = some '+' then s.tail else s
  if digits = [] then none else parseDigits 0 digits

/-- `fragment_identity`. -/
def fragmentIdentity (frag : Text) : Option ℕ := do
  let (_, after) ← findSplit "ptr=\"".toList frag
  let (value, _) ← findSplit ['"'] after
  parseU64 value

/-- The next character after `<node` starts a node element. -/
def startsElement (body : Text) : Bool :=
  body.head?.any fun c => c = ' ' || c = '>' || c = '/'

/-- The loop of `extract_nodes`: the fragments in the order of the text. Each turn shortens the
text, so its length bounds the turns. -/
def scanNodes : ℕ → Text → List (ℕ × Text)
  | 0, _ => []
  | fuel + 1, rest =>
    match findSplit nodeTag rest with
    | none => []
    | some (_, body) =>
      if startsElement body then
        match findSplit nodeEnd body with
        | none => []
        | some (inner, after) =>
          match fragmentIdentity (nodeTag ++ inner ++ nodeEnd) with
          | some identity => (identity, nodeTag ++ inner ++ nodeEnd) :: scanNodes fuel after
          | none => scanNodes fuel after
      else scanNodes fuel body

variable (xml : Text)

/-- The fragments of a text. -/
def nodesOf : List (ℕ × Text) := scanNodes xml.length xml

/-- `extract_nodes`. -/
def extractNodes : NodeMap := Std.ExtTreeMap.ofList (nodesOf xml) compare

/-- `extract_settings`. -/
def extractSettings : Text :=
  match findSplit settingsTag xml with
  | some (_, after) =>
    match findSplit settingsEnd after with
    | some (inner, _) => settingsTag ++ inner ++ settingsEnd
    | none => emptySettings
  | none => emptySettings

/-! ### Saveable states -/

/-- A self-contained fragment of the node `identity`: a node tag, the first end tag at its end, the
identity in its first `ptr` attribute, and no settings tag. -/
structure IsFragment (identity : ℕ) (frag : Text) : Prop where
  tag : ∃ body, frag = nodeTag ++ body ∧ startsElement body = true
  closed : ∃ inner, findSplit nodeEnd (frag.drop nodeTag.length) = some (inner, [])
  identity_eq : fragmentIdentity frag = some identity
  no_settings : findSplit settingsTag frag = none

/-- What is written for the state is read back from it piece by piece. -/
structure Saveable (p : ProjectState) : Prop where
  fragments : ∀ identity frag, p.nodes[identity]? = some frag → IsFragment identity frag
  settings_eq : extractSettings p.settings = p.settings
  no_nodes : nodesOf p.settings = []

instance (identity : ℕ) (frag : Text) : Decidable (IsFragment identity frag) :=
  decidable_of_iff
    (nodeTag <+: frag ∧ startsElement (frag.drop nodeTag.length) = true ∧
      (findSplit nodeEnd (frag.drop nodeTag.length)).map Prod.snd = some [] ∧
      fragmentIdentity frag = some identity ∧ findSplit settingsTag frag = none) <| by
    constructor
    · rintro ⟨⟨body, rfl⟩, hstart, hclosed, hid, hsettings⟩
      obtain ⟨⟨inner, _⟩, hinner, rfl⟩ := Option.map_eq_some_iff.1 hclosed
      rw [List.drop_left] at hstart
      exact ⟨⟨body, rfl, hstart⟩, ⟨inner, hinner⟩, hid, hsettings⟩
    · rintro ⟨⟨body, rfl, hstart⟩, ⟨inner, hinner⟩, hid, hsettings⟩
      rw [List.drop_left] at hinner ⊢
      exact ⟨List.prefix_append _ _, hstart, by rw [hinner]; rfl, hid, hsettings⟩

instance (p : ProjectState) : Decidable (Saveable p) :=
  decidable_of_iff
    ((∀ e ∈ p.nodes.toList, IsFragment e.1 e.2) ∧ extractSettings p.settings = p.settings ∧
      nodesOf p.settings = []) <| by
    constructor
    · rintro ⟨hfragments, hsettings, hnodes⟩
      exact ⟨fun identity frag h => hfragments (identity, frag)
        (Std.ExtTreeMap.mem_toList_iff_getElem?_eq_some.2 h), hsettings, hnodes⟩
    · rintro ⟨hfragments, hsettings, hnodes⟩
      exact ⟨fun e he => hfragments e.1 e.2
        (Std.ExtTreeMap.mem_toList_iff_getElem?_eq_some.1 he), hsettings, hnodes⟩

/-! ### The scan for nodes -/

theorem length_of_findSplit_nodeTag {s b body : Text} (h : findSplit nodeTag s = some (b, body)) :
    body.length + 5 ≤ s.length := by
  rw [Oak.Lib.length_of_findSplit h]
  have htag : nodeTag.length = 5 := by simp [nodeTag]
  omega

theorem length_of_findSplit_nodeEnd {s b after : Text}
    (h : findSplit nodeEnd s = some (b, after)) : after.length ≤ s.length := by
  rw [Oak.Lib.length_of_findSplit h]
  omega

variable {s : Text}

theorem scanNodes_fuel {n m : ℕ} (hn : s.length ≤ n) (hm : s.length ≤ m) :
    scanNodes n s = scanNodes m s := by
  induction n generalizing m s with
  | zero =>
    rw [List.length_eq_zero_iff.1 (Nat.le_zero.1 hn)]
    cases m <;> rfl
  | succ n ih =>
    cases m with
    | zero =>
      rw [List.length_eq_zero_iff.1 (Nat.le_zero.1 hm)]
      rfl
    | succ m =>
      rw [scanNodes, scanNodes]
      rcases htag : findSplit nodeTag s with _ | ⟨b, body⟩
      · rfl
      · have hbody := length_of_findSplit_nodeTag htag
        have hskip : scanNodes n body = scanNodes m body := ih (by omega) (by omega)
        rcases hend : findSplit nodeEnd body with _ | ⟨inner, after⟩
        · simp only [hskip, hend]
        · have hafter := length_of_findSplit_nodeEnd hend
          have hrest : scanNodes n after = scanNodes m after := ih (by omega) (by omega)
          simp only [hskip, hend, hrest]

theorem nodesOf_eq_nil (h : findSplit nodeTag s = none) : nodesOf s = [] := by
  rw [nodesOf]
  cases s.length with
  | zero => rfl
  | succ n => rw [scanNodes, h]

theorem nodesOf_of_findSplit {s b body : Text} (h : findSplit nodeTag s = some (b, body)) :
    nodesOf s =
      if startsElement body then
        match findSplit nodeEnd body with
        | none => []
        | some (inner, after) =>
          match fragmentIdentity (nodeTag ++ inner ++ nodeEnd) with
          | some identity => (identity, nodeTag ++ inner ++ nodeEnd) :: nodesOf after
          | none => nodesOf after
      else nodesOf body := by
  have hbody := length_of_findSplit_nodeTag h
  obtain ⟨n, hn⟩ : ∃ n, s.length = n + 1 := ⟨s.length - 1, by omega⟩
  have hskip : scanNodes n body = nodesOf body := scanNodes_fuel (by omega) le_rfl
  rw [nodesOf, hn, scanNodes, h]
  rcases hend : findSplit nodeEnd body with _ | ⟨inner, after⟩
  · simp only [hskip, hend]
  · have hafter := length_of_findSplit_nodeEnd hend
    have hrest : scanNodes n after = nodesOf after := scanNodes_fuel (by omega) le_rfl
    simp only [hskip, hend, hrest]

theorem lt_notMem_tail_nodeTag : '<' ∉ nodeTag.tail := by decide

theorem lt_notMem_tail_nodeEnd : '<' ∉ nodeEnd.tail := by decide

theorem lt_notMem_tail_settingsTag : '<' ∉ settingsTag.tail := by decide

theorem lt_notMem_tail_settingsEnd : '<' ∉ settingsEnd.tail := by decide

theorem nodesOf_congr {s t : Text}
    (h : (findSplit nodeTag s).map Prod.snd = (findSplit nodeTag t).map Prod.snd) :
    nodesOf s = nodesOf t := by
  rcases hs : findSplit nodeTag s with _ | ⟨b, body⟩
  · rw [hs, eq_comm, Option.map_none, Option.map_eq_none_iff] at h
    rw [nodesOf_eq_nil hs, nodesOf_eq_nil h]
  · rw [hs, eq_comm, Option.map_some, Option.map_eq_some_iff] at h
    obtain ⟨⟨c, body'⟩, ht, rfl⟩ := h
    rw [nodesOf_of_findSplit hs, nodesOf_of_findSplit ht]

theorem nodesOf_append_of_none (h : findSplit nodeTag s = none) (t : Text) :
    nodesOf (s ++ '<' :: t) = nodesOf ('<' :: t) := by
  refine nodesOf_congr ?_
  rw [Oak.Lib.findSplit_append_of_none h lt_notMem_tail_nodeTag, Option.map_map]
  rfl

theorem nodesOf_lookalike {b : Text} (h : startsElement b = false) :
    nodesOf (nodeTag ++ b) = nodesOf b := by
  rw [nodesOf_of_findSplit (Oak.Lib.findSplit_append_self nodeTag b), h]
  rfl

theorem nodesOf_fragment {identity : ℕ} {frag : Text} (h : IsFragment identity frag) (t : Text) :
    nodesOf (frag ++ t) = (identity, frag) :: nodesOf t := by
  obtain ⟨body, rfl, hstart⟩ := h.tag
  obtain ⟨inner, hinner⟩ := h.closed
  rw [List.drop_left] at hinner
  have hbody : body = inner ++ nodeEnd := by
    rw [Oak.Lib.findSplit_eq_some hinner, List.append_nil]
  have hstart' : startsElement (body ++ t) = true := by
    rcases body with _ | ⟨c, body⟩
    · exact absurd hstart Bool.false_ne_true
    · exact hstart
  rw [List.append_assoc, nodesOf_of_findSplit (Oak.Lib.findSplit_append_self nodeTag (body ++ t)),
    if_pos hstart', Oak.Lib.findSplit_append_of_some hinner]
  have hfrag : nodeTag ++ inner ++ nodeEnd = nodeTag ++ body := by
    rw [hbody, List.append_assoc]
  simp only [hfrag, h.identity_eq, List.nil_append]

/-- A text without fragments keeps none when the end of the document follows it. -/
theorem nodesOf_append_eq_nil {s t : Text} (h : nodesOf s = [])
    (htag : findSplit nodeTag ('<' :: t) = none) (hend : findSplit nodeEnd ('<' :: t) = none) :
    nodesOf (s ++ '<' :: t) = [] := by
  induction hn : s.length using Nat.strongRecOn generalizing s with
  | ind n ih =>
    rcases hs : findSplit nodeTag s with _ | ⟨b, body⟩
    · rw [nodesOf_append_of_none hs, nodesOf_eq_nil htag]
    · have hbody := length_of_findSplit_nodeTag hs
      rw [nodesOf_of_findSplit hs] at h
      rw [nodesOf_of_findSplit (Oak.Lib.findSplit_append_of_some hs ('<' :: t))]
      by_cases hstart : startsElement body = true
      · have hstart' : startsElement (body ++ '<' :: t) = true := by
          rcases body with _ | ⟨c, body⟩
          · exact absurd hstart Bool.false_ne_true
          · exact hstart
        rw [if_pos hstart] at h
        rw [if_pos hstart']
        rcases hclose : findSplit nodeEnd body with _ | ⟨inner, after⟩
        · -- the scan breaks off at a tag without an end, and no end follows
          have hopen : findSplit nodeEnd (body ++ '<' :: t) = none := by
            rw [Oak.Lib.findSplit_append_of_none hclose lt_notMem_tail_nodeEnd, hend]
            rfl
          rw [hopen]
        · have hafter := length_of_findSplit_nodeEnd hclose
          rw [Oak.Lib.findSplit_append_of_some hclose]
          rw [hclose] at h
          rcases hid : fragmentIdentity (nodeTag ++ inner ++ nodeEnd) with _ | identity
          · simp only [hid] at h ⊢
            exact ih after.length (by omega) h rfl
          · simp only [hid] at h
            exact absurd h (List.cons_ne_nil _ _)
      · have hskip : startsElement (body ++ '<' :: t) = false := by
          rcases body with _ | ⟨c, body⟩
          · simp [startsElement]
          · exact Bool.eq_false_iff.2 hstart
        rw [if_neg hstart] at h
        rw [hskip]
        exact ih body.length (by omega) h rfl

theorem nodesOf_flatten {l : List (ℕ × Text)} (h : ∀ e ∈ l, IsFragment e.1 e.2) (t : Text) :
    nodesOf ((l.map Prod.snd).flatten ++ t) = l ++ nodesOf t := by
  induction l with
  | nil => rfl
  | cons e l ih =>
    rw [List.map_cons, List.flatten_cons, List.append_assoc,
      nodesOf_fragment (h e List.mem_cons_self), ih fun f hf => h f (List.mem_cons_of_mem e hf)]
    rfl

/-! ### The settings element -/

theorem extractSettings_congr {s t : Text}
    (h : (findSplit settingsTag s).map Prod.snd = (findSplit settingsTag t).map Prod.snd) :
    extractSettings s = extractSettings t := by
  unfold extractSettings
  rcases hs : findSplit settingsTag s with _ | ⟨b, after⟩
  · rw [hs, eq_comm, Option.map_none, Option.map_eq_none_iff] at h
    rw [h]
  · rw [hs, eq_comm, Option.map_some, Option.map_eq_some_iff] at h
    obtain ⟨⟨c, after'⟩, ht, rfl⟩ := h
    rw [ht]

theorem extractSettings_append_of_none (h : findSplit settingsTag s = none) (t : Text) :
    extractSettings (s ++ '<' :: t) = extractSettings ('<' :: t) := by
  refine extractSettings_congr ?_
  rw [Oak.Lib.findSplit_append_of_none h lt_notMem_tail_settingsTag, Option.map_map]
  rfl

theorem extractSettings_append {t : Text} (htag : findSplit settingsTag ('<' :: t) = none)
    (hend : findSplit settingsEnd ('<' :: t) = none) (s : Text) :
    extractSettings (s ++ '<' :: t) = extractSettings s := by
  rcases hs : findSplit settingsTag s with _ | ⟨b, after⟩
  · rw [extractSettings_append_of_none hs, extractSettings, htag, extractSettings, hs]
  · rw [extractSettings, Oak.Lib.findSplit_append_of_some hs, extractSettings, hs]
    rcases hafter : findSplit settingsEnd after with _ | ⟨inner, rest⟩
    · have hopen : findSplit settingsEnd (after ++ '<' :: t) = none := by
        rw [Oak.Lib.findSplit_append_of_none hafter lt_notMem_tail_settingsEnd, hend]
        rfl
      simp only [hopen, hafter]
    · simp only [Oak.Lib.findSplit_append_of_some hafter, hafter]

theorem head?_of_extractSettings (h : extractSettings s = s) : s.head? = some '<' := by
  rw [← h, extractSettings]
  rcases findSplit settingsTag s with _ | ⟨b, after⟩
  · rfl
  · dsimp only
    cases findSplit settingsEnd after <;> rfl

/-! ### Documents -/

theorem notMem_replaceChar {c x : Char} {t : Text} (ht : x ∉ t) (hs : x = c ∨ x ∉ s) :
    x ∉ replaceChar c t s := by
  intro hmem
  obtain ⟨d, hd, hx⟩ := List.mem_flatMap.1 hmem
  by_cases hdc : d = c
  · rw [if_pos hdc] at hx
    exact ht hx
  · rw [if_neg hdc] at hx
    obtain rfl := List.mem_singleton.1 hx
    exact hs.elim hdc fun hs => hs hd

theorem lt_notMem_xmlEscape (s : Text) : '<' ∉ xmlEscape s := by
  rw [xmlEscape]
  refine notMem_replaceChar (by decide) (.inr ?_)
  exact notMem_replaceChar (by decide) (.inl rfl)

/-- The pieces of a document up to its nodes. -/
def header (uuid : Text) : List Text :=
  ["<project version=\"1\">".toList, "<uuid>".toList ++ xmlEscape uuid, "</uuid>".toList]

theorem assembleXml_eq (uuid : Text) (p : ProjectState) :
    assembleXml uuid p = (header uuid).flatten ++ ("<nodes>".toList ++
      ((p.nodes.toList.map Prod.snd).flatten ++ ("</nodes>".toList ++
        (p.settings ++ "</project>".toList)))) := by
  have huuid : "<project version=\"1\"><uuid>".toList =
    "<project version=\"1\">".toList ++ "<uuid>".toList := by decide
  have hnodes : "</uuid><nodes>".toList = "</uuid>".toList ++ "<nodes>".toList := by
    decide
  unfold assembleXml header
  rewrite [huuid, hnodes]
  simp only [List.flatten_cons, List.flatten_nil, List.append_assoc, List.append_nil,
    -String.reduceToList]

theorem findSplit_of_ne {c d : Char} {w s : Text} (hcd : c ≠ d) (hs : '<' ∉ d :: s) :
    findSplit ('<' :: c :: w) ('<' :: d :: s) = none := by
  rw [findSplit, if_neg, Oak.Lib.findSplit_eq_none_of_notMem hs]
  · rfl
  · rw [List.cons_prefix_cons, List.cons_prefix_cons]
    exact fun hpre => hcd hpre.2.1

theorem findSplit_header {c : Char} {w : Text} (hp : c ≠ 'p') (hu : c ≠ 'u') (hslash : c ≠ '/')
    (uuid : Text) : ∀ s ∈ header uuid,
      findSplit ('<' :: c :: w) s = none ∧ s.head? = some '<' := by
  intro s hs
  simp only [header, List.mem_cons, List.not_mem_nil, or_false] at hs
  obtain rfl | rfl | rfl := hs
  · exact ⟨findSplit_of_ne (s := "roject version=\"1\">".toList) hp (by decide), rfl⟩
  · refine ⟨findSplit_of_ne (s := "uid>".toList ++ xmlEscape uuid) hu ?_, rfl⟩
    have htag : '<' ∉ 'u' :: "uid>".toList := by decide
    rw [← List.cons_append, List.mem_append, not_or]
    exact ⟨htag, lt_notMem_xmlEscape uuid⟩
  · exact ⟨findSplit_of_ne (s := "uuid>".toList) hslash (by decide), rfl⟩

variable {p : ProjectState}

theorem Saveable.exists_settings (h : Saveable p) : ∃ s, p.settings = '<' :: s :=
  List.head?_eq_some_iff.1 (head?_of_extractSettings h.settings_eq)

theorem Saveable.isFragment (h : Saveable p) : ∀ e ∈ p.nodes.toList, IsFragment e.1 e.2 :=
  fun e he => h.fragments e.1 e.2 (Std.ExtTreeMap.mem_toList_iff_getElem?_eq_some.1 he)

theorem ofList_toList (m : NodeMap) : Std.ExtTreeMap.ofList m.toList compare = m := by
  refine Std.ExtTreeMap.ext_getElem? fun k => ?_
  rcases hk : m[k]? with _ | v
  · refine Std.ExtTreeMap.getElem?_ofList_of_contains_eq_false ?_
    rw [← Bool.not_eq_true, List.contains_iff_mem, List.mem_map]
    rintro ⟨e, he, rfl⟩
    rw [Std.ExtTreeMap.mem_toList_iff_getElem?_eq_some.1 he] at hk
    cases hk
  · exact Std.ExtTreeMap.getElem?_ofList_of_mem (compare_eq_iff_eq.2 rfl)
      Std.ExtTreeMap.distinct_keys_toList (Std.ExtTreeMap.mem_toList_iff_getElem?_eq_some.2 hk)

/-- What follows the opening tag of the nodes begins a tag. -/
theorem Saveable.exists_nodes (h : Saveable p) (t : Text) :
    ∃ s, (p.nodes.toList.map Prod.snd).flatten ++ ("</nodes>".toList ++ t) = '<' :: s := by
  rcases hl : p.nodes.toList with _ | ⟨e, l⟩
  · exact ⟨"/nodes>".toList ++ t, rfl⟩
  · obtain ⟨body, hbody, -⟩ := (h.isFragment e (hl ▸ List.mem_cons_self)).tag
    refine ⟨"node".toList ++ body ++ (l.map Prod.snd).flatten ++ ("</nodes>".toList ++ t), ?_⟩
    rw [List.map_cons, List.flatten_cons, hbody]
    simp only [List.append_assoc]
    rfl

/-- The scan of a document finds the fragments in the order they are written. -/
theorem nodesOf_assembleXml (h : Saveable p) (uuid : Text) :
    nodesOf (assembleXml uuid p) = p.nodes.toList := by
  obtain ⟨s, hs⟩ := h.exists_settings
  obtain ⟨u, hu⟩ := h.exists_nodes (p.settings ++ "</project>".toList)
  have hsettings : nodesOf (p.settings ++ "</project>".toList) = [] :=
    nodesOf_append_eq_nil h.no_nodes (by decide) (by decide)
  have hnodes : nodesOf ('<' :: u) = p.nodes.toList := by
    rewrite [← hu, nodesOf_flatten h.isFragment, hs]
    have hend : nodesOf ("</nodes>".toList ++ '<' :: (s ++ "</project>".toList)) =
        nodesOf ('<' :: (s ++ "</project>".toList)) :=
      nodesOf_append_of_none (by decide) _
    rewrite [List.cons_append, hend, ← List.cons_append, ← hs, hsettings]
    exact List.append_nil _
  -- the tag that opens the nodes only begins like a node tag
  have hopen : nodesOf ("<nodes>".toList ++ '<' :: u) = p.nodes.toList :=
    calc nodesOf ("<nodes>".toList ++ '<' :: u) = nodesOf ("s>".toList ++ '<' :: u) :=
          nodesOf_lookalike (b := "s>".toList ++ '<' :: u) rfl
      _ = nodesOf ('<' :: u) := nodesOf_append_of_none (by decide) u
      _ = p.nodes.toList := hnodes
  rewrite [assembleXml_eq, hu]
  refine (nodesOf_congr ?_).trans hopen
  have hskip := Oak.Lib.findSplit_flatten_of_none lt_notMem_tail_nodeTag
    (findSplit_header (c := 'n') (w := "ode".toList) (by decide) (by decide) (by decide) uuid)
    ("nodes>".toList ++ '<' :: u)
  refine (congrArg (Option.map Prod.snd) hskip).trans ?_
  rewrite [Option.map_map]
  rfl

/-- A saveable state is read back from its document: the nodes. -/
theorem extractNodes_assembleXml (h : Saveable p) (uuid : Text) :
    extractNodes (assembleXml uuid p) = p.nodes := by
  rw [extractNodes, nodesOf_assembleXml h, ofList_toList]

/-- A saveable state is read back from its document: the settings. -/
theorem extractSettings_assembleXml (h : Saveable p) (uuid : Text) :
    extractSettings (assembleXml uuid p) = p.settings := by
  obtain ⟨s, hs⟩ := h.exists_settings
  have hread : extractSettings (p.settings ++ "</project>".toList) = p.settings := by
    refine Eq.trans ?_ h.settings_eq
    exact extractSettings_append (by decide) (by decide) p.settings
  have hpieces : ∀ t ∈ header uuid ++ ("<nodes>".toList :: (p.nodes.toList.map Prod.snd ++
      ["</nodes>".toList])), findSplit settingsTag t = none ∧ t.head? = some '<' := by
    intro t ht
    simp only [List.mem_append, List.mem_cons, List.mem_map, List.not_mem_nil, or_false] at ht
    obtain ht | rfl | ⟨e, he, rfl⟩ | rfl := ht
    · exact findSplit_header (c := 's') (w := "ettings>".toList) (by decide) (by decide)
        (by decide) uuid t ht
    · exact ⟨by decide, rfl⟩
    · obtain ⟨body, hbody, -⟩ := (h.isFragment e he).tag
      exact ⟨(h.isFragment e he).no_settings, by rw [hbody]; rfl⟩
    · exact ⟨by decide, rfl⟩
  refine Eq.trans ?_ hread
  refine extractSettings_congr ?_
  have hskip := Oak.Lib.findSplit_flatten_of_none lt_notMem_tail_settingsTag hpieces
    (s ++ "</project>".toList)
  have htail : '<' :: (s ++ "</project>".toList) = p.settings ++ "</project>".toList := by
    rewrite [hs]
    rfl
  rewrite [htail] at hskip
  have hdoc : assembleXml uuid p = (header uuid ++ ("<nodes>".toList ::
      (p.nodes.toList.map Prod.snd ++ ["</nodes>".toList]))).flatten ++
        (p.settings ++ "</project>".toList) := by
    rewrite [assembleXml_eq]
    simp only [List.flatten_append, List.flatten_cons, List.flatten_nil, List.append_assoc,
      List.append_nil, -String.reduceToList]
  rewrite [hdoc, hskip, Option.map_map]
  rfl

end Oak.Storage
