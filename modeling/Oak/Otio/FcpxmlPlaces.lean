import Oak.Otio.FcpxmlWrite

/-!
# Places in FCPXML and in OTIO

FCPXML places the elements of a container by their offsets, OTIO the blocks of a track by their
order. `Placed` is an element with its place in the document; `placesOf` are the places in a track.

The reader leaves the offsets of clips aside. `Follows` says that they are not needed: no element up
to the last clip leaves a hole before it. What stands behind a transition may begin with the
transition still running, as Final Cut Pro centers it, or at its end, as the writer has it.

## Main results

* `placesOf_eq_clipOffsets`: without holes, the clips of a track are where the document has them.
* `writtenOffsets_writeBlocks`: a transition moves what is written behind it by its out offset.
* `read_and_written_places`: both for the reader and the writer.
-/

namespace Oak.Otio.Fcpxml

/-! ### Places in a document -/

/-- What takes a place in a container: a clip, the space of a gap or of what is not mapped, or a
transition. -/
inductive ElementKind where
  | clip | space | transition
  deriving DecidableEq, Repr

/-- The kind of the elements of a name. -/
def elementKind (name : String) : Option ElementKind :=
  if name = "asset-clip" ∨ name = "clip" then some .clip
  else if name = "gap" then some .space
  else if name = "transition" then some .transition
  else if name ∈ unmapped then some .space
  else none

/-- An element with its place in the document. -/
structure Placed where
  kind : ElementKind
  start : ℚ
  length : ℚ

variable (node : Node)

/-- A time in an attribute. -/
def timeAttr (key : String) : Option ℚ :=
  (node.attr key).bind fun s => (parseTime s).toOption

/-- The duration of an element. -/
def durationOf : ℚ := (timeAttr node "duration").getD 0

/-- The place of an element. One without an offset may be anywhere. -/
structure Places (node : Node) (p : Placed) : Prop where
  kind : elementKind node.name = some p.kind
  start : ∀ s, timeAttr node "offset" = some s → p.start = s
  length : p.length = durationOf node

/-- The elements of a container that take a place. -/
def timedChildren : List Node :=
  node.children.filter fun child => (elementKind child.name).isSome

/-- The places in a container. -/
def Layout (layout : List Placed) : Prop :=
  List.Forall₂ Places (timedChildren node) layout

/-- The offsets of the clips. -/
def clipOffsets (layout : List Placed) : List ℚ :=
  (layout.filter (·.kind = .clip)).map Placed.start

/-- Up to the last clip, every element but a transition begins at the end `pos` of the one before
it, or, with transitions between, a `lag` of their duration later. -/
def Follows (lag : ℚ) : ℚ → List Placed → Prop
  | _, [] => True
  | pos, p :: ps =>
    (∀ q ∈ p :: ps, q.kind ≠ .clip) ∨
      if p.kind = .transition then Follows lag (pos + lag * p.length) ps
      else p.start = pos ∧ Follows lag (p.start + p.length) ps

/-! ### Places in a track -/

/-- The duration of a clip or a gap. -/
def ownLength : Composable ℚ → ℚ
  | .transition _ => 0
  | other => blockDuration other

/-- The duration of a transition. -/
def transitionLength : Composable ℚ → ℚ
  | .transition t => secondsOf t.inOffset + secondsOf t.outOffset
  | _ => 0

/-- The out offset of a transition. -/
def outLength : Composable ℚ → ℚ
  | .transition t => secondsOf t.outOffset
  | _ => 0

/-- The sums of the weights before some of the blocks of a track. -/
def placesOf (pick : Composable ℚ → Bool) (weight : Composable ℚ → ℚ) :
    ℚ → List (Composable ℚ) → List ℚ
  | _, [] => []
  | pos, block :: blocks =>
    if pick block then pos :: placesOf pick weight (pos + weight block) blocks
    else placesOf pick weight (pos + weight block) blocks

variable (block : Composable ℚ)

def isClip : Bool := block.asClip.isSome

def isGap : Composable ℚ → Bool
  | .gap _ => true
  | _ => false

/-! ### Reading -/

/-- A block that was made for an element of a kind and a duration. -/
inductive Made : ElementKind → ℚ → Composable ℚ → Prop
  | clip {c : Clip ℚ} {d : ℚ} (h : lengthOf c.sourceRange = d) : Made .clip d (.clip c)
  | space {g : Gap ℚ} {d : ℚ} (h : lengthOf g.sourceRange = d) : Made .space d (.gap g)
  | transition {t : Transition ℚ} {d : ℚ}
      (h : secondsOf t.inOffset + secondsOf t.outOffset = d) : Made .transition d (.transition t)

/-- The block was made for the element. -/
def MadeFor : Prop :=
  ∃ kind, elementKind node.name = some kind ∧ Made kind (durationOf node) block

theorem exists_of_bind_ok {ε α β : Type} {x : Except ε α} {f : α → Except ε β} {b : β}
    (h : (x >>= f) = .ok b) : ∃ a, x = .ok a ∧ f a = .ok b := by
  cases x with
  | error e => cases h
  | ok a => exact ⟨a, rfl, h⟩

@[simp] theorem secondsOf_timeAtRate (seconds : ℚ) {rate : ℚ} (h : rate ≠ 0) :
    secondsOf (timeAtRate seconds rate) = seconds :=
  mul_div_cancel_right₀ seconds h

@[simp] theorem lengthOf_rangeAtRate (start duration : ℚ) {rate : ℚ} (h : rate ≠ 0) :
    lengthOf (some (rangeAtRate start duration rate)) = duration :=
  secondsOf_timeAtRate duration h

theorem rateOf_ne_zero {frameDuration rate : ℚ} (h : rateOf frameDuration = some rate) :
    rate ≠ 0 := by
  rw [rateOf] at h
  split_ifs at h with hzero
  obtain ⟨hnum, hden⟩ := not_or.1 hzero
  rw [← Option.some.inj h]
  exact div_ne_zero (Nat.cast_ne_zero.2 hden) (Int.cast_ne_zero.2 hnum)

theorem durationOf_of_timeOr {node : Node} {missing : Result ℚ} {d : ℚ}
    (hmissing : missing = .ok 0 ∨ ∃ e, missing = .error e)
    (h : timeOr node "duration" missing = .ok d) : durationOf node = d := by
  rw [timeOr] at h
  rw [durationOf, timeAttr]
  cases hattr : node.attr "duration" with
  | none =>
    rw [hattr] at h
    rcases hmissing with rfl | ⟨e, rfl⟩
    · exact Except.ok.inj h
    · cases h
  | some s =>
    rw [hattr] at h
    simp only [Option.bind_some, h]
    rfl

section Rates

variable {formats : Resources FormatInfo} {assets : Resources AssetInfo} {seqRate : ℚ}
  (hrate : seqRate ≠ 0)
include hrate

theorem clipRateOf_ne_zero (node : Node) : clipRateOf node formats assets seqRate ≠ 0 := by
  have hformat {id : Option String} {rate : ℚ} (h : formatRate formats id = some rate) :
      rate ≠ 0 := by
    obtain ⟨id, -, h⟩ := Option.bind_eq_some_iff.1 h
    obtain ⟨format, -, h⟩ := Option.bind_eq_some_iff.1 h
    exact rateOf_ne_zero h
  rw [clipRateOf]
  split
  · exact hformat ‹_›
  · split
    · exact hformat ‹_›
    · exact hrate

theorem parseBlock_spec {node : Node} {pos : ℚ} {r : Option (Composable ℚ) × ℚ}
    (h : parseBlock node node.name seqRate formats assets pos = .ok r) :
    match r.1 with
    | some block => MadeFor node block
    | none => elementKind node.name = none := by
  obtain ⟨offset, -, h⟩ := exists_of_bind_ok h
  have herror {e : FcpxmlError} : (Except.error e : Result ℚ) = .ok 0 ∨
      ∃ e', (Except.error e : Result ℚ) = .error e' := Or.inr ⟨e, rfl⟩
  split_ifs at h with hclip hgap htransition hunmapped
  · obtain ⟨duration, hduration, h⟩ := exists_of_bind_ok h
    obtain ⟨start, -, h⟩ := exists_of_bind_ok h
    obtain rfl := Except.ok.inj h
    refine ⟨.clip, if_pos hclip, ?_⟩
    rw [durationOf_of_timeOr herror hduration]
    refine .clip ?_
    rw [sourceRange_makeClip]
    exact lengthOf_rangeAtRate start duration (clipRateOf_ne_zero hrate node)
  · obtain ⟨duration, hduration, h⟩ := exists_of_bind_ok h
    obtain rfl := Except.ok.inj h
    refine ⟨.space, by rw [elementKind, if_neg hclip, if_pos hgap], ?_⟩
    rw [durationOf_of_timeOr (Or.inl rfl) hduration]
    exact .space (lengthOf_rangeAtRate offset duration hrate)
  · obtain ⟨duration, hduration, h⟩ := exists_of_bind_ok h
    obtain rfl := Except.ok.inj h
    refine ⟨.transition, by rw [elementKind, if_neg hclip, if_neg hgap, if_pos htransition], ?_⟩
    rw [durationOf_of_timeOr herror hduration]
    refine .transition ?_
    rw [makeTransition, secondsOf_timeAtRate _ hrate, add_halves]
  · obtain ⟨duration, hduration, h⟩ := exists_of_bind_ok h
    obtain rfl := Except.ok.inj h
    refine ⟨.space, ?_, ?_⟩
    · rw [elementKind, if_neg hclip, if_neg hgap, if_neg htransition, if_pos hunmapped]
    · rw [durationOf_of_timeOr (Or.inl rfl) hduration]
      exact .space (lengthOf_rangeAtRate offset duration hrate)
  · obtain rfl := Except.ok.inj h
    show elementKind node.name = none
    rw [elementKind, if_neg hclip, if_neg hgap, if_neg htransition, if_neg hunmapped]

/-- The blocks of a track are made for the elements of its container. -/
theorem parseChildren_spec {children : List Node} {c c' : Container}
    (h : parseChildren seqRate formats assets children c = .ok c') :
    ∃ blocks, c'.track = { c.track with children := c.track.children ++ blocks } ∧
      List.Forall₂ MadeFor (children.filter fun child => (elementKind child.name).isSome)
        blocks := by
  induction children generalizing c with
  | nil =>
    rw [parseChildren] at h
    obtain rfl := Except.ok.inj h
    exact ⟨[], by simp, .nil⟩
  | cons child children ih =>
    rw [parseChildren] at h
    split_ifs at h with hvideo haudio
    · obtain ⟨tracks, -, h⟩ := exists_of_bind_ok h
      obtain ⟨blocks, htrack, hmade⟩ := ih h
      refine ⟨blocks, htrack, ?_⟩
      rwa [List.filter_cons_of_neg (by rw [hvideo]; decide)]
    · obtain ⟨tracks, -, h⟩ := exists_of_bind_ok h
      obtain ⟨blocks, htrack, hmade⟩ := ih h
      refine ⟨blocks, htrack, ?_⟩
      rwa [List.filter_cons_of_neg (by rw [haudio]; decide)]
    · obtain ⟨⟨block, pos⟩, hblock, h⟩ := exists_of_bind_ok h
      obtain ⟨blocks, htrack, hmade⟩ := ih h
      have hspec := parseBlock_spec hrate hblock
      cases block with
      | none =>
        refine ⟨blocks, htrack, ?_⟩
        rwa [List.filter_cons_of_neg (by simp [show elementKind child.name = none from hspec])]
      | some block =>
        refine ⟨block :: blocks, ?_, ?_⟩
        · rw [htrack]
          simp [Container.append, Track.appendChild]
        · obtain ⟨kind, hkind, hblock⟩ := hspec
          rw [List.filter_cons_of_pos (by simp [hkind])]
          exact .cons ⟨kind, hkind, hblock⟩ hmade

end Rates

/-- The track of a container is the last one, behind those of the containers in it. -/
theorem parseContainer_spec {formats : Resources FormatInfo} {assets : Resources AssetInfo}
    {seqRate : ℚ} (hrate : seqRate ≠ 0) {kind : String} {node : Node}
    {tracks tracks' : List (Track ℚ (Composable ℚ))}
    (h : parseContainer seqRate formats assets kind node tracks = .ok tracks') :
    ∃ nested track, tracks' = nested ++ [track] ∧ track.kind = kind ∧
      List.Forall₂ MadeFor (timedChildren node) track.children := by
  obtain ⟨name, attrs, children⟩ := node
  rw [parseContainer] at h
  obtain ⟨c, hc, h⟩ := exists_of_bind_ok h
  obtain ⟨blocks, htrack, hmade⟩ := parseChildren_spec hrate hc
  refine ⟨c.tracks, c.track, (Except.ok.inj h).symm, by rw [htrack]; rfl, ?_⟩
  rw [htrack]
  exact hmade

/-! ### The places that are read -/

/-- How far a block moves what is behind it, when transitions move it by a share of their
duration. -/
def laggedLength (lag : ℚ) (block : Composable ℚ) : ℚ :=
  ownLength block + lag * transitionLength block

/-- The block of an element with a place. -/
def MadeAt (p : Placed) (block : Composable ℚ) : Prop := Made p.kind p.length block

variable {p : Placed}

theorem MadeAt.isClip_eq {block : Composable ℚ} (h : MadeAt p block) :
    isClip block = (p.kind = .clip : Bool) := by
  obtain ⟨kind, start, length⟩ := p
  cases h <;> rfl

theorem MadeAt.laggedLength_eq {block : Composable ℚ} (h : MadeAt p block) (lag : ℚ) :
    laggedLength lag block = if p.kind = .transition then lag * p.length else p.length := by
  obtain ⟨kind, start, length⟩ := p
  cases h <;> simp_all [laggedLength, ownLength, transitionLength, blockDuration]

theorem clipOffsets_cons (p : Placed) (layout : List Placed) :
    clipOffsets (p :: layout) =
      if p.kind = .clip then p.start :: clipOffsets layout else clipOffsets layout := by
  rw [clipOffsets, List.filter_cons]
  by_cases hclip : p.kind = .clip <;> simp [hclip, clipOffsets]

variable {blocks : List (Composable ℚ)} {layout : List Placed}

theorem placesOf_eq_nil {weight : Composable ℚ → ℚ} (hnone : ∀ p ∈ layout, p.kind ≠ .clip)
    (hmade : List.Forall₂ MadeAt layout blocks) (pos : ℚ) :
    placesOf isClip weight pos blocks = [] ∧ clipOffsets layout = [] := by
  induction hmade generalizing pos with
  | nil => exact ⟨rfl, rfl⟩
  | cons hblock _ ih =>
    obtain ⟨hp, hlayout⟩ := List.forall_mem_cons.1 hnone
    rw [placesOf, hblock.isClip_eq, clipOffsets_cons, if_neg (by simpa using hp), if_neg hp]
    exact ih hlayout _

/-- Without holes, the clips of a track are where the document has them. -/
theorem placesOf_eq_clipOffsets {lag pos : ℚ} (hlayout : Follows lag pos layout)
    (hmade : List.Forall₂ MadeAt layout blocks) :
    placesOf isClip (laggedLength lag) pos blocks = clipOffsets layout := by
  induction hmade generalizing pos with
  | nil => rfl
  | cons hblock hblocks ih =>
    rcases hlayout with hnone | hfollows
    · -- Behind the last clip nothing is compared.
      obtain ⟨hplaces, hoffsets⟩ := placesOf_eq_nil hnone (.cons hblock hblocks) pos
      rw [hplaces, hoffsets]
    · rw [placesOf, hblock.isClip_eq, hblock.laggedLength_eq, clipOffsets_cons]
      split_ifs at hfollows with htransition
      · rw [if_pos htransition, if_neg (by simp [htransition]), if_neg (by simp [htransition])]
        exact ih hfollows
      · obtain ⟨rfl, hfollows⟩ := hfollows
        rw [if_neg htransition, ih hfollows]
        simp only [decide_eq_true_eq]

/-- The blocks are made for the elements where they are placed. -/
theorem forall₂_madeAt {nodes : List Node} (hlayout : List.Forall₂ Places nodes layout)
    (hmade : List.Forall₂ MadeFor nodes blocks) : List.Forall₂ MadeAt layout blocks := by
  induction hlayout generalizing blocks with
  | nil =>
    cases hmade
    exact .nil
  | cons hp _ ih =>
    obtain _ | ⟨⟨kind, hkind, hblock⟩, hblocks⟩ := hmade
    refine .cons ?_ (ih hblocks)
    obtain rfl := Option.some.inj (hkind.symm.trans hp.kind)
    rw [MadeAt, hp.length]
    exact hblock

/-! ### The places that are written -/

/-- A clip or a gap. -/
def isClipOrGap : Bool := isClip block || isGap block

/-- The offsets of the clips and gaps among written elements. -/
def writtenOffsets (elements : List Node) : List (Option String) :=
  (elements.filter fun e => e.name = "asset-clip" ∨ e.name = "gap").map (·.attr "offset")

theorem writtenOffsets_append (es es' : List Node) :
    writtenOffsets (es ++ es') = writtenOffsets es ++ writtenOffsets es' := by
  rw [writtenOffsets, List.filter_append, List.map_append]
  rfl

/-- A clip or a gap is written where the blocks so far end, and moves the end by `advance`. -/
theorem writeBlock_spec (seqRate : ℚ) (resources : ResourceSet) (pos : ℚ) (block : Composable ℚ) :
    writtenOffsets (writeBlock seqRate resources pos block).1.toList =
        (if isClipOrGap block then [some (formatTime pos)] else []) ∧
      (writeBlock seqRate resources pos block).2.2 = pos + advance block := by
  cases block with
  | clip c =>
    have hclip (ref format : Option String) (start : ℚ) : writtenOffsets
        [clipElement c.name ref pos (lengthOf c.sourceRange) start format c.enabled] =
          [some (formatTime pos)] :=
      congrArg (fun offset => [offset]) (attr_clipElement_offset ..)
    rw [writeBlock, show isClipOrGap (.clip c) = true from rfl, if_pos rfl]
    dsimp only
    split_ifs
    · exact ⟨hclip .., rfl⟩
    · exact ⟨hclip .., rfl⟩
  | gap g => exact ⟨rfl, rfl⟩
  | transition t => exact ⟨rfl, by simp [writeBlock, advance]; ring⟩
  | track t => exact ⟨rfl, (add_zero pos).symm⟩
  | stack s => exact ⟨rfl, (add_zero pos).symm⟩
  | raw v => exact ⟨rfl, (add_zero pos).symm⟩

theorem advance_eq : advance block = ownLength block + outLength block := by
  cases block <;> simp [advance, ownLength, outLength, blockDuration]

/-- A transition moves what is written behind it by its out offset. -/
theorem writtenOffsets_writeBlocks (seqRate : ℚ) (blocks : List (Composable ℚ))
    (resources : ResourceSet) (pos : ℚ) :
    writtenOffsets (writeBlocks seqRate blocks resources pos).1 =
      (placesOf isClipOrGap (fun block => ownLength block + outLength block) pos blocks).map
        (some ∘ formatTime) := by
  induction blocks generalizing resources pos with
  | nil => rfl
  | cons block blocks ih =>
    obtain ⟨hblock, hpos⟩ := writeBlock_spec seqRate resources pos block
    rw [writeBlocks, placesOf, ← advance_eq, ← hpos]
    dsimp only
    rw [writtenOffsets_append, hblock, ih]
    cases isClipOrGap block <;> rfl

/-! ### Both directions -/

/-- Where a container has no holes, its clips are read at their offsets: as the durations of the
clips and gaps before them have it if what stands behind a transition begins with the transition
still running, and later by the halves of the transitions if it begins at their end. A clip or a
gap is written at the durations of the clips and gaps before it, and later by the out offsets of
the transitions. -/
theorem read_and_written_places :
    (∀ (frameDuration seqRate : ℚ) (formats : Resources FormatInfo) (assets : Resources AssetInfo)
      (kind : String) (node : Node) (tracks tracks' : List (Track ℚ (Composable ℚ)))
      (layout : List Placed) (lag : ℚ),
      rateOf frameDuration = some seqRate →
      parseContainer seqRate formats assets kind node tracks = .ok tracks' →
      Layout node layout → Follows lag 0 layout →
      ∃ nested track, tracks' = nested ++ [track] ∧
        placesOf isClip (fun block => ownLength block + lag * transitionLength block) 0
          track.children = clipOffsets layout) ∧
    ∀ (seqRate : ℚ) (blocks : List (Composable ℚ)) (resources : ResourceSet),
      writtenOffsets (writeBlocks seqRate blocks resources 0).1 =
        (placesOf isClipOrGap (fun block => ownLength block + outLength block) 0 blocks).map
          (some ∘ formatTime) := by
  refine ⟨?_, fun seqRate blocks resources => writtenOffsets_writeBlocks seqRate blocks resources 0⟩
  intro frameDuration seqRate formats assets kind node tracks tracks' layout lag hrate h hlayout
    hfollows
  obtain ⟨nested, track, htracks, -, hmade⟩ := parseContainer_spec (rateOf_ne_zero hrate) h
  exact ⟨nested, track, htracks, placesOf_eq_clipOffsets hfollows (forall₂_madeAt hlayout hmade)⟩

/-- Clips with a transition between them. -/
def dissolve (offset : String) : Node :=
  ⟨"spine", [], [⟨"asset-clip", [("offset", "0s"), ("duration", "2/5s")], []⟩,
    ⟨"transition", [("offset", "19/50s"), ("duration", "1/25s")], []⟩,
    ⟨"asset-clip", [("offset", offset), ("duration", "1/5s")], []⟩]⟩

/-- The places of `dissolve`. -/
def dissolveLayout (start : ℚ) : List Placed :=
  [⟨.clip, 0, 2 / 5⟩, ⟨.transition, 19 / 50, 1 / 25⟩, ⟨.clip, start, 1 / 5⟩]

/-- An element with an offset and a duration has one place. -/
theorem Places.of_attrs {node : Node} (hkind : elementKind node.name = some p.kind)
    (hstart : timeAttr node "offset" = some p.start)
    (hlength : timeAttr node "duration" = some p.length) : Places node p where
  kind := hkind
  start _ hs := Option.some.inj (hstart.symm.trans hs)
  length := by rw [durationOf, hlength, Option.getD_some]

theorem layout_dissolve {start : ℚ} {offset : String} (h : parseTime offset = .ok start) :
    Layout (dissolve offset) (dissolveLayout start) := by
  have hoffset : ((parseTime offset).toOption) = some start := by rw [h]; rfl
  refine .cons (.of_attrs rfl ?_ ?_) (.cons (.of_attrs rfl ?_ ?_) (.cons (.of_attrs rfl ?_ ?_) .nil))
  · decide
  · decide +kernel
  · decide +kernel
  · decide +kernel
  · exact hoffset
  · show (parseTime "1/5s").toOption = some (1 / 5)
    decide +kernel

theorem exists_of_isOk {ε α : Type} {x : Except ε α} (h : x.isOk = true) : ∃ a, x = .ok a := by
  cases x with
  | error e => cases h
  | ok a => exact ⟨a, rfl⟩

/-- `21/50` is behind the half of the transition, `2/5` at its middle. -/
theorem read_and_written_places_dissolve :
    (∃ nested track, (parseContainer 30 [] [] "Video" (dissolve "21/50s") []).toOption =
        some (nested ++ [track]) ∧
      placesOf isClip (fun block => ownLength block + 1 / 2 * transitionLength block) 0
        track.children = [0, 21 / 50]) ∧
    ∃ nested track, (parseContainer 30 [] [] "Video" (dissolve "2/5s") []).toOption =
        some (nested ++ [track]) ∧
      placesOf isClip (fun block => ownLength block + 0 * transitionLength block) 0
        track.children = [0, 2 / 5] := by
  have hrate : rateOf (1 / 30) = some 30 := by decide +kernel
  have hoffset : parseTime "21/50s" = .ok (21 / 50) := by decide +kernel
  have hoffset' : parseTime "2/5s" = .ok (2 / 5) := by decide +kernel
  have hlate : Follows (1 / 2) 0 (dissolveLayout (21 / 50)) := by
    norm_num [dissolveLayout, Follows]
  have hcentered : Follows 0 0 (dissolveLayout (2 / 5)) := by
    norm_num [dissolveLayout, Follows]
  have hlateOffsets : clipOffsets (dissolveLayout (21 / 50)) = [0, 21 / 50] := rfl
  have hcenteredOffsets : clipOffsets (dissolveLayout (2 / 5)) = [0, 2 / 5] := rfl
  obtain ⟨late, hlateOk⟩ : ∃ tracks,
      parseContainer 30 [] [] "Video" (dissolve "21/50s") [] = .ok tracks :=
    exists_of_isOk (by decide)
  obtain ⟨centered, hcenteredOk⟩ : ∃ tracks,
      parseContainer 30 [] [] "Video" (dissolve "2/5s") [] = .ok tracks :=
    exists_of_isOk (by decide)
  rw [hlateOk, hcenteredOk, ← hlateOffsets, ← hcenteredOffsets]
  obtain ⟨nested, track, rfl, hplaces⟩ := read_and_written_places.1 _ _ _ _ _ _ _ _ _ _ hrate
    hlateOk (layout_dissolve hoffset) hlate
  obtain ⟨nested', track', rfl, hplaces'⟩ := read_and_written_places.1 _ _ _ _ _ _ _ _ _ _ hrate
    hcenteredOk (layout_dissolve hoffset') hcentered
  exact ⟨⟨nested, track, rfl, hplaces⟩, nested', track', rfl, hplaces'⟩

/-- Behind a transition a clip is read before its offset and written behind its place. -/
theorem not_read_and_written_places :
    ∃ node layout tracks, Layout node layout ∧
      (layout.filter (·.kind ≠ .transition)).Pairwise (fun p q => p.start + p.length ≤ q.start) ∧
      parseContainer 30 [] [] "Video" node [] = .ok tracks ∧
      (∀ track ∈ tracks, placesOf isClip ownLength 0 track.children ≠ clipOffsets layout) ∧
      ∀ track ∈ tracks, writtenOffsets (writeBlocks 30 track.children .default 0).1 ≠
        (placesOf isClipOrGap ownLength 0 track.children).map (some ∘ formatTime) := by
  have hread : (parseContainer 30 [] [] "Video" (dissolve "21/50s") []).toOption.map
      (List.map fun track => (placesOf isClip ownLength 0 track.children,
        writtenOffsets (writeBlocks 30 track.children .default 0).1,
        (placesOf isClipOrGap ownLength 0 track.children).map (some ∘ formatTime))) =
      some [([0, 2 / 5], [some "0s", some "21/50s"], [some "0s", some "2/5s"])] := by
    decide +kernel
  obtain ⟨tracks, htracks, hread⟩ := Option.map_eq_some_iff.1 hread
  obtain ⟨track, rfl, htrack⟩ := List.map_eq_singleton_iff.1 hread
  simp only [Prod.mk.injEq] at htrack
  obtain ⟨hplaces, hwritten, hblocks⟩ := htrack
  have hoffset : parseTime "21/50s" = .ok (21 / 50) := by decide +kernel
  refine ⟨dissolve "21/50s", dissolveLayout (21 / 50), [track], layout_dissolve hoffset, ?_, ?_,
    ?_, ?_⟩
  · decide +kernel
  · cases h : parseContainer 30 [] [] "Video" (dissolve "21/50s") [] with
    | error e => rw [h] at htracks; cases htracks
    | ok a => rw [h] at htracks; exact congrArg _ (Option.some.inj htracks)
  · simp only [List.forall_mem_singleton, hplaces]
    decide +kernel
  · simp only [List.forall_mem_singleton, hwritten, hblocks]
    decide

end Oak.Otio.Fcpxml
