import Oak.Interchange.Nodes

/-!
# The edit of a project

What an exchange of a project with other editors is about: the blocks on the tracks of a sequence,
with their ranges, media in points and files. The file of a clip is that of the footage behind it,
which the tasks and the storage backend find in two different ways; `Finds` is what both do.

`ShowsBlock`, `ShowsTrack`, `ShowsList` and `ShowsSequence` say that a graph under construction
holds an edit already. They survive whatever is added later.

## Main results

* `ShowsSequence.extends`: what a graph shows it goes on to show.
* `sequenceView_eq`: what a graph shows is the view of it.
-/

namespace Oak.Interchange

open Oak.Core Oak.Node Oak.Node.Graph Oak.Timeline

variable {F γ : Type*} {g g' : MediaGraph F γ} {id : NodeId}

/-! ### Finding footage -/

/-- What a way to find the footage behind a clip does with the clips that have recorded theirs, and
with those that nothing is connected to. -/
structure Finds (find : MediaGraph F γ → NodeId → Option NodeId) : Prop where
  recorded : ∀ {g : MediaGraph F γ} {id f c}, g.behaviorOf id = some (.clip c) →
    recordedFootage g id = some f → find g id = some f
  nothing : ∀ {g : MediaGraph F γ} {id c}, g.behaviorOf id = some (.clip c) →
    recordedFootage g id = none → (∀ e ∈ g.edges, e.target ≠ id) → find g id = none

theorem edgesInto_eq_nil (h : ∀ e ∈ g.edges, e.target ≠ id) : g.edgesInto id = [] :=
  List.filter_eq_nil_iff.2 fun e he => by simpa using h e he

theorem finds_findInputFootage : Finds (findInputFootage : MediaGraph F γ → _ → _) where
  recorded := fun {g id f c} hc hf => by
    have hnot : nodeIsFootage g id = false := by rw [nodeIsFootage, footageOf, hc]; rfl
    simp [findInputFootage, hnot, hf]
  nothing := fun {g id c} hc hnone he => by
    have hnot : nodeIsFootage g id = false := by rw [nodeIsFootage, footageOf, hc]; rfl
    simp [findInputFootage, hnot, hnone, searchInputs, inputConnections_eq, edgesInto_eq_nil he]

theorem finds_clipFootage : Finds (clipFootage : MediaGraph F γ → _ → _) where
  recorded := fun _ hf => by rw [clipFootage, hf]
  nothing := fun _ hnone he => by
    simp [clipFootage, hnone, searchUpstream, upstream, edgesInto_eq_nil he]

/-! ### The view -/

/-- What is seen of a block. -/
structure BlockView where
  kind : BlockKind
  in_ : Rational
  out : Rational
  mediaIn : Rational
  file : String
  deriving DecidableEq, Repr

/-- What is seen of the block at a node. -/
def blockView (find : MediaGraph F γ → NodeId → Option NodeId) (g : MediaGraph F γ) (id : NodeId) :
    Option BlockView :=
  (blockCoreOf g id).map fun core =>
    { kind := blockKind g id
      in_ := core.in_
      out := core.out
      mediaIn := core.mediaIn
      file := if blockKind g id = .clip then fileOf g (find g id) else "" }

/-- The blocks of a track. -/
def trackView (find : MediaGraph F γ → NodeId → Option NodeId) (g : MediaGraph F γ)
    (track : NodeId) : List BlockView :=
  (((trackBehaviorOf g track).map TrackBehavior.blocks).getD []).filterMap (blockView find g)

/-- The place of a track list in its sequence. -/
def base : TrackType → ℕ
  | .video => 0
  | .audio => 1
  | .subtitle => 2

/-- The track list of a kind, if the sequence has one. -/
def listOf (s : SequenceBehavior) (kind : TrackType) : Option NodeId :=
  (s.trackLists[base kind]?).filter NodeId.valid

/-- The tracks of a kind, in stack order. -/
def tracksOf (g : MediaGraph F γ) (seq : NodeId) (kind : TrackType) : List NodeId :=
  match g.behaviorOf seq with
  | some (.sequence s) =>
    (((listOf s kind).bind (trackListBehaviorOf g)).map TrackListBehavior.tracks).getD []
  | _ => []

/-- The tracks of a sequence, by kind. -/
abbrev SequenceView := TrackType → List (List BlockView)

/-- What is seen of a sequence. -/
def sequenceView (find : MediaGraph F γ → NodeId → Option NodeId) (g : MediaGraph F γ)
    (seq : NodeId) : SequenceView :=
  fun kind => (tracksOf g seq kind).map (trackView find g)

/-! ### What a graph under construction shows -/

/-- How far a node is from the blocks: a node holds nodes of a lower level only. -/
def level : Behavior F (Media γ) → ℕ
  | .track _ => 1
  | .trackList _ => 2
  | .sequence _ => 3
  | .folder _ => 4
  | _ => 0

/-- The nodes of `S` are above a level. -/
def Above (g : MediaGraph F γ) (l : ℕ) (S : Set NodeId) : Prop :=
  ∀ x ∈ S, ∀ b, g.behaviorOf x = some b → l < level b

theorem lt_level_of_found {l : ℕ} {b c : Behavior F (Media γ)} (hb : g.behaviorOf id = some b)
    (hl : l < level b) (hc : g.behaviorOf id = some c) : l < level c := by
  obtain rfl := Option.some.inj (hb.symm.trans hc)
  exact hl

theorem above_singleton {l : ℕ} {b : Behavior F (Media γ)} (hb : g.behaviorOf id = some b)
    (hl : l < level b) : Above g l {id} := by
  rintro _ rfl c hc
  exact lt_level_of_found hb hl hc

theorem Above.mono {l l' : ℕ} {S : Set NodeId} (h : Above g l S) (hl : l' ≤ l) : Above g l' S :=
  fun x hx b hb => hl.trans_lt (h x hx b hb)

theorem Above.notMem {l : ℕ} {S : Set NodeId} (h : Above g l S) {b : Behavior F (Media γ)}
    (hb : g.behaviorOf id = some b) (hlevel : level b ≤ l) : id ∉ S :=
  fun hid => absurd (h id hid b hb) (Nat.not_lt.2 hlevel)

/-- The file of a clip is that of its footage, or there is none and nothing is connected. -/
inductive ShowsFile (g : MediaGraph F γ) (id : NodeId) (c : ClipBlockBehavior F) : String → Prop
  | footage {f : NodeId} {b : FootageBehavior} (hc : c.footage = some f)
    (hf : g.behaviorOf f = some (.other (.footage b))) : ShowsFile g id c b.filename
  | nothing (hc : c.footage = none) (he : ∀ e ∈ g.edges, e.target ≠ id) : ShowsFile g id c ""

/-- The graph shows a block at a node. -/
inductive ShowsBlock (g : MediaGraph F γ) (id : NodeId) : BlockView → Prop
  | clip {c : ClipBlockBehavior F} {file : String} (h : g.behaviorOf id = some (.clip c))
    (hfile : ShowsFile g id c file) :
    ShowsBlock g id ⟨.clip, c.core.in_, c.core.out, c.core.mediaIn, file⟩
  | gap {b : GapBlockBehavior F} (h : g.behaviorOf id = some (.gap b)) :
    ShowsBlock g id ⟨.gap, b.core.in_, b.core.out, b.core.mediaIn, ""⟩
  | transition {b : TransitionBlockBehavior F} (h : g.behaviorOf id = some (.transition b)) :
    ShowsBlock g id ⟨.transition, b.core.in_, b.core.out, b.core.mediaIn, ""⟩

/-- The graph shows a track at a node. -/
def ShowsTrack (g : MediaGraph F γ) (id : NodeId) (blocks : List BlockView) : Prop :=
  ∃ t, g.behaviorOf id = some (.track t) ∧ List.Forall₂ (ShowsBlock g) t.blocks blocks

/-- The graph shows a track list of a kind at a node. -/
def ShowsList (g : MediaGraph F γ) (kind : TrackType) (id : NodeId)
    (tracks : List (List BlockView)) : Prop :=
  ∃ l, g.behaviorOf id = some (.trackList l) ∧ l.kind = kind ∧
    List.Forall₂ (ShowsTrack g) l.tracks tracks

/-- The graph shows the tracks of a kind. A track list that is not there has none. -/
def ShowsKind (g : MediaGraph F γ) (kind : TrackType) (tracks : List (List BlockView)) :
    Option NodeId → Prop
  | some l => ShowsList g kind l tracks
  | none => tracks = []

/-- The graph shows a sequence at a node. -/
def ShowsSequence (g : MediaGraph F γ) (id : NodeId) (view : SequenceView) : Prop :=
  ∃ s, g.behaviorOf id = some (.sequence s) ∧ ∀ kind, ShowsKind g kind (view kind) (listOf s kind)

/-- The clips of a graph. -/
def clips (g : MediaGraph F γ) : Set NodeId := {x | ∃ c, g.behaviorOf x = some (.clip c)}

/-- At most `n` nodes are added, no behavior outside `S` is changed, and no clip that is there is
connected. -/
def Extends (n : ℕ) (S : Set NodeId) (g g' : MediaGraph F γ) : Prop := Grows n S (clips g)ᶜ g g'

variable {view : SequenceView}

section Extends

variable {g'' : MediaGraph F γ} {n m : ℕ} {S U : Set NodeId}

theorem Extends.mono (h : Extends n S g g') (hn : n ≤ m) (hS : g.Within S U) :
    Extends m U g g' :=
  Grows.mono h hn hS (.of_subset le_rfl)

theorem Extends.trans (h : Extends n S g g') (h' : Extends m U g' g'') (hS : g.Within U S)
    (habove : Above g 0 S) : Extends (n + m) S g g'' := by
  refine Grows.trans h h' hS fun x hx => ?_
  rcases hb : g.behaviorOf x with _ | b
  · exact .inl rfl
  · refine .inr ?_
    rintro ⟨c, hc⟩
    exact hx ⟨c, h.kept (habove.notMem hc le_rfl) hc⟩

variable (h : Extends n S g g')
include h

/-- A clip that is shown is shown while no new edge goes into it. -/
theorem ShowsBlock.extends {v : BlockView} (hv : ShowsBlock g id v) (hS : Above g 0 S) :
    ShowsBlock g' id v := by
  cases hv with
  | clip hc hfile =>
    refine .clip (h.kept (hS.notMem hc le_rfl) hc) ?_
    cases hfile with
    | footage hf hb => exact .footage hf (h.kept (hS.notMem hb le_rfl) hb)
    | nothing hnone he =>
      refine .nothing hnone fun e hmem htarget => ?_
      rcases h.edges e hmem with hold | hfresh | hin
      · exact he e hold htarget
      · rw [htarget, hc] at hfresh
        exact absurd hfresh (by simp)
      · exact hin ⟨_, htarget ▸ hc⟩
  | gap hb => exact .gap (h.kept (hS.notMem hb le_rfl) hb)
  | transition hb => exact .transition (h.kept (hS.notMem hb le_rfl) hb)

theorem ShowsTrack.extends {vs : List BlockView} (hv : ShowsTrack g id vs) (hS : Above g 1 S) :
    ShowsTrack g' id vs := by
  obtain ⟨t, ht, hblocks⟩ := hv
  exact ⟨t, h.kept (hS.notMem ht le_rfl) ht,
    hblocks.imp fun _ _ hb => hb.extends h (hS.mono (Nat.zero_le 1))⟩

theorem ShowsList.extends {kind : TrackType} {vs : List (List BlockView)}
    (hv : ShowsList g kind id vs) (hS : Above g 1 S) (hid : id ∉ S) :
    ShowsList g' kind id vs := by
  obtain ⟨l, hl, hkind, htracks⟩ := hv
  exact ⟨l, h.kept hid hl, hkind, htracks.imp fun _ _ ht => ht.extends h hS⟩

/-- What a graph shows it goes on to show. -/
theorem ShowsSequence.extends (hv : ShowsSequence g id view) (hS : Above g 2 S) (hid : id ∉ S) :
    ShowsSequence g' id view := by
  obtain ⟨s, hs, hlists⟩ := hv
  refine ⟨s, h.kept hid hs, fun kind => ?_⟩
  have hlist := hlists kind
  rcases hl : listOf s kind with _ | l <;> rw [hl] at hlist
  · exact hlist
  · have ⟨b, hb, _⟩ := hlist
    exact ShowsList.extends h hlist (hS.mono (by decide)) (hS.notMem hb le_rfl)

/-- A track is added to a track list of a sequence; the other track lists stay. -/
theorem ShowsSequence.addTrack {kind : TrackType} {s' : SequenceBehavior} {l track : NodeId}
    {list : TrackListBehavior} {blocks : List BlockView} (hv : ShowsSequence g id view)
    (hS : Above g 1 S) (hkinds : ∀ x ∈ S, ∀ b, g.behaviorOf x = some (.trackList b) → b.kind = kind)
    (hseq : g'.behaviorOf id = some (.sequence s')) (hlist : listOf s' kind = some l)
    (hothers : ∀ s k, g.behaviorOf id = some (.sequence s) → k ≠ kind → listOf s' k = listOf s k)
    (hkind : list.kind = kind)
    (hl : g'.behaviorOf l = some (.trackList { list with tracks := list.tracks ++ [track] }))
    (hold : List.Forall₂ (ShowsTrack g) list.tracks (view kind)) (hnew : ShowsTrack g' track blocks)
    :
    ShowsSequence g' id (Function.update view kind (view kind ++ [blocks])) := by
  obtain ⟨s, hs, hlists⟩ := hv
  refine ⟨s', hseq, fun k => ?_⟩
  by_cases hk : k = kind
  · subst hk
    rw [hlist, Function.update_self]
    exact ⟨_, hl, hkind, List.rel_append (hold.imp fun _ _ ht => ht.extends h hS)
      (.cons hnew .nil)⟩
  · rw [Function.update_of_ne hk, hothers s k hs hk]
    have hother := hlists k
    rcases hl' : listOf s k with _ | l' <;> rw [hl'] at hother
    · exact hother
    · have ⟨b, hb, hbkind, _⟩ := hother
      refine ShowsList.extends h hother hS fun hmem => hk ?_
      exact hbkind.symm.trans (hkinds l' hmem b hb)

end Extends

/-! ### The view of what is shown -/

section View

variable {find : MediaGraph F γ → NodeId → Option NodeId} (hfind : Finds find)
include hfind

theorem ShowsBlock.blockView_eq {v : BlockView} (hv : ShowsBlock g id v) :
    blockView find g id = some v := by
  cases hv with
  | @clip c file hc hfile =>
    have hfileOf : fileOf g (find g id) = file := by
      cases hfile with
      | @footage f b hf hb =>
        have hrecorded : recordedFootage g id = some f := by
          rw [recordedFootage, clipOf, hc]
          simp [hf, isValid_of_behaviorOf hb]
        rw [hfind.recorded hc hrecorded, fileOf, Option.bind_some, footageOf, hb]
        rfl
      | nothing hnone he =>
        have hrecorded : recordedFootage g id = none := by
          rw [recordedFootage, clipOf, hc]
          simp [hnone]
        rw [hfind.nothing hc hrecorded he]
        rfl
    rw [blockView, blockCoreOf, blockKind, hc, Option.bind_some, if_pos rfl, hfileOf]
    rfl
  | gap hb => rw [blockView, blockCoreOf, blockKind, hb]; rfl
  | transition hb => rw [blockView, blockCoreOf, blockKind, hb]; rfl

theorem ShowsTrack.trackView_eq {vs : List BlockView} (hv : ShowsTrack g id vs) :
    trackView find g id = vs := by
  obtain ⟨t, ht, hblocks⟩ := hv
  rw [trackView, trackBehaviorOf, ht]
  show t.blocks.filterMap (blockView find g) = vs
  generalize t.blocks = blocks at hblocks
  induction hblocks with
  | nil => rfl
  | cons hb _ ih => rw [List.filterMap_cons, hb.blockView_eq hfind, ih]

/-- What a graph shows is the view of it. -/
theorem sequenceView_eq (hv : ShowsSequence g id view) : sequenceView find g id = view := by
  obtain ⟨s, hs, hlists⟩ := hv
  funext kind
  have hlist := hlists kind
  rw [sequenceView, tracksOf, hs]
  show List.map _ (((listOf s kind).bind (trackListBehaviorOf g)).map _ |>.getD []) = _
  rcases hl : listOf s kind with _ | l <;> rw [hl] at hlist
  · exact hlist.symm
  · obtain ⟨b, hb, -, htracks⟩ := hlist
    rw [Option.bind_some, trackListBehaviorOf, hb]
    show b.tracks.map (trackView find g) = view kind
    generalize b.tracks = tracks at htracks
    generalize view kind = views at htracks ⊢
    induction htracks with
    | nil => rfl
    | cons ht _ ih => rw [List.map_cons, ht.trackView_eq hfind, ih]

end View

end Oak.Interchange
