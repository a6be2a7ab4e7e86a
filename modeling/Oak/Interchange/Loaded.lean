import Oak.Interchange.Load

/-!
# What the task loads

The blocks, tracks and sequences that `LoadOTIOTask` makes of the items of a document.

* `loadedView item` is what the block for an item is left with: its length is that of the item, and
  it ends after one second.
* `Adds` is the graph while a block is made.

## Main results

* `Filled.foldl`: the items of a track make the blocks that `loadedView` gives, one behind another.
-/

namespace Oak.Interchange.LoadOTIOTask

open Oak.Core Oak.Node Oak.Node.Graph Oak.Timeline
open Oak.Otio (Composable)

variable {F γ : Type*} {g g₀ : MediaGraph F γ} {track block : NodeId} {t : TrackBehavior F}
  {b : Behavior F (Media γ)} {n : ℕ}

/-! ### What a block becomes -/

/-- The range that a block is left with. A length moves its in point, its out point stays at one
second. -/
def loadedRange : Composable ℚ → TimeRange
  | .clip c => lengthened (c.sourceRange.map fun r => r.duration.toSeconds)
  | .gap b => lengthened (b.sourceRange.map fun r => r.duration.toSeconds)
  | .transition t => lengthened (some (t.inOffset.toRational + t.outOffset.toRational))
  | _ => lengthened none
where
  lengthened : Option Rational → TimeRange
    | none => .new 0 1
    | some length => .new (1 - length) 1

/-- The url of the external reference of a clip. -/
def urlOf (item : Composable ℚ) : Option String :=
  ((item.asClip.bind Otio.Clip.mediaReference).bind
    Otio.MediaReference.asExternalReference).map Otio.ExternalReference.targetUrl

/-- What is seen of the block that is made for an item. -/
def loadedView (item : Composable ℚ) : BlockView :=
  let range := loadedRange item
  ⟨kindOf item.schemaName, range.in_, range.out, range.in_, (urlOf item).getD ""⟩

/-- What the source range of an item does to its block. -/
def placed (item : Composable ℚ) (b : Behavior F (Media γ)) : Behavior F (Media γ) :=
  if item.schemaName = "Clip" ∨ item.schemaName = "Gap" then
    match item.sourceRange with
    | none => b
    | some range =>
      let b := if item.schemaName = "Clip" then
          onClip (fun c => { c with core := { c.core with mediaIn := range.startTime.toSeconds } }) b
        else b
      b.modifyCore fun c => c.setLengthAndMediaOut range.duration.toSeconds
  else b

/-- What the offsets of a transition do to its block. -/
def offset (item : Composable ℚ) (b : Behavior F (Media γ)) : Behavior F (Media γ) :=
  match item.asTransition with
  | none => b
  | some transition =>
    onTransition (fun t =>
      { core := t.core.setLengthAndMediaOut
          (transition.inOffset.toRational + transition.outOffset.toRational)
        inOffset := transition.inOffset.toRational
        outOffset := transition.outOffset.toRational }) b

/-! ### A block under construction -/

/-- The block before is connected to only when it is a transition. -/
def Cursor.Ok (c : Cursor F γ) : Prop :=
  c.previousTransition = true → ∀ p, c.previous = some p →
    ∃ t, c.graph.behaviorOf p = some (.transition t)

/-- `g` is `g₀` with a new block, which has the behavior `b` for now, at the end of a track. -/
structure Adds (n : ℕ) (g₀ : MediaGraph F γ) (track : NodeId) (t : TrackBehavior F)
    (block : NodeId) (b : Behavior F (Media γ)) (g : MediaGraph F γ) : Prop where
  extends_ : Extends n {track} g₀ g
  known : g₀.behaviorOf track ≠ none
  above : Above g₀ 0 {track}
  fresh : g₀.behaviorOf block = none
  track_eq : g.behaviorOf track = some (.track t)
  block_eq : g.behaviorOf block = some b
  /-- A clip is not connected yet. -/
  alone : (∀ t', b ≠ .transition t') → ∀ e ∈ g.edges, e.target ≠ block

namespace Adds

theorem ne (h : Adds n g₀ track t block b g) : block ≠ track := by
  rintro rfl
  exact h.known h.fresh

theorem modifyBehavior (h : Adds n g₀ track t block b g)
    (f : Behavior F (Media γ) → Behavior F (Media γ))
    (hf : ∀ t', b = .transition t' → ∃ t'', f b = .transition t'') :
    Adds n g₀ track t block (f b) (g.modifyBehavior f block) where
  extends_ := by
    have hstep : Extends 0 {block} g (g.modifyBehavior f block) := .modifyBehavior f rfl
    exact h.extends_.trans hstep (within_singleton h.fresh) h.above
  known := h.known
  above := h.above
  fresh := h.fresh
  track_eq := by rw [behaviorOf_modifyBehavior, if_neg h.ne.symm, h.track_eq]
  block_eq := by rw [behaviorOf_modifyBehavior, if_pos rfl, h.block_eq, Option.map_some]
  alone := fun hb e he => by
    rw [edges_modifyBehavior] at he
    refine h.alone (fun t' ht' => ?_) e he
    obtain ⟨t'', ht''⟩ := hf t' ht'
    exact hb t'' ht''

theorem modifyBlock (h : Adds n g₀ track t block b g) (f : BlockCore F → BlockCore F) :
    Adds n g₀ track t block (b.modifyCore f) (modifyBlock g f block) :=
  h.modifyBehavior _ fun t' ht' => ⟨_, by rw [ht']; rfl⟩

theorem modifyClip (h : Adds n g₀ track t block b g)
    (f : ClipBlockBehavior F → ClipBlockBehavior F) :
    Adds n g₀ track t block (onClip f b) (modifyClip g f block) :=
  h.modifyBehavior _ fun t' ht' => ⟨t', by rw [ht']; rfl⟩

theorem modifyTransition (h : Adds n g₀ track t block b g)
    (f : TransitionBlockBehavior F → TransitionBlockBehavior F) :
    Adds n g₀ track t block (onTransition f b) (g.modifyBehavior (onTransition f) block) :=
  h.modifyBehavior _ fun t' ht' => ⟨f t', by rw [ht']; rfl⟩

theorem modifyCore (h : Adds n g₀ track t block b g) (f : NodeCore F → NodeCore F)
    (id : NodeId) : Adds n g₀ track t block b (g.modifyCore f id) where
  extends_ := h.extends_.trans (m := 0) (U := ∅) (.modifyCore f id) (by simp [Within]) h.above
  known := h.known
  above := h.above
  fresh := h.fresh
  track_eq := by rw [behaviorOf_modifyCore, h.track_eq]
  block_eq := by rw [behaviorOf_modifyCore, h.block_eq]
  alone := fun hb e he => h.alone hb e (by rwa [edges_modifyCore] at he)

theorem tryConnect (h : Adds n g₀ track t block b g) (source : NodeId) {target : NodeId}
    (input : String) (htarget : ∀ c, g.behaviorOf target ≠ some (.clip c))
    (hblock : target = block → ∃ t', b = .transition t') :
    Adds n g₀ track t block b (g.tryConnect source target input) where
  extends_ := by
    refine h.extends_.trans (m := 0) (U := ∅) (.tryConnect source input (.inr ?_))
      (by simp [Within]) h.above
    rintro ⟨c, hc⟩
    exact htarget c hc
  known := h.known
  above := h.above
  fresh := h.fresh
  track_eq := by rw [behaviorOf_tryConnect, h.track_eq]
  block_eq := by rw [behaviorOf_tryConnect, h.block_eq]
  alone := fun hb e he => by
    rcases mem_edges_tryConnect he with hold | ⟨rfl, -⟩
    · exact h.alone hb e hold
    · intro heq
      obtain ⟨t', ht'⟩ := hblock heq
      exact hb t' ht'

theorem start (ht : g₀.behaviorOf track = some (.track t)) (hroom : g₀.Room 1) (hwired : g₀.Wired)
    (core : NodeCore F) (b : Behavior F (Media γ)) :
    Adds 1 g₀ track t (g₀.addNode core b).2 b (g₀.addNode core b).1 := by
  obtain ⟨hfresh, hget⟩ := hroom.behaviorOf_addNode core b
  have hextends : Extends 1 {track} g₀ (g₀.addNode core b).1 := .addNode hroom core b
  refine ⟨hextends, by simp [ht], ?_, hfresh, ?_, by rw [hget, if_pos rfl], fun _ e he => ?_⟩
  · exact above_singleton ht Nat.one_pos
  · rw [hget, if_neg (ne_of_found ht hfresh), ht]
  · rw [show (g₀.addNode core b).1.edges = g₀.edges from edges_allocate core b] at he
    exact hwired.notMem hfresh e he

theorem appendBlock (h : Adds n g₀ track t block b g) :
    Adds n g₀ track { t with blocks := t.blocks ++ [block] } block
      (b.modifyCore fun c => { c with track := some track }) (appendBlock g track block) := by
  have hset : Adds n g₀ track t block (b.modifyCore fun c => { c with track := some track })
      (setTrack g block (some track)) := h.modifyBlock _
  have hstep : Extends 0 {track} (setTrack g block (some track))
      (Interchange.appendBlock g track block) := .modifyBehavior _ rfl
  refine ⟨hset.extends_.trans hstep (.of_subset le_rfl) h.above, h.known, h.above, h.fresh, ?_, ?_,
    fun hb e he => hset.alone hb e ?_⟩
  · rw [Interchange.appendBlock, modifyTrack, behaviorOf_modifyBehavior, if_pos rfl, hset.track_eq]
    rfl
  · rw [Interchange.appendBlock, modifyTrack, behaviorOf_modifyBehavior, if_neg h.ne,
      hset.block_eq]
  · rwa [Interchange.appendBlock, modifyTrack, edges_modifyBehavior] at he

theorem placeBlock (h : Adds n g₀ track t block b g) (item : Composable ℚ) :
    Adds n g₀ track t block (placed item b) (placeBlock item block g) := by
  rw [LoadOTIOTask.placeBlock, placed]
  split_ifs with hschema hclip
  · rcases item.sourceRange with _ | range
    · exact h
    · have hset := h.modifyClip fun c =>
        { c with core := { c.core with mediaIn := range.startTime.toSeconds } }
      exact hset.modifyBlock fun c => c.setLengthAndMediaOut range.duration.toSeconds
  · rcases item.sourceRange with _ | range
    · exact h
    · exact h.modifyBlock fun c => c.setLengthAndMediaOut range.duration.toSeconds
  · exact h

/-- The offsets of the item, and the connection of the block before it. -/
theorem placeTransition [OfNat F 0] (h : Adds n g₀ track t block b g) (previous : Option NodeId)
    {item : Composable ℚ} (hb : item.asTransition.isSome = true → ∃ t', b = .transition t') :
    Adds n g₀ track t block (offset item b) (placeTransition previous item block g) := by
  rw [LoadOTIOTask.placeTransition, offset]
  rcases htransition : item.asTransition with _ | transition
  · exact h
  · obtain ⟨t', rfl⟩ := hb (by rw [htransition]; rfl)
    have hset := h.modifyTransition fun t =>
      { core := t.core.setLengthAndMediaOut
          (transition.inOffset.toRational + transition.outOffset.toRational)
        inOffset := transition.inOffset.toRational
        outOffset := transition.outOffset.toRational }
    rcases previous with _ | previous
    · exact hset.modifyCore (fun core => setContextPosition core block 0 0 false) block
    · have htry := hset.tryConnect previous "out_block_in" (fun c hc => by
        rw [hset.block_eq] at hc
        exact absurd hc (by simp [onTransition])) fun _ => ⟨_, rfl⟩
      exact htry.modifyCore (fun core => setContextPosition core block 0 0 false) block

theorem connectToTransition {c : Cursor F γ} (h : Adds n c.graph track t block b g) (hc : c.Ok) :
    Adds n c.graph track t block b (connectToTransition c block g) := by
  rw [LoadOTIOTask.connectToTransition]
  split
  next previous hflag hprevious =>
    obtain ⟨t', ht'⟩ := hc hflag previous hprevious
    have hprevious' : g.behaviorOf previous = some (.transition t') :=
      h.extends_.kept (h.above.notMem ht' le_rfl) ht'
    refine h.tryConnect block "in_block_in" (fun c' hc' => ?_) fun heq => ?_
    · rw [hprevious'] at hc'
      exact absurd hc' (by simp)
    · have hfresh := h.fresh
      rw [← heq, ht'] at hfresh
      exact absurd hfresh (by simp)
  next => exact h

end Adds

/-- What holds of the project under construction: there is room for `m` nodes more, and a url that
was imported has a footage with that file. -/
structure Ready (s : State F γ) (m : ℕ) : Prop where
  room : s.graph.Room m
  wired : s.graph.Wired
  imported : ∀ url f, s.importedFootage.lookup url = some f →
    ∃ b, s.graph.behaviorOf f = some (.other (.footage b)) ∧ b.filename = url

theorem Ready.mono {s : State F γ} {m : ℕ} (h : Ready s n) (hm : m ≤ n) : Ready s m :=
  ⟨h.room.mono hm, h.wired, h.imported⟩

theorem Ready.extends {s : State F γ} {m : ℕ} {S T : Set NodeId} (h : Ready s (n + m))
    (hg : Grows n S T s.graph g)
    (hS : ∀ x ∈ S, ∀ b, s.graph.behaviorOf x ≠ some (.other (.footage b))) :
    Ready ⟨g, s.importedFootage⟩ m where
  room := hg.room h.room
  wired := hg.wired h.wired
  imported := fun url f hf => by
    obtain ⟨b, hb, hfile⟩ := h.imported url f hf
    exact ⟨b, hg.kept (fun hmem => hS f hmem b hb) hb, hfile⟩

/-! ### Footage -/

variable {f : FolderBehavior}

section Footage

variable (kit : Kit F γ) {s : State F γ} {folder : NodeId} {m : ℕ}

/-- The nodes that a track is loaded into are above its blocks. -/
theorem above_track_folder (ht : g.behaviorOf track = some (.track t))
    (hf : g.behaviorOf folder = some (.folder f)) : Above g 0 {track, folder} := by
  rintro x (rfl | rfl) b hb
  · exact lt_level_of_found ht Nat.one_pos hb
  · exact lt_level_of_found hf (Nat.succ_pos 3) hb

theorem grows_folderAddChild (g : MediaGraph F γ) (folder child : NodeId) :
    Grows 0 {folder} ∅ g (folderAddChild g folder child) := by
  have hset : ∀ f : Behavior F (Media γ) → Behavior F (Media γ),
      Grows 0 {folder} ∅ g (g.modifyBehavior f folder) := fun f => .modifyBehavior f rfl
  exact (hset _).trans (.modifyCore (fun core => { core with binFolder := some folder }) child)
    (.of_subset le_rfl) (.of_subset le_rfl)

theorem behaviorOf_folderAddChild (child : NodeId) (hf : g.behaviorOf folder = some (.folder f)) :
    (folderAddChild g folder child).behaviorOf folder = some (.folder (addChild f child)) := by
  rw [folderAddChild, behaviorOf_modifyCore, behaviorOf_modifyBehavior, if_pos rfl, hf,
    Option.map_some]

/-- The footage of a url has that file. -/
theorem importFootage_spec (hready : Ready s (1 + m))
    (hfolder : s.graph.behaviorOf folder = some (.folder f)) (url : String) :
    Grows 1 {folder} ∅ s.graph (importFootage kit (some folder) url s).1.graph ∧
      (∃ b, (importFootage kit (some folder) url s).1.graph.behaviorOf
        (importFootage kit (some folder) url s).2 = some (.other (.footage b)) ∧
          b.filename = url) ∧
      (∃ f', (importFootage kit (some folder) url s).1.graph.behaviorOf folder =
        some (.folder f')) ∧
      Ready (importFootage kit (some folder) url s).1 m := by
  rcases hlookup : s.importedFootage.lookup url with _ | footage
  · have hroom : s.graph.Room 1 := hready.room.mono (Nat.le_add_right 1 m)
    obtain ⟨hfresh, hget⟩ := hroom.behaviorOf_addNode kit.footage
      (.other (.footage (.new url)) : Behavior F (Media γ))
    have hadd : Grows 1 {folder} ∅ s.graph
        (s.graph.addNode kit.footage (.other (.footage (.new url)))).1 := .addNode hroom _ _
    rw [importFootage, hlookup]
    generalize s.graph.addNode kit.footage
      (.other (.footage (.new url)) : Behavior F (Media γ)) = p at hfresh hget hadd
    have hlabel : Grows 0 {folder} ∅ p.1 (setNodeLabel p.1 p.2 (kit.fileName url)) :=
      .modifyCore _ p.2
    have hchild := grows_folderAddChild (setNodeLabel p.1 p.2 (kit.fileName url)) folder p.2
    have hgrows : Grows 1 {folder} ∅ s.graph
        (folderAddChild (setNodeLabel p.1 p.2 (kit.fileName url)) folder p.2) :=
      (hadd.trans hlabel (.of_subset le_rfl) (.of_subset le_rfl)).trans hchild
        (.of_subset le_rfl) (.of_subset le_rfl)
    have hne : p.2 ∉ ({folder} : Set NodeId) := ne_of_found hfresh hfolder
    have hfootage : (folderAddChild (setNodeLabel p.1 p.2 (kit.fileName url)) folder
        p.2).behaviorOf p.2 = some (.other (.footage (.new url))) := by
      refine hchild.kept hne (hlabel.kept hne ?_)
      rw [hget, if_pos rfl]
    have hnot : ∀ x ∈ ({folder} : Set NodeId), ∀ b : FootageBehavior,
        s.graph.behaviorOf x ≠ some (.other (.footage b)) := by
      rintro _ rfl b hb
      exact absurd rfl (ne_of_found hfolder hb)
    have hready' := hready.extends hgrows hnot
    have hfolder' : (setNodeLabel p.1 p.2 (kit.fileName url)).behaviorOf folder =
        some (.folder f) := by
      rw [setNodeLabel, behaviorOf_modifyCore, hget, if_neg fun h => hne h.symm, hfolder]
    refine ⟨hgrows, ⟨_, hfootage, rfl⟩, ⟨_, behaviorOf_folderAddChild p.2 hfolder'⟩,
      hready'.room, hready'.wired, fun url' f' hf' => ?_⟩
    rw [List.lookup_cons] at hf'
    split at hf'
    next heq =>
      obtain rfl := Option.some.inj hf'
      exact ⟨_, hfootage, (beq_iff_eq.1 heq).symm⟩
    next => exact hready'.imported url' f' hf'
  · rw [importFootage, hlookup]
    exact ⟨(Grows.refl _ _ _).mono (Nat.zero_le 1) (.of_subset le_rfl) (.of_subset le_rfl),
      hready.imported url footage hlookup, ⟨f, hfolder⟩,
      hready.room.mono (Nat.le_add_left m 1), hready.wired, hready.imported⟩

variable [OfNat F 0] [OfNat F 1] [Neg F]

theorem grows_addEffect (hroom : g.Room 1) (kind : TrackType) (block footage : NodeId) :
    Grows 1 ∅ {block} g (addEffect kit kind block footage g) := by
  rw [addEffect]
  rcases (if kind = .video then kit.transform else kit.volume) with _ | effect
  · exact (Grows.refl _ _ _).mono (Nat.zero_le 1) (.of_subset le_rfl) (.of_subset le_rfl)
  · obtain ⟨hfresh, -⟩ := hroom.behaviorOf_addNode effect.1
      (.other (.node effect.2) : Behavior F (Media γ))
    have hadd : Grows 1 ∅ {block} g (g.addNode effect.1 (.other (.node effect.2))).1 :=
      .addNode hroom _ _
    simp only
    generalize g.addNode effect.1 (.other (.node effect.2) : Behavior F (Media γ)) = p
      at hfresh hadd
    generalize (if kind = .video then "tex_in" else "samples_in") = input
    have hin : Grows 0 ∅ {p.2} p.1 (p.1.tryConnect footage p.2 input) :=
      .tryConnect footage input (.inr rfl)
    have hout : Grows 0 ∅ {block} (p.1.tryConnect footage p.2 input)
        ((p.1.tryConnect footage p.2 input).tryConnect p.2 block ClipInput.textureInput) :=
      .tryConnect p.2 _ (.inr rfl)
    exact ((hadd.trans hin (.of_subset le_rfl) (within_singleton hfresh)).trans hout
      (.of_subset le_rfl) (.of_subset le_rfl)).trans (U := ∅) (V := {block})
        (.modifyCore _ block) (.of_subset le_rfl) (.of_subset le_rfl)

theorem linkFootage_of_none [OfNat F 2] {item : Composable ℚ}
    (hurl : urlOf item = none) (kind : TrackType) (folder : Option NodeId)
    (s : State F γ) : linkFootage kit kind folder item block s = s := by
  rw [linkFootage, Option.map_eq_none_iff.1 hurl]

/-- A clip with an external reference has the footage of the url. -/
theorem linkFootage_spec [OfNat F 2] (hready : Ready s (2 + m))
    (hfolder : s.graph.behaviorOf folder = some (.folder f)) {c : ClipBlockBehavior F}
    (hblock : s.graph.behaviorOf block = some (.clip c)) {item : Composable ℚ} {url : String}
    (hurl : urlOf item = some url) (kind : TrackType) :
    Grows 2 {folder, block} {block} s.graph
        (linkFootage kit kind (some folder) item block s).graph ∧
      (∃ footage b, (linkFootage kit kind (some folder) item block s).graph.behaviorOf block =
          some (.clip { c with footage := some footage }) ∧
        (linkFootage kit kind (some folder) item block s).graph.behaviorOf footage =
          some (.other (.footage b)) ∧ b.filename = url) ∧
      (∃ f', (linkFootage kit kind (some folder) item block s).graph.behaviorOf folder =
        some (.folder f')) ∧
      Ready (linkFootage kit kind (some folder) item block s) m := by
  obtain ⟨external, hexternal, rfl⟩ := Option.map_eq_some_iff.1 hurl
  have hready₁ : Ready s (1 + (1 + m)) := by rwa [← Nat.add_assoc]
  obtain ⟨himport, ⟨b, hb, hfile⟩, ⟨f', hfolder'⟩, hready₂⟩ :=
    importFootage_spec kit hready₁ hfolder external.targetUrl
  rw [linkFootage, hexternal]
  simp only
  generalize importFootage kit (some folder) external.targetUrl s = p at himport hb hfolder' hready₂
  have hne : block ∉ ({folder} : Set NodeId) := ne_of_found hblock hfolder
  have hblock₁ : p.1.graph.behaviorOf block = some (.clip c) := himport.kept hne hblock
  -- the positions
  have hown : Grows 0 {block} {block} p.1.graph (setOwnContextPosition p.1.graph block) :=
    .modifyCore (fun core => setContextPosition core block 0 0 false) block
  have hplaced : Grows 0 {block} {block} (setOwnContextPosition p.1.graph block)
      (nodeSetContextPosition (setOwnContextPosition p.1.graph block) block p.2 (-2) 0 false) :=
    .modifyCore _ block
  have hpositions := hown.trans hplaced (.of_subset le_rfl) (.of_subset le_rfl)
  have hblock₂ : (nodeSetContextPosition (setOwnContextPosition p.1.graph block) block p.2 (-2) 0
      false).behaviorOf block = some (.clip c) := by
    rw [nodeSetContextPosition, behaviorOf_modifyCore, setOwnContextPosition,
      nodeSetContextPosition, behaviorOf_modifyCore, hblock₁]
  generalize nodeSetContextPosition (setOwnContextPosition p.1.graph block) block p.2 (-2) 0
    false = g₁ at hpositions hblock₂
  -- the footage, which is no block
  have hset : Grows 0 {block} {block} g₁ (clipSetFootage g₁ block p.2) := .modifyBehavior _ rfl
  have hblock₃ : (clipSetFootage g₁ block p.2).behaviorOf block =
      some (.clip { c with footage := some p.2 }) := by
    rw [clipSetFootage, modifyClip, behaviorOf_modifyBehavior, if_pos rfl, hblock₂]
    rfl
  have hlinked := hpositions.trans hset (.of_subset le_rfl) (.of_subset le_rfl)
  have hfootage : p.2 ∉ ({block} : Set NodeId) := ne_of_found hb hblock₁
  have hnot : ∀ x ∈ ({block} : Set NodeId), ∀ b : FootageBehavior,
      p.1.graph.behaviorOf x ≠ some (.other (.footage b)) := by
    rintro _ rfl b' hb'
    exact absurd rfl (ne_of_found hblock₁ hb')
  have hready₃ : Ready ⟨clipSetFootage g₁ block p.2, p.1.importedFootage⟩ (1 + m) :=
    Ready.extends (n := 0) (by rwa [Nat.zero_add]) hlinked hnot
  have heffect := grows_addEffect kit (hready₃.room.mono (Nat.le_add_right 1 m)) kind block p.2
  refine ⟨?_, ⟨p.2, b, heffect.kept (Set.notMem_empty _) hblock₃,
    heffect.kept (Set.notMem_empty _) (hlinked.kept hfootage hb), hfile⟩,
    ⟨f', heffect.kept (Set.notMem_empty _) (hlinked.kept (fun h => hne h.symm) hfolder')⟩,
    hready₃.extends heffect fun _ hx => absurd hx (Set.notMem_empty _)⟩
  have htotal : Grows 1 {folder, block} {block} s.graph (clipSetFootage g₁ block p.2) :=
    (himport.mono le_rfl (.of_subset (by simp)) (.of_subset (Set.empty_subset _))).trans hlinked
      (.of_subset (by simp)) (.of_subset le_rfl)
  exact htotal.trans heffect (.of_subset (Set.empty_subset _)) (.of_subset le_rfl)

end Footage

/-! ### A track that is filled -/

section Filled

variable {s : State F γ} {folder : NodeId} {m : ℕ}

/-- The loop has made the blocks that show `blocks` at the end of the track. -/
structure Filled (g₀ : MediaGraph F γ) (track folder : NodeId) (n m : ℕ) (blocks : List BlockView)
    (c : Cursor F γ) : Prop where
  grows : Extends n {track, folder} g₀ c.graph
  above : Above g₀ 0 {track, folder}
  shows_ : ShowsTrack c.graph track blocks
  folder_eq : ∃ f, c.graph.behaviorOf folder = some (.folder f)
  ready : Ready c.toState m
  ok : c.Ok

/-- A block is at the end of the track, and the project is ready for the next one. -/
theorem Filled.next {item : Composable ℚ} {blocks : List BlockView} {c : Cursor F γ}
    (h : Filled g₀ track folder n (3 + m) blocks c)
    (ht : c.graph.behaviorOf track = some (.track t))
    (hblocks : List.Forall₂ (ShowsBlock c.graph) t.blocks blocks)
    (hgrows : Extends 3 {track, folder} c.graph s.graph)
    (htrack : s.graph.behaviorOf track = some (.track { t with blocks := t.blocks ++ [block] }))
    (hfolder : ∃ f, s.graph.behaviorOf folder = some (.folder f))
    (hblock : ShowsBlock s.graph block (loadedView item)) (hready : Ready s m)
    (hok : item.asTransition.isSome = true →
      ∃ t', s.graph.behaviorOf block = some (.transition t')) :
    Filled g₀ track folder (n + 3) m (blocks ++ [loadedView item])
      { s with previous := some block, previousTransition := item.asTransition.isSome } where
  grows := h.grows.trans hgrows (.of_subset le_rfl) h.above
  above := h.above
  shows_ := by
    obtain ⟨f, hf⟩ := h.folder_eq
    refine ⟨_, htrack, List.rel_append (hblocks.imp fun _ _ hb => ?_) (.cons hblock .nil)⟩
    exact hb.extends hgrows (above_track_folder ht hf)
  folder_eq := hfolder
  ready := hready
  ok := fun hflag p hp => by
    obtain rfl := Option.some.inj hp
    exact hok hflag

end Filled

/-! ### The block of an item -/

variable [ClipSpeed F]

/-- The core of the block that is made for an item. -/
def itemCore (track : NodeId) (item : Composable ℚ) : BlockCore F :=
  { BlockCore.default with
    range := loadedRange item
    mediaIn := (loadedRange item).in_
    track := some track }

/-- The block that is made for an item, before its footage is linked. -/
def itemBehavior (track : NodeId) (item : Composable ℚ) : Behavior F (Media γ) :=
  match kindOf item.schemaName with
  | .clip => .clip ⟨itemCore track item, none⟩
  | .transition => .transition
    { core := itemCore track item
      inOffset := (item.asTransition.map fun t => t.inOffset.toRational).getD 0
      outOffset := (item.asTransition.map fun t => t.outOffset.toRational).getD 0 }
  | _ => .gap ⟨itemCore track item⟩

/-- A block when it has just been made. -/
def newBlock : BlockKind → Behavior F (Media γ)
  | .clip => .clip ⟨.default, none⟩
  | .transition => .transition ⟨.default, 0, 0⟩
  | _ => .gap ⟨.default⟩

/-- A new block that knows its track. -/
def ownedBlock (track : NodeId) (kind : BlockKind) : Behavior F (Media γ) :=
  (newBlock kind).modifyCore fun c => { c with track := some track }

variable (kit : Kit F γ) {item : Composable ℚ} {c : Cursor F γ}

theorem blockCreate_kindOf (name : String) (g : MediaGraph F γ) :
    ∃ core, blockCreate kit (kindOf name) g = some (g.addNode core (newBlock (kindOf name))) := by
  rw [kindOf]
  split_ifs
  all_goals exact ⟨_, rfl⟩

theorem kindOf_ne_other (name : String) : kindOf name ≠ .other := by
  rw [kindOf]
  split_ifs <;> simp

/-- A length moves the in point of a block that starts as the default one. -/
theorem setLengthAndMediaOut_default (track : Option NodeId) (mediaIn length : Rational) :
    BlockCore.setLengthAndMediaOut
        { (BlockCore.default : BlockCore F) with track := track, mediaIn := mediaIn } length =
      { (BlockCore.default : BlockCore F) with
        range := .new (1 - length) 1
        mediaIn := (TimeRange.new (1 - length) 1).in_
        track := track } := by
  have hout : ∀ core : BlockCore F, core.range = .new 0 1 → core.in_ + core.length = 1 := by
    intro core h
    rw [BlockCore.in_add_length, BlockCore.out, h]
    rfl
  rw [BlockCore.setLengthAndMediaOut, hout _ rfl]

/-- The block of an item without a range or offsets stays as it was made. -/
theorem ownedBlock_eq {item : Composable ℚ} (hrange : loadedRange item = .new 0 1)
    (hnot : item.asTransition = none) (track : NodeId) :
    (ownedBlock track (kindOf item.schemaName) : Behavior F (Media γ)) =
      itemBehavior track item := by
  have hmedia : (TimeRange.new 0 1).in_ = 0 := rfl
  rw [itemBehavior, itemCore, hrange, hnot, hmedia]
  rcases kindOf item.schemaName with _ | _ | _ | _ <;> rfl

/-- The changes of a new block come to the block of the item. -/
theorem offset_placed (track : NodeId) (item : Composable ℚ) :
    offset item (placed item (ownedBlock track (kindOf item.schemaName))) =
      (itemBehavior track item : Behavior F (Media γ)) := by
  -- an item without a range or offsets
  have hplain : item.sourceRange = none → item.asTransition = none →
      loadedRange item = .new 0 1 →
        offset item (placed item (ownedBlock track (kindOf item.schemaName))) =
          (itemBehavior track item : Behavior F (Media γ)) := by
    intro hsource hnot hrange
    rw [ownedBlock_eq hrange hnot track, offset, hnot]
    simp only [placed, hsource, ite_self]
  cases item with
  | clip c =>
    rcases hr : c.sourceRange with _ | r
    · exact hplain hr rfl (by rw [loadedRange, hr]; rfl)
    · have hrange : loadedRange (.clip c) = .new (1 - r.duration.toSeconds) 1 := by
        rw [loadedRange, hr]
        rfl
      have hplaced : placed (.clip c) (ownedBlock track .clip : Behavior F (Media γ)) =
            .clip ⟨BlockCore.setLengthAndMediaOut
              { (BlockCore.default : BlockCore F) with
                track := some track
                mediaIn := r.startTime.toSeconds } r.duration.toSeconds, none⟩ := by
        simp only [placed, Composable.schemaName, true_or, if_true, Composable.sourceRange, hr]
        rfl
      show offset (.clip c) (placed (.clip c) _) = .clip ⟨itemCore track (.clip c), none⟩
      rw [itemCore, hrange, ← setLengthAndMediaOut_default (some track) r.startTime.toSeconds]
      exact hplaced
  | gap b =>
    rcases hr : b.sourceRange with _ | r
    · exact hplain hr rfl (by rw [loadedRange, hr]; rfl)
    · have hrange : loadedRange (.gap b) = .new (1 - r.duration.toSeconds) 1 := by
        rw [loadedRange, hr]
        rfl
      have hplaced : placed (.gap b) (ownedBlock track .gap : Behavior F (Media γ)) =
            .gap ⟨BlockCore.setLengthAndMediaOut
              { (BlockCore.default : BlockCore F) with
                track := some track
                mediaIn := 0 } r.duration.toSeconds⟩ := by
        simp only [placed, Composable.schemaName, Composable.sourceRange, hr]
        rfl
      show offset (.gap b) (placed (.gap b) _) = .gap ⟨itemCore track (.gap b)⟩
      rw [itemCore, hrange, ← setLengthAndMediaOut_default (some track) 0]
      exact hplaced
  | transition t =>
    have hoffset : offset (.transition t)
        (ownedBlock track .transition : Behavior F (Media γ)) = .transition
          { core := BlockCore.setLengthAndMediaOut
              { (BlockCore.default : BlockCore F) with
                track := some track
                mediaIn := 0 } (t.inOffset.toRational + t.outOffset.toRational)
            inOffset := t.inOffset.toRational
            outOffset := t.outOffset.toRational } := rfl
    rw [setLengthAndMediaOut_default] at hoffset
    have hplaced : placed (.transition t) (ownedBlock track .transition : Behavior F (Media γ)) =
        ownedBlock track .transition := by
      simp [placed, Composable.schemaName]
    exact (congrArg (offset (.transition t)) hplaced).trans hoffset
  | track t => exact hplain rfl rfl rfl
  | stack s => exact hplain rfl rfl rfl
  | raw v => exact hplain rfl rfl rfl

/-! ### One item -/

theorem placed_of_transition (hitem : item.asTransition.isSome = true) (track : NodeId) :
    ∃ t', placed item (ownedBlock track (kindOf item.schemaName) : Behavior F (Media γ)) =
      .transition t' := by
  cases item with
  | transition t => exact ⟨_, by simp [placed, Composable.schemaName]; rfl⟩
  | _ => exact absurd hitem (by simp [Composable.asTransition])

theorem makeBlock_spec [OfNat F 0] (item : Composable ℚ)
    (ht : c.graph.behaviorOf track = some (.track t))
    (hroom : c.graph.Room 1) (hwired : c.graph.Wired) (hc : c.Ok) :
    ∃ g block, makeBlock kit track c item = some (g, block) ∧
      Adds 1 c.graph track { t with blocks := t.blocks ++ [block] } block
        (itemBehavior track item) g := by
  obtain ⟨core, hcreate⟩ := blockCreate_kindOf kit item.schemaName c.graph
  have hstart := Adds.start ht hroom hwired core (newBlock (kindOf item.schemaName))
  generalize hadd : c.graph.addNode core (newBlock (kindOf item.schemaName)) = p at hstart hcreate
  have hlabel := hstart.modifyCore (fun core => { core with label := item.name }) p.2
  have happend : Adds 1 c.graph track { t with blocks := t.blocks ++ [p.2] } p.2
      (ownedBlock track (kindOf item.schemaName)) _ := hlabel.appendBlock
  have hplace := (happend.placeBlock item).connectToTransition hc
  have hdone := hplace.placeTransition c.previous fun hitem => placed_of_transition hitem track
  rw [offset_placed] at hdone
  rw [makeBlock, hcreate, Option.map_some]
  refine ⟨_, _, rfl, ?_⟩
  split_ifs
  · exact hdone.modifyCore (fun core => setContextPosition core p.2 0 0 false) p.2
  · exact hdone

/-- A block without an external reference is shown when it is made. -/
theorem Adds.showsBlock {item : Composable ℚ}
    (h : Adds n g₀ track t block (itemBehavior track item) g) (hurl : urlOf item = none) :
    ShowsBlock g block (loadedView item) := by
  have hb := h.block_eq
  have halone := h.alone
  rw [loadedView, hurl]
  rw [itemBehavior] at hb halone
  rcases hkind : kindOf item.schemaName with _ | _ | _ | _ <;> rw [hkind] at hb halone
  · exact absurd hkind (kindOf_ne_other _)
  · exact .clip hb (.nothing rfl (halone (by simp)))
  · exact .gap hb
  · exact .transition hb

theorem schemaName_of_url (track : NodeId) {url : String} (hurl : urlOf item = some url) :
    item.schemaName = "Clip" ∧ item.asTransition = none ∧
      (itemBehavior track item : Behavior F (Media γ)) = .clip ⟨itemCore track item, none⟩ := by
  cases item with
  | clip c => exact ⟨rfl, rfl, rfl⟩
  | _ => exact absurd hurl (by simp [urlOf, Composable.asClip])

theorem itemBehavior_of_transition (hitem : item.asTransition.isSome = true) (track : NodeId) :
    ∃ t', (itemBehavior track item : Behavior F (Media γ)) = .transition t' := by
  cases item with
  | transition t => exact ⟨_, rfl⟩
  | _ => exact absurd hitem (by simp [Composable.asTransition])

/-! ### The loop over the items of a track -/

section Track

variable [OfNat F 0] [OfNat F 1] [OfNat F 2] [Neg F] {m : ℕ} {folder : NodeId}

theorem Filled.loadBlock {blocks : List BlockView} (h : Filled g₀ track folder n (3 + m) blocks c)
    (kind : TrackType) (item : Composable ℚ) :
    Filled g₀ track folder (n + 3) m (blocks ++ [loadedView item])
      (loadBlock kit kind (some folder) track c item) := by
  obtain ⟨t, ht, hblocks⟩ := h.shows_
  obtain ⟨f, hf⟩ := h.folder_eq
  have habove := above_track_folder ht hf
  obtain ⟨g, block, hmake, hadds⟩ := makeBlock_spec kit item ht
    (h.ready.room.mono (by omega)) h.ready.wired h.ok
  have hmade : Extends 1 {track, folder} c.graph g :=
    hadds.extends_.mono le_rfl (.of_subset (by simp))
  have hnot : ∀ x ∈ ({track, folder} : Set NodeId), ∀ b : FootageBehavior,
      c.graph.behaviorOf x ≠ some (.other (.footage b)) :=
    fun x hx b hb => absurd (habove x hx _ hb) (Nat.lt_irrefl 0)
  have hready : Ready ⟨g, c.importedFootage⟩ (2 + m) :=
    Ready.extends (n := 1) (by rw [← Nat.add_assoc]; exact h.ready) hmade hnot
  have hfolder : g.behaviorOf folder = some (.folder f) :=
    hadds.extends_.kept (ne_of_found hf ht) hf
  rw [LoadOTIOTask.loadBlock, hmake]
  simp only
  rcases hurl : urlOf item with _ | url
  · rw [linkFootage_of_none kit hurl, ite_self]
    refine h.next ht hblocks (hmade.mono (by omega) (.of_subset le_rfl)) hadds.track_eq
      ⟨f, hfolder⟩ (hadds.showsBlock hurl) ⟨hready.room.mono (by omega), hready.wired,
        hready.imported⟩ fun hitem => ?_
    obtain ⟨t', ht'⟩ := itemBehavior_of_transition (F := F) (γ := γ) hitem track
    exact ⟨t', ht' ▸ hadds.block_eq⟩
  · obtain ⟨hschema, htransition, hclip⟩ := schemaName_of_url (F := F) (γ := γ) track hurl
    have hblock : g.behaviorOf block = some (.clip ⟨itemCore track item, none⟩) :=
      hclip ▸ hadds.block_eq
    obtain ⟨hgrows, ⟨footage, b, hblock', hfootage, hfile⟩, hfolder', hready'⟩ :=
      linkFootage_spec kit hready hfolder hblock hurl kind
    rw [if_pos hschema]
    have hview : loadedView item = ⟨.clip, (itemCore track item : BlockCore F).in_,
        (itemCore track item : BlockCore F).out, (itemCore track item : BlockCore F).mediaIn,
        b.filename⟩ := by
      rw [loadedView, hschema, hurl, hfile]
      rfl
    have hshows : ShowsBlock (linkFootage kit kind (some folder) item block
        ⟨g, c.importedFootage⟩).graph block (loadedView item) :=
      hview ▸ .clip hblock' (.footage rfl hfootage)
    have htrack : track ∉ ({folder, block} : Set NodeId) := by
      rintro (rfl | rfl)
      · exact absurd rfl (ne_of_found hf ht)
      · exact hadds.ne rfl
    have htotal : Extends 3 {track, folder} c.graph (linkFootage kit kind (some folder) item block
        ⟨g, c.importedFootage⟩).graph := by
      refine Grows.trans hmade hgrows ?_ (within_singleton hadds.fresh)
      rintro x (rfl | rfl)
      · exact .inr (by simp)
      · exact .inl hadds.fresh
    refine h.next ht hblocks htotal (hgrows.kept htrack hadds.track_eq) hfolder' hshows hready'
      fun hitem => ?_
    rw [htransition] at hitem
    exact absurd hitem (by simp)

/-- All items. -/
theorem Filled.foldl (kind : TrackType) : ∀ (items : List (Composable ℚ)) {n : ℕ}
    {blocks : List BlockView} {c : Cursor F γ},
    Filled g₀ track folder n (3 * items.length + m) blocks c →
      Filled g₀ track folder (n + 3 * items.length) m (blocks ++ items.map loadedView)
        (items.foldl (LoadOTIOTask.loadBlock kit kind (some folder) track) c)
  | [], n, blocks, c, h => by
    simpa using h
  | item :: items, n, blocks, c, h => by
    have hcons : 3 * (item :: items).length + m = 3 + (3 * items.length + m) := by
      rw [List.length_cons]
      omega
    rw [hcons] at h
    have hrest := Filled.foldl kind items (h.loadBlock kit kind item)
    rw [List.foldl_cons, List.map_cons, List.append_cons]
    convert hrest using 1
    rw [List.length_cons]
    omega

end Track

end Oak.Interchange.LoadOTIOTask
