import Oak.Node.Build
import Oak.Node.Project
import Oak.Timeline.TrackList

/-!
# Media in the graph of a project

The nodes of a project that an exchange with other editors reads and makes: footage beside the
blocks, tracks and sequences, how the footage behind a clip is found by the tasks
(`oak-task/src/nodeops.rs`) and by the storage backend (`oak-storage/src/backends/otio.rs`), and
what a new project starts with (`oak-node/src/project.rs`).

The inputs of the nodes that are made are a parameter, `Kit`. A connection reads them, but no
behavior depends on them.
-/

namespace Oak.Interchange

open Oak.Core Oak.Node Oak.Node.Graph Oak.Timeline

/-- `FootageBehavior`, as far as it is exported: the length and the frame rate of the first video
stream, and the sample rate of the first audio stream. -/
structure FootageBehavior where
  filename : String
  videoLength : Rational
  frameRate : Option Rational
  sampleRate : Option ℤ
  deriving DecidableEq, Repr

/-- `FootageBehavior::new`: nothing is known of the file. -/
def FootageBehavior.new (filename : String) : FootageBehavior := ⟨filename, 0, none, none⟩

/-- Footage among the behaviors that are not part of a sequence. -/
inductive Media (γ : Type*) where
  | footage (b : FootageBehavior)
  | node (b : γ)
  deriving DecidableEq, Repr

/-- The graph of a project with footage. -/
abbrev MediaGraph (F γ : Type*) := ProjectGraph F (Media γ)

variable {F γ : Type*} {g g' : MediaGraph F γ} {id : NodeId}

/-! ### Footage -/

/-- The footage at a node. -/
def footageOf (g : MediaGraph F γ) (id : NodeId) : Option FootageBehavior :=
  match g.behaviorOf id with
  | some (.other (.footage b)) => some b
  | _ => none

/-- The clip at a node. -/
def clipOf (g : MediaGraph F γ) (id : NodeId) : Option (ClipBlockBehavior F) :=
  match g.behaviorOf id with
  | some (.clip b) => some b
  | _ => none

/-- `node_is_footage`. -/
def nodeIsFootage (g : MediaGraph F γ) (id : NodeId) : Bool := (footageOf g id).isSome

/-- The footage that a clip has recorded, while it is there. -/
def recordedFootage (g : MediaGraph F γ) (id : NodeId) : Option NodeId :=
  ((clipOf g id).bind ClipBlockBehavior.footage).filter g.isValid

/-- The walk of `find_input_footage`: the sources of a node are looked at when the node is popped.
A node is expanded once, so `fuel` bounds what is pushed. -/
def searchInputs (g : MediaGraph F γ) : ℕ → List NodeId → List NodeId → Option NodeId
  | 0, _, _ => none
  | _ + 1, [], _ => none
  | fuel + 1, n :: stack, seen =>
    if n ∈ seen then searchInputs g fuel stack seen
    else
      let sources := (g.inputConnections n).map Prod.fst
      match sources.find? (nodeIsFootage g) with
      | some f => some f
      | none => searchInputs g fuel (sources.reverse ++ stack) (n :: seen)

/-- `find_input_footage` of the tasks. -/
def findInputFootage (g : MediaGraph F γ) (node : NodeId) : Option NodeId :=
  if nodeIsFootage g node then some node
  else
    match recordedFootage g node with
    | some f => some f
    | none => searchInputs g (g.edges.toList.length + 2) [node] []

/-- `Graph::upstream`. -/
def upstream (g : MediaGraph F γ) (id : NodeId) : List NodeId :=
  ((g.edgesInto id).map Edge.source).mergeSort fun a b => decide (a ≤ b)

/-- The walk of `clip_footage`: a node is looked at when it is popped. -/
def searchUpstream (g : MediaGraph F γ) : ℕ → List NodeId → List NodeId → Option NodeId
  | 0, _, _ => none
  | _ + 1, [], _ => none
  | fuel + 1, n :: queue, visited =>
    if n ∈ visited then searchUpstream g fuel queue visited
    else if nodeIsFootage g n then some n
    else searchUpstream g fuel ((upstream g n).reverse ++ queue) (n :: visited)

/-- `clip_footage` of the storage backend. -/
def clipFootage (g : MediaGraph F γ) (clip : NodeId) : Option NodeId :=
  match recordedFootage g clip with
  | some f => some f
  | none => searchUpstream g (g.edges.toList.length + 2) (upstream g clip).reverse []

/-- The file of a footage; there is none without a footage. -/
def fileOf (g : MediaGraph F γ) (footage : Option NodeId) : String :=
  ((footage.bind (footageOf g)).map FootageBehavior.filename).getD ""

/-! ### Sequences -/

variable {b : Behavior F (Media γ)}

theorem valid_of_behaviorOf (h : g.behaviorOf id = some b) : id.valid = true := by
  obtain ⟨e, he, -⟩ := behaviorOf_eq_some_iff.1 h
  exact (get_eq_some_iff.1 he).1

/-- `node_is_sequence`. -/
def nodeIsSequence (g : MediaGraph F γ) (id : NodeId) : Bool :=
  match g.behaviorOf id with
  | some (.sequence _) => true
  | _ => false

/-- The sequences of a project, in slot order. -/
def sequenceIds (g : MediaGraph F γ) : List NodeId := g.nodeIds.filter (nodeIsSequence g)

theorem nodeIds_addNode (h : g.Room 1) (core : NodeCore F) (b : Behavior F (Media γ)) :
    (g.addNode core b).1.nodeIds = g.nodeIds ++ [(g.addNode core b).2] := by
  rw [addNode, allocate_append h.free]
  simp [nodeIds, List.zipIdx_append, Slot.occupant]

theorem sequenceIds_addNode (h : g.Room 1) (core : NodeCore F) (b : Behavior F (Media γ)) :
    sequenceIds (g.addNode core b).1 = sequenceIds g ++
      [(g.addNode core b).2].filter (nodeIsSequence (g.addNode core b).1) := by
  obtain ⟨hfresh, hget⟩ := h.behaviorOf_addNode core b
  rw [sequenceIds, nodeIds_addNode h, List.filter_append]
  congr 1
  refine List.filter_congr fun x hx => ?_
  have hroom : g.entries.length < u32Size := by
    have := h.lt
    omega
  have hlive : g.isValid x = true := (mem_nodeIds_iff hroom).1 hx
  have hne : x ≠ (g.addNode core b).2 := by
    rintro rfl
    rw [isValid_eq_isSome_behaviorOf, hfresh] at hlive
    exact absurd hlive (by simp)
  rw [nodeIsSequence, nodeIsSequence, hget, if_neg hne]

theorem sequenceIds_addNode_of_ne (h : g.Room 1) (core : NodeCore F) (hb : ∀ s, b ≠ .sequence s) :
    sequenceIds (g.addNode core b).1 = sequenceIds g := by
  have hnot : nodeIsSequence (g.addNode core b).1 (g.addNode core b).2 = false := by
    rw [nodeIsSequence, (h.behaviorOf_addNode core b).2, if_pos rfl]
    cases b with
    | sequence s => exact absurd rfl (hb s)
    | _ => rfl
  rw [sequenceIds_addNode h, List.filter_cons_of_neg (by simp [hnot]), List.filter_nil,
    List.append_nil]

theorem sequenceIds_congr (hroom : g.entries.length < u32Size)
    (hroom' : g'.entries.length < u32Size) (hvalid : ∀ x, g'.isValid x = g.isValid x)
    (hsequence : ∀ x, nodeIsSequence g' x = nodeIsSequence g x) :
    sequenceIds g' = sequenceIds g := by
  have hperm : g'.nodeIds.Perm g.nodeIds := by
    refine (List.perm_ext_iff_of_nodup (nodup_nodeIds hroom') (nodup_nodeIds hroom)).2 fun x => ?_
    rw [mem_nodeIds_iff hroom', mem_nodeIds_iff hroom, hvalid]
  have hids : g'.nodeIds = g.nodeIds := hperm.eq_of_pairwise
    (fun a b _ _ hab hba => absurd (hab.trans hba) (lt_irrefl _)) (pairwise_nodeIds hroom')
    (pairwise_nodeIds hroom)
  rw [sequenceIds, sequenceIds, hids]
  exact List.filter_congr fun x _ => hsequence x

theorem sequenceIds_of_behaviorOf (hroom : g.entries.length < u32Size)
    (hroom' : g'.entries.length < u32Size) (h : ∀ x, g'.behaviorOf x = g.behaviorOf x) :
    sequenceIds g' = sequenceIds g :=
  sequenceIds_congr hroom hroom'
    (fun x => by rw [isValid_eq_isSome_behaviorOf, isValid_eq_isSome_behaviorOf, h])
    fun x => by rw [nodeIsSequence, nodeIsSequence, h]

theorem sequenceIds_modifyBehavior (hroom : g.entries.length < u32Size)
    (f : Behavior F (Media γ) → Behavior F (Media γ))
    (hf : ∀ b, (∃ s, f b = .sequence s) ↔ ∃ s, b = .sequence s) (id : NodeId) :
    sequenceIds (g.modifyBehavior f id) = sequenceIds g := by
  refine sequenceIds_congr hroom (by rwa [length_modifyBehavior])
    (fun x => isValid_modifyBehavior f) fun x => ?_
  rw [nodeIsSequence, nodeIsSequence, behaviorOf_modifyBehavior]
  split_ifs
  · rcases g.behaviorOf x with _ | b
    · rfl
    · have hb := hf b
      rw [Option.map_some]
      rcases b with _ | _ | _ | _ | _ | _ | s | _ | _
      case sequence =>
        obtain ⟨s', hs'⟩ := hb.2 ⟨s, rfl⟩
        rw [hs']
      all_goals
        rcases h : f _ with _ | _ | _ | _ | _ | _ | s' | _ | _
        case sequence => exact absurd (hb.1 ⟨s', h⟩) (by simp)
        all_goals rfl
  · rfl

/-! ### Changing a block -/

/-- A change of clips only. -/
def onClip (f : ClipBlockBehavior F → ClipBlockBehavior F) :
    Behavior F (Media γ) → Behavior F (Media γ)
  | .clip c => .clip (f c)
  | b => b

/-- A change of transitions only. -/
def onTransition (f : TransitionBlockBehavior F → TransitionBlockBehavior F) :
    Behavior F (Media γ) → Behavior F (Media γ)
  | .transition t => .transition (f t)
  | b => b

/-! ### New nodes -/

/-- The cores of the nodes that are made, with the inputs that their constructors give them, and
the nodes that the factory and the graph know. -/
structure Kit (F γ : Type*) where
  clip : NodeCore F
  gap : NodeCore F
  transition : NodeCore F
  sequence : NodeCore F
  folder : NodeCore F
  footage : NodeCore F
  /-- The virtual endpoints of a graph. -/
  graphInput : NodeCore F × γ
  graphOutput : NodeCore F × γ
  /-- The registry of the factory, for the effects that are put behind a clip. -/
  transform : Option (NodeCore F × γ)
  volume : Option (NodeCore F × γ)
  /-- `Path::file_name`. -/
  fileName : String → String

/-- A kit without inputs and effects. -/
def plainKit : Kit ℚ Unit :=
  ⟨.new, .new, .new, .new, .new, .new, (.new, ()), (.new, ()), none, none, fun name => name⟩

variable (kit : Kit F γ)

/-- `folder::create`. -/
def Kit.newFolder (name : String) : NodeCore F × Behavior F (Media γ) :=
  (kit.folder, .folder ⟨name, []⟩)

/-- `clip_create`. -/
def Kit.newClip [ClipSpeed F] : NodeCore F × ClipBlockBehavior F := (kit.clip, ⟨.default, none⟩)

/-- `gap_create`. -/
def Kit.newGap [ClipSpeed F] : NodeCore F × GapBlockBehavior F := (kit.gap, ⟨.default⟩)

/-- `transition_create`. -/
def Kit.newTransition [ClipSpeed F] : NodeCore F × TransitionBlockBehavior F :=
  (kit.transition, ⟨.default, 0, 0⟩)

/-- `Project::initialize` on the graph of a new project: the root folder, and the endpoints, which
are not there yet. -/
def initialized : MediaGraph F γ × NodeId :=
  let (g, root) := (Graph.new : MediaGraph F γ).addNode (kit.newFolder "Root").1
    (kit.newFolder "Root").2
  let (g, input) := g.addNode kit.graphInput.1 (.other (.node kit.graphInput.2))
  let (g, output) := g.addNode kit.graphOutput.1 (.other (.node kit.graphOutput.2))
  (g.tryConnect input output "tex_in", root)

theorem initialized_spec {m : ℕ} (hroom : 3 + m < u32Size) :
    (initialized kit).1.Room m ∧ (initialized kit).1.Wired ∧
      (initialized kit).1.behaviorOf (initialized kit).2 = some (.folder ⟨"Root", []⟩) ∧
      sequenceIds (initialized kit).1 = [] := by
  have hroom₀ : (Graph.new : MediaGraph F γ).Room (3 + m) := ⟨rfl, by simpa [Graph.new] using hroom⟩
  have hwired₀ : (Graph.new : MediaGraph F γ).Wired := by
    intro e he
    exact absurd he (by simp [Graph.new])
  obtain ⟨-, hget⟩ := (hroom₀.mono (by omega)).behaviorOf_addNode (kit.newFolder "Root").1
    (kit.newFolder "Root").2
  have hadd : Grows 1 ∅ Set.univ (Graph.new : MediaGraph F γ)
    ((Graph.new : MediaGraph F γ).addNode (kit.newFolder "Root").1 (kit.newFolder "Root").2).1 :=
    .addNode (hroom₀.mono (by omega)) _ _
  have hids : sequenceIds ((Graph.new : MediaGraph F γ).addNode (kit.newFolder "Root").1
      (kit.newFolder "Root").2).1 = [] :=
    sequenceIds_addNode_of_ne (hroom₀.mono (by omega)) _ (by simp [Kit.newFolder])
  rw [initialized]
  simp only
  generalize (Graph.new : MediaGraph F γ).addNode (kit.newFolder "Root").1
    (kit.newFolder "Root").2 = p at hget hadd hids
  have hroot : p.1.behaviorOf p.2 = some (.folder ⟨"Root", []⟩) := by
    rw [hget, if_pos rfl]
    rfl
  have hroom₁ : p.1.Room (2 + m) := hadd.room (by rwa [← Nat.add_assoc])
  have hinput : Grows 1 ∅ Set.univ p.1
    (p.1.addNode kit.graphInput.1 (.other (.node kit.graphInput.2))).1 :=
    .addNode (hroom₁.mono (by omega)) _ _
  have hids₁ := sequenceIds_addNode_of_ne (hroom₁.mono (by omega)) kit.graphInput.1
    (b := .other (.node kit.graphInput.2)) (by simp)
  generalize p.1.addNode kit.graphInput.1 (.other (.node kit.graphInput.2) :
    Behavior F (Media γ)) = q at hinput hids₁
  have hroom₂ : q.1.Room (1 + m) := hinput.room (by rwa [← Nat.add_assoc])
  have houtput : Grows 1 ∅ Set.univ q.1
    (q.1.addNode kit.graphOutput.1 (.other (.node kit.graphOutput.2))).1 :=
    .addNode (hroom₂.mono (by omega)) _ _
  have hids₂ := sequenceIds_addNode_of_ne (hroom₂.mono (by omega)) kit.graphOutput.1
    (b := .other (.node kit.graphOutput.2)) (by simp)
  generalize q.1.addNode kit.graphOutput.1 (.other (.node kit.graphOutput.2) :
    Behavior F (Media γ)) = r at houtput hids₂
  have hroom₃ : r.1.Room m := houtput.room hroom₂
  have hwire : Grows 0 ∅ Set.univ r.1 (r.1.tryConnect q.2 r.2 "tex_in") :=
    .tryConnect q.2 "tex_in" (.inr trivial)
  have hroom₄ : (r.1.tryConnect q.2 r.2 "tex_in").Room m := hwire.room (by rwa [Nat.zero_add])
  refine ⟨hroom₄, hwire.wired (houtput.wired (hinput.wired (hadd.wired hwired₀))),
    hwire.kept (Set.notMem_empty _) (houtput.kept (Set.notMem_empty _)
      (hinput.kept (Set.notMem_empty _) hroot)), ?_⟩
  rw [sequenceIds_of_behaviorOf (hroom₃.mono (Nat.zero_le m)).lt (hroom₄.mono (Nat.zero_le m)).lt
    fun x => behaviorOf_tryConnect q.2 r.2 "tex_in", hids₂, hids₁, hids]

end Oak.Interchange
