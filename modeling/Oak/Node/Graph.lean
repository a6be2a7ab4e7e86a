import Oak.Node.Behavior
import Oak.Lib.OrdSet
import Oak.Lib.Reach

/-!
# The graph arena

`oak-node/src/graph.rs`: nodes live in the slots of an arena and are named by slot and generation;
edges are an ordered set; links are kept in the two nodes.

* `addNode`, `addEntry`, `takeNode` and `removeNode` change the slots.
* `connect`, `disconnect`, `disconnectInput`, `inputArrayInsert` and `inputArrayRemove` change the
  edges.
* `link` and `unlink` change the links.
* `copyNodeAndDependencyGraphMinusItems` copies a node with everything upstream of it.

A vacant slot is a slot without an entry. The free list holds its top first.
-/

namespace Oak.Node

open Oak.Core Oak.Lib

/-- The errors of `oak-node/src/error.rs` that the graph returns. -/
inductive Error where
  | invalid | state | notFound
  deriving DecidableEq, Repr

/-- `NodeEntry` of a live slot, or of a node that was taken out. -/
structure NodeEntry (F β : Type*) where
  core : NodeCore F
  behavior : β
  generation : ℕ

/-- The entry with its links changed. -/
def NodeEntry.withLinks {F β : Type*} (f : List NodeId → List NodeId) (entry : NodeEntry F β) :
    NodeEntry F β :=
  { entry with core := { entry.core with links := f entry.core.links } }

/-- An arena slot. -/
inductive Slot (F β : Type*) where
  | vacant (generation : ℕ)
  | live (entry : NodeEntry F β)

namespace Slot

variable {F β : Type*}

def generation : Slot F β → ℕ
  | .vacant g => g
  | .live entry => entry.generation

def isVacant : Slot F β → Bool
  | .vacant _ => true
  | .live _ => false

def occupant : Slot F β → Option (NodeEntry F β)
  | .vacant _ => none
  | .live entry => some entry

/-- Change the links of the occupant. -/
def mapLinks (f : List NodeId → List NodeId) : Slot F β → Slot F β
  | .vacant g => .vacant g
  | .live entry => .live (entry.withLinks f)

end Slot

/-- `Edge`: the output of `source` feeds an input of `target`. -/
structure Edge where
  source : NodeId
  target : NodeId
  inputKey : ℕ
  element : ℤ
  deriving DecidableEq, Repr

/-- The derived order: field by field. -/
instance : LinearOrder Edge :=
  LinearOrder.lift' (fun e => toLex (e.source, toLex (e.target, toLex (e.inputKey, e.element))))
    fun a b h => by
      obtain ⟨f, t, k, e⟩ := a
      obtain ⟨f', t', k', e'⟩ := b
      simpa using h

/-! ### Input keys -/

section Hash

/-- The four words of a SipHash state. -/
private abbrev SipState := UInt64 × UInt64 × UInt64 × UInt64

private def rotl (x b : UInt64) : UInt64 := (x <<< b) ||| (x >>> (64 - b))

private def sipRound : SipState → SipState
  | (v0, v1, v2, v3) =>
    let v0 := v0 + v1
    let v2 := v2 + v3
    let v1 := rotl v1 13 ^^^ v0
    let v3 := rotl v3 16 ^^^ v2
    let v0 := rotl v0 32
    let v2 := v2 + v1
    let v0 := v0 + v3
    let v1 := rotl v1 17 ^^^ v2
    let v3 := rotl v3 21 ^^^ v0
    let v2 := rotl v2 32
    (v0, v1, v2, v3)

private def sipWord : SipState → UInt64 → SipState
  | (v0, v1, v2, v3), m =>
    let (v0, v1, v2, v3) := sipRound (v0, v1, v2, v3 ^^^ m)
    (v0 ^^^ m, v1, v2, v3)

private def leWord (bytes : List UInt8) : UInt64 :=
  bytes.foldr (fun b acc => (acc <<< 8) ||| b.toUInt64) 0

private def sipBlocks : ℕ → List UInt8 → SipState → SipState
  | 0, _, v => v
  | n + 1, bytes, v => sipBlocks n (bytes.drop 8) (sipWord v (leWord (bytes.take 8)))

/-- SipHash-1-3 with zero keys, as `DefaultHasher::new` has them. -/
def sipHash13 (bytes : List UInt8) : UInt64 :=
  let v := sipBlocks (bytes.length / 8) bytes
    (0x736f6d6570736575, 0x646f72616e646f6d, 0x6c7967656e657261, 0x7465646279746573)
  let tail := leWord (bytes.drop (bytes.length / 8 * 8)) ||| (bytes.length.toUInt64 <<< 56)
  let (v0, v1, v2, v3) := sipWord v tail
  let (v0, v1, v2, v3) := sipRound (sipRound (sipRound (v0, v1, v2 ^^^ 0xff, v3)))
  v0 ^^^ v1 ^^^ v2 ^^^ v3

/-- `hash_str`: a string hashes as its bytes and a terminator. -/
def hashStr (input : String) : ℕ :=
  (sipHash13 (input.toList.flatMap String.utf8EncodeChar ++ [0xff])).toNat

end Hash

/-- `Graph`. -/
structure Graph (F β : Type*) where
  entries : List (Slot F β)
  freeList : List ℕ
  edges : OrdSet Edge
  /-- The input ids behind the keys of edges. -/
  inputNames : ℕ → Option String

namespace Graph

variable {F β : Type*}

/-- `Graph::new`. -/
def new : Graph F β := ⟨[], [], ∅, fun _ => none⟩

/-! ### Slots -/

variable (g : Graph F β)

/-- The slot at `i`; the source panics past the end. -/
def slot (i : ℕ) : Slot F β := g.entries.getD i (.vacant 0)

variable (id : NodeId)

/-- `get`: the entry of a live node. -/
def get : Option (NodeEntry F β) :=
  if id.valid then
    match g.entries[id.index]? with
    | some (.live entry) => if entry.generation = id.generation then some entry else none
    | _ => none
  else none

/-- `is_valid`: `id` names a live slot. -/
def isValid : Bool := (g.get id).isSome

/-- `node_count`. -/
def nodeCount : ℕ := g.entries.length - g.freeList.length

/-- `node_ids`: the live nodes in slot order. -/
def nodeIds : List NodeId :=
  g.entries.zipIdx.filterMap fun s =>
    Option.map (fun entry => ⟨s.2 % u32Size, entry.generation⟩) s.1.occupant

/-- A node put into a slot of its own: the top of the free list with the next generation, or a new
slot. -/
def allocate (core : NodeCore F) (behavior : β) : Graph F β × NodeId :=
  match g.freeList with
  | i :: rest =>
    let generation := ((g.slot i).generation + 1) % u32Size
    ({ g with
        entries := g.entries.set i (.live ⟨core, behavior, generation⟩)
        freeList := rest }, ⟨i, generation⟩)
  | [] =>
    ({ g with entries := g.entries ++ [.live ⟨core, behavior, 0⟩] },
      ⟨g.entries.length % u32Size, 0⟩)

/-- `add_node`. -/
def addNode (core : NodeCore F) (behavior : β) : Graph F β × NodeId :=
  g.allocate core behavior

variable (entry : NodeEntry F β)

/-- `add_entry`: a node that was taken out goes back into its slot, with its generation, when the
slot is vacant, and into a slot of its own otherwise. -/
def addEntry (id : NodeId) : Graph F β × NodeId :=
  match g.entries[id.index]? with
  | some (.vacant _) =>
    ({ g with
        entries := g.entries.set id.index (.live entry)
        freeList := g.freeList.filter fun i => i ≠ id.index }, ⟨id.index, entry.generation⟩)
  | _ => g.allocate entry.core entry.behavior

/-- `drop_edges_touching`. -/
def dropEdgesTouching : Graph F β :=
  { g with edges := g.edges.filter fun e => !(e.source = id || e.target = id) }

/-- Change the links of a node, if it is live. -/
def modifyLinks (f : List NodeId → List NodeId) (id : NodeId) : Graph F β :=
  if g.isValid id then
    { g with entries := g.entries.set id.index ((g.slot id.index).mapLinks f) }
  else g

/-- `take_node`: take a node out, with its edges and the links of its partners to it. -/
def takeNode : Option (Graph F β × NodeEntry F β) :=
  match g.get id with
  | none => none
  | some entry =>
    let cut := { g with
      entries := g.entries.set id.index (.vacant entry.generation)
      freeList := id.index :: g.freeList }
    let dropped := cut.dropEdgesTouching id
    some (entry.core.links.foldl
      (fun h partner => h.modifyLinks (fun ls => ls.filter fun l => l ≠ id) partner) dropped, entry)

/-! ### Endpoints -/

section Behavior

variable [NodeBehavior F β]

/-- The type ids of the virtual endpoints. -/
def graphInputTypeId : String := "org.olivevideoeditor.Olive.graphinput"

def graphOutputTypeId : String := "org.olivevideoeditor.Olive.graphoutput"

/-- `is_endpoint`. -/
def isEndpoint : Bool :=
  match g.get id with
  | some entry =>
    NodeBehavior.typeId entry.behavior = graphInputTypeId ||
      NodeBehavior.typeId entry.behavior = graphOutputTypeId
  | none => false

/-- `remove_node`: refused for the endpoints. -/
def removeNode : Option (Graph F β × β) :=
  if g.isEndpoint id then none
  else (g.takeNode id).map fun t => (t.1, t.2.behavior)

end Behavior

/-! ### Edges -/

/-- `connected_output`: the node that feeds an input. -/
def connectedOutput (target : NodeId) (input : String) (element : ℤ) : Option NodeId :=
  (g.edges.toList.find? fun e =>
    e.target = target && e.inputKey = hashStr input && e.element = element).map Edge.source

/-- The input id behind the key of an edge. -/
def inputName (key : ℕ) : String := (g.inputNames key).getD ""

/-- `input_connections`: the edges into a node, as source, input id and element. -/
def inputConnections : List (NodeId × String × ℤ) :=
  (g.edges.toList.filter fun e => e.target = id).map fun e =>
    (e.source, g.inputName e.inputKey, e.element)

/-- `output_connections`: the edges out of a node, as target, input id and element. -/
def outputConnections : List (NodeId × String × ℤ) :=
  (g.edges.toList.filter fun e => e.source = id).map fun e =>
    (e.target, g.inputName e.inputKey, e.element)

/-- `output_connections_all`. -/
def outputConnectionsAll : List (NodeId × NodeId × String × ℤ) :=
  g.edges.toList.map fun e => (e.source, e.target, g.inputName e.inputKey, e.element)

variable (source target : NodeId)

/-- `reaches`: depth-first search along the edges. -/
def reaches : Bool :=
  search Edge.source Edge.target g.edges.toList target (g.edges.toList.length + 2) [source] []

variable (input : String)

/-- `intern_input`. -/
def internInput : Graph F β :=
  match g.inputNames (hashStr input) with
  | some _ => g
  | none => { g with inputNames := Function.update g.inputNames (hashStr input) (some input) }

/-- `connect`. -/
def connect (element : ℤ) : Except Error (Graph F β) :=
  match g.get source, g.get target with
  | some _, some entry =>
    match entry.core.getInput input with
    | none => .error .notFound
    | some i =>
      if i.isConnectable = false then .error .invalid
      -- array inputs take any element, scalar inputs only -1
      else if i.isArray = false && element ≠ -1 then .error .invalid
      else if source = target then .error .state
      else if (g.connectedOutput target input element).isSome then .error .state
      else if g.reaches target source then .error .state
      else
        .ok { g.internInput input with
          edges := g.edges.insert ⟨source, target, hashStr input, element⟩ }
  | _, _ => .error .notFound

/-- `disconnect`. -/
def disconnect (element : ℤ) : Graph F β :=
  { g with edges := g.edges.erase ⟨source, target, hashStr input, element⟩ }

/-- `disconnect_input`: remove the edge that feeds an input. -/
def disconnectInput (target : NodeId) (input : String) (element : ℤ) : Graph F β × Option NodeId :=
  match g.connectedOutput target input element with
  | none => (g, none)
  | some source => (g.disconnect source target input element, some source)

/-- Change the core of the occupant of a node's slot. -/
def setCore (core : NodeCore F) : Graph F β :=
  { g with entries := g.entries.set id.index (.live { entry with core := core }) }

/-- The edges into the elements of an input from `index` on. -/
def elementsFrom (index : ℤ) : List Edge :=
  g.edges.toList.filter fun e => e.target = id && e.inputKey = hashStr input && index ≤ e.element

/-- Replace every one of the edges `moves` by what `f` makes of it, one after the other. -/
def moveEdges (f : Edge → Option Edge) (moves : List Edge) (edges : OrdSet Edge) : OrdSet Edge :=
  moves.foldl (fun es e =>
    match f e with
    | none => es.erase e
    | some shifted => (es.erase e).insert shifted) edges

/-- `input_array_insert`. -/
def inputArrayInsert (g : Graph F β) (id : NodeId) (input : String) (index : ℤ) :
    Except Error (Graph F β) :=
  match g.get id with
  | none => .error .notFound
  | some entry =>
    match entry.core.getInput input with
    | none => .error .notFound
    | some i =>
      if i.isArray = false then .error .invalid
      else if index < 0 || toI32 i.arraySize < index then .error .invalid
      else
        .ok { g.setCore id entry (entry.core.inputArrayInsert input index.toNat) with
          edges := moveEdges (fun e => some { e with element := toI32 (e.element + 1) })
            (g.elementsFrom id input index) g.edges }

/-- `input_array_remove`. -/
def inputArrayRemove (g : Graph F β) (id : NodeId) (input : String) (index : ℤ) :
    Except Error (Graph F β) :=
  match g.get id with
  | none => .error .notFound
  | some entry =>
    match entry.core.getInput input with
    | none => .error .notFound
    | some i =>
      if i.isArray = false then .error .invalid
      else if index < 0 || toI32 i.arraySize ≤ index then .error .invalid
      else
        .ok { g.setCore id entry (entry.core.inputArrayRemove input index.toNat) with
          edges := moveEdges
            (fun e => if index < e.element then some { e with element := toI32 (e.element - 1) }
              else none)
            (g.elementsFrom id input index) g.edges }

/-! ### Links -/

/-- The links of a node. -/
def linksOf : List NodeId :=
  ((g.get id).map fun entry => entry.core.links).getD []

variable (a b : NodeId)

/-- `are_linked`: in either direction. -/
def areLinked : Bool :=
  (g.linksOf a).contains b || (g.linksOf b).contains a

/-- Change the links of two slots: both occupants are moved out, behind vacant placeholders,
changed, and moved back. -/
def editPair (f h : List NodeId → List NodeId) : Graph F β :=
  let aEntry := g.slot a.index
  let without := { g with entries := g.entries.set a.index (.vacant aEntry.generation) }
  let bEntry := without.slot b.index
  let neither := { without with
    entries := without.entries.set b.index (.vacant (g.slot b.index).generation) }
  { neither with
    entries := (neither.entries.set a.index (aEntry.mapLinks f)).set b.index (bEntry.mapLinks h) }

/-- `link`: in both directions; only the missing direction is added. -/
def link : Graph F β × Bool :=
  if a = b || !g.isValid a || !g.isValid b then (g, false)
  else
    let aHas := (g.linksOf a).contains b
    let bHas := (g.linksOf b).contains a
    if aHas && bHas then (g, false)
    else
      (g.editPair a b (fun ls => if aHas then ls else ls ++ [b])
        (fun ls => if bHas then ls else ls ++ [a]), true)

/-- `unlink`. -/
def unlink : Graph F β × Bool :=
  if g.areLinked a b then
    (g.editPair a b (fun ls => ls.filter fun n => n ≠ b) (fun ls => ls.filter fun n => n ≠ a), true)
  else (g, false)

/-! ### Copies -/

section Copy

variable [NodeBehavior F β]

/-- The state of a copy: the graph, and the copies of the nodes met so far. -/
structure CopyState (F β : Type*) where
  graph : Graph F β
  created : NodeId → Option NodeId

/-- Copy the edges into a node, after the node each comes from; `false` when one of these cannot
be copied. -/
def copyInputs (copySource : NodeId → CopyState F β → Option NodeId × CopyState F β)
    (copy : NodeId) : List (NodeId × String × ℤ) → CopyState F β → Bool × CopyState F β
  | [], s => (true, s)
  | (source, input, element) :: rest, s =>
    match copySource source s with
    | (none, s) => (false, s)
    | (some sourceCopy, s) =>
      match s.graph.connect sourceCopy copy input element with
      | .ok g => copyInputs copySource copy rest { s with graph := g }
      | .error _ => copyInputs copySource copy rest s

/-- `copy_dependency_graph_internal`; `fuel` bounds the depth of the recursion. -/
def copyDependencyGraph : ℕ → NodeId → CopyState F β → Option NodeId × CopyState F β
  | 0, _, s => (none, s)
  | fuel + 1, node, s =>
    match s.created node with
    | some existing => (some existing, s)
    | none =>
      match s.graph.get node with
      | none => (none, s)
      | some entry =>
        match NodeBehavior.duplicate entry.behavior entry.core with
        | none => (none, s)
        | some behavior =>
          if entry.core.flags &&& NodeFlags.isItem ≠ 0 then
            (some node, { s with created := Function.update s.created node (some node) })
          else
            let core := { entry.core with
              links := []
              contextPositions := entry.core.contextPositions.map fun p =>
                ((s.created p.1).getD p.1, p.2) }
            let added := s.graph.addNode core behavior
            let s' : CopyState F β :=
              ⟨added.1, Function.update s.created node (some added.2)⟩
            match copyInputs (copyDependencyGraph fuel) added.2 (added.1.inputConnections node)
                s' with
            | (true, s) => (some added.2, s)
            | (false, s) => (none, s)

/-- `copy_node_and_dependency_graph_minus_items`: the copy of `root` with everything upstream of
it, except for the items, which are shared. -/
def copyNodeAndDependencyGraphMinusItems (root : NodeId) : Option NodeId × CopyState F β :=
  copyDependencyGraph (g.entries.length + 1) root ⟨g, fun _ => none⟩

end Copy

end Graph

end Oak.Node
