import Oak.Node.GraphRun
import Oak.Lib.Walk
import Mathlib.Data.List.Sort

/-!
# The evaluation engine

`oak-node/src/traverser.rs`: the table of a node at a time is computed from the tables of the
nodes that feed it, each at the time its consumer asks for. `walkDfs` does so with an explicit
stack and a memo; `evalRecursive` is the recursion that it stands for.

* `buildRow`, `pickValue` : the input row of a node, from a memo of its sources.
* `walkDfs`, `evaluate` : the walk; `fuel` bounds the number of its steps.
* `evalRecursive` : the table of a node from the tables of all its sources.

## Main results

* `evaluate_ends` : the evaluation of an acyclic graph ends.
* `evaluate_eq_iff` : the walk agrees with the recursion, and evaluates every source before its
  consumer, exactly from the roots that `Sequential` describes.
* `walk_skips_source` : it does not from every root.
-/

namespace Oak.Node

open Oak.Core Oak.Lib Relation

variable {F β : Type*} [Interpolate F] [NodeBehavior F β]

/-- A node at a time. -/
abbrev NodeTime := NodeId × Rational

/-- The tables that were evaluated. -/
abbrev Memo (F : Type*) := NodeTime → Option (NodeValueTable F)

/-- `RenderHooks`, as functions of their arguments; `isCancelled n` answers the `n`-th poll. -/
structure RenderHooks (F : Type*) where
  resolve : NodeId → NodeValueRow F → NodeValueTable F → NodeValueTable F
  isCancelled : ℕ → Bool

/-! ### Rows -/

section Row

omit [Interpolate F]

variable (entry : NodeEntry F β)

/-- The node behind a connection at render time. -/
def renderSource (source : NodeId) (input : String) (element : ℤ) : NodeId :=
  (NodeBehavior.connectedRenderOutput entry.behavior entry.core input element).getD source

/-- `adjusted_time`: the time at which the consumer reads an input. -/
def adjustedTime (input : String) (element : ℤ) (time : Rational) : Rational :=
  (NodeBehavior.inputTimeAdjustment entry.behavior entry.core input element
    (TimeRange.new time time) true).in_

/-- The table that a connection reads, and the time at which it reads it. -/
def upstream (time : Rational) (c : NodeId × String × ℤ) : NodeTime :=
  (renderSource entry c.1 c.2.1 c.2.2, adjustedTime entry c.2.1 c.2.2 time)

end Row

/-- The types that an input takes from a table, the preferred one first. -/
def pickOrder : List ValueType :=
  [.float, .int, .color, .vec2, .vec3, .vec4, .boolean, .rational, .text, .combo, .strCombo,
    .texture]

/-- `pick_value`. -/
def pickValue (table : NodeValueTable F) (dataType : Option ValueType) : NodeValue F :=
  if dataType = some .texture then (table.get .texture).getD .none
  else (pickOrder.findSome? table.get).getD .none

/-- The key of an input, or of one of its elements, in a row. -/
def rowKey (id : String) (element : ℤ) : String :=
  if 0 ≤ element then id ++ "[" ++ toString element ++ "]" else id

/-- The connections of an input that are read: of an array input the active elements, sorted. -/
def activeConnections (entry : NodeEntry F β) (id : String) (time : Rational)
    (conns : List (NodeId × ℤ)) : List (NodeId × ℤ) :=
  if conns.any fun c => 0 ≤ c.2 then
    let active := NodeBehavior.activeElementsAtTime entry.behavior id time
    let live := if active.isEmpty then conns else conns.filter fun c => active.contains c.2
    live.insertionSort fun a b => a.2 ≤ b.2
  else conns

/-- One input of `build_row`: the values of its connections, or its own value at the time. -/
def inputRow (g : Graph F β) (cache : Memo F) (entry : NodeEntry F β) (node : NodeId)
    (time : Rational) (row : NodeValueRow F) (input : Input F) : NodeValueRow F :=
  let conns := ((g.inputConnections node).filter fun c => c.2.1 = input.id).map
    fun c => (c.1, c.2.2)
  if conns.isEmpty then
    Function.update row input.id (some (entry.core.valueAtTime input.id (-1) time))
  else
    (activeConnections entry input.id time conns).foldl (fun row c =>
      let value := match cache (upstream entry time (c.1, input.id, c.2)) with
        | some table => pickValue table (entry.core.inputDataType input.id)
        | none => .none
      Function.update row (rowKey input.id c.2) (some value)) row

/-- `build_row`. -/
def buildRow (g : Graph F β) (cache : Memo F) (entry : NodeEntry F β) (node : NodeId)
    (time : Rational) : NodeValueRow F :=
  entry.core.inputs.foldl (inputRow g cache entry node time) fun _ => none

/-- The table of a node: its row, its value, and what the hooks make of it. -/
def evalNode (g : Graph F β) (hooks : RenderHooks F) (cache : Memo F) (entry : NodeEntry F β)
    (node : NodeId) (time : Rational) : NodeValueTable F :=
  let row := buildRow g cache entry node time
  hooks.resolve node row (NodeBehavior.value entry.behavior entry.core row time .empty)

/-! ### The walk -/

/-- One frame of `walk_dfs`. -/
def walkFrame (g : Graph F β) (hooks : RenderHooks F) (s : Walk NodeTime (NodeValueTable F)) :
    Walk NodeTime (NodeValueTable F) :=
  match s.stack with
  | [] => s
  | .enter (node, time) :: rest =>
    if (s.cache (node, time)).isSome then { s with stack := rest }
    else
      match g.get node with
      | none => { s with stack := rest }
      | some entry =>
        (g.inputConnections node).foldl (fun s c =>
          let key := upstream entry time c
          if (s.cache key).isNone ∧ key ∉ s.queued then
            { s with queued := key :: s.queued, stack := .enter key :: s.stack }
          else s) { s with stack := .exit (node, time) :: rest }
  | .exit (node, time) :: rest =>
    if (s.cache (node, time)).isSome then { s with stack := rest }
    else
      match g.get node with
      | none => { s with stack := rest }
      | some entry =>
        { s with
          cache := Function.update s.cache (node, time)
            (some (evalNode g hooks s.cache entry node time))
          stack := rest }

/-- `walk_dfs`; none when the fuel does not suffice. -/
def walkDfs (g : Graph F β) (hooks : RenderHooks F) :
    ℕ → ℕ → Walk NodeTime (NodeValueTable F) → Option (Except Error (Memo F))
  | 0, _, s => if s.stack.isEmpty then some (.ok s.cache) else none
  | fuel + 1, polls, s =>
    if s.stack.isEmpty then some (.ok s.cache)
    else if hooks.isCancelled polls then some (.error .state)
    else walkDfs g hooks fuel (polls + 1) (walkFrame g hooks s)

/-- `Traverser::evaluate`. -/
def evaluate (g : Graph F β) (hooks : RenderHooks F) (fuel : ℕ) (root : NodeId) (time : Rational) :
    Option (Except Error (NodeValueTable F)) :=
  if g.isValid root then
    (walkDfs g hooks fuel 0 (Recipe.begin (root, time))).map fun result =>
      result.map fun cache => (cache (root, time)).getD .empty
  else some (.error .notFound)

/-! ### The recursion -/

/-- What a node reads at a time. -/
def sources (g : Graph F β) (k : NodeTime) : Option (List NodeTime) :=
  (g.get k.1).map fun entry => (g.inputConnections k.1).map (upstream entry k.2)

/-- The table of a node from the tables of its sources, to a depth. -/
def evalDepth (g : Graph F β) (hooks : RenderHooks F) : ℕ → Memo F
  | 0, _ => none
  | depth + 1, k => (g.get k.1).map fun entry =>
    evalNode g hooks (evalDepth g hooks depth) entry k.1 k.2

/-- The recursive evaluation. No path through the graph is longer than the arena. -/
def evalRecursive (g : Graph F β) (hooks : RenderHooks F) (root : NodeId) (time : Rational) :
    Except Error (NodeValueTable F) :=
  if g.isValid root then
    .ok ((evalDepth g hooks (g.entries.length + 1) (root, time)).getD .empty)
  else .error .notFound

/-- `b` is read to evaluate `a`. -/
def Pulls (g : Graph F β) (a b : NodeId) : Prop :=
  ∃ entry, g.get a = some entry ∧ ∃ c ∈ g.inputConnections a,
    renderSource entry c.1 c.2.1 c.2.2 = b

/-! ### What a node reads -/

section Congr

variable {g : Graph F β} {hooks : RenderHooks F} {entry : NodeEntry F β} {node : NodeId}
  {time : Rational} {m m' : Memo F}

omit [Interpolate F] in
theorem mem_of_mem_activeConnections {id : String} {conns : List (NodeId × ℤ)} {c : NodeId × ℤ}
    (h : c ∈ activeConnections entry id time conns) : c ∈ conns := by
  rw [activeConnections] at h
  split_ifs at h
  · rw [List.mem_insertionSort] at h
    split_ifs at h
    · exact h
    · exact (List.mem_filter.1 h).1
  · exact h

section

variable (h : ∀ c ∈ g.inputConnections node, m (upstream entry time c) = m' (upstream entry time c))

include h

theorem inputRow_congr (row : NodeValueRow F) (input : Input F) :
    inputRow g m entry node time row input = inputRow g m' entry node time row input := by
  simp only [inputRow]
  split
  · rfl
  · refine List.foldl_ext _ _ _ fun row c hc => ?_
    have hmem : (c.1, input.id, c.2) ∈ g.inputConnections node := by
      obtain ⟨d, hd, rfl⟩ := List.mem_map.1 (mem_of_mem_activeConnections hc)
      obtain ⟨hd, hid⟩ := List.mem_filter.1 hd
      rw [← of_decide_eq_true hid]
      exact hd
    rw [h _ hmem]

theorem evalNode_congr :
    evalNode g hooks m entry node time = evalNode g hooks m' entry node time := by
  have hrow : buildRow g m entry node time = buildRow g m' entry node time :=
    List.foldl_ext _ _ _ fun row input _ => inputRow_congr h row input
  rw [evalNode, evalNode, hrow]

end

end Congr

/-! ### The walk as an evaluation with a stack -/

/-- How the tables of a graph are computed from each other. -/
def recipe (g : Graph F β) (hooks : RenderHooks F) : Recipe NodeTime (NodeValueTable F) where
  deps := sources g
  eval k cache := match g.get k.1 with
    | some entry => evalNode g hooks cache entry k.1 k.2
    | none => .empty
  reads k cs m m' hcs h := by
    obtain ⟨entry, hget, rfl⟩ := Option.map_eq_some_iff.1 hcs
    simp only [hget]
    exact evalNode_congr fun c hc => h _ (List.mem_map_of_mem hc)

variable {g : Graph F β} {hooks : RenderHooks F} (s : Walk NodeTime (NodeValueTable F))

omit [Interpolate F] [NodeBehavior F β] in
private theorem queue_eq (key : NodeTime) :
    (if (s.cache key).isNone ∧ key ∉ s.queued then
      { s with queued := key :: s.queued, stack := .enter key :: s.stack }
    else s) = Recipe.push s key := by
  rw [Recipe.push]
  split_ifs <;> rfl

theorem walkFrame_eq : walkFrame g hooks s = (recipe g hooks).step s := by
  rw [walkFrame, Recipe.step]
  rcases s.stack with _ | ⟨⟨node, time⟩ | ⟨node, time⟩, rest⟩
  · rfl
  · rcases hget : g.get node with _ | entry
    · simp only [recipe, sources, hget, Option.map_none]
    · simp only [recipe, sources, hget, Option.map_some, List.foldl_map, queue_eq]
  · rcases hget : g.get node with _ | entry
    · simp only [recipe, sources, hget, Option.map_none]
    · simp only [recipe, sources, hget, Option.map_some]

theorem evalDepth_eq (depth : ℕ) : evalDepth g hooks depth = (recipe g hooks).recur depth := by
  induction depth with
  | zero => rfl
  | succ depth ih =>
    funext k
    rw [evalDepth, Recipe.recur, ih]
    rcases hget : g.get k.1 with _ | entry
    · simp only [recipe, sources, hget, Option.map_none]
    · simp only [recipe, sources, hget, Option.map_some]

theorem walkDfs_eq (hcancel : ∀ n, hooks.isCancelled n = false) {fuel polls : ℕ}
    {s : Walk NodeTime (NodeValueTable F)} (h : ((recipe g hooks).step^[fuel] s).stack = []) :
    walkDfs g hooks fuel polls s = some (.ok ((recipe g hooks).step^[fuel] s).cache) := by
  induction fuel generalizing polls s with
  | zero =>
    rw [Function.iterate_zero_apply] at h ⊢
    rw [walkDfs, h]
    rfl
  | succ fuel ih =>
    rw [walkDfs]
    rcases hstack : s.stack with _ | ⟨frame, rest⟩
    · have hfixed : (recipe g hooks).step^[fuel + 1] s = s :=
        Function.iterate_fixed (Recipe.step_of_done hstack) _
      rw [hfixed]
      rfl
    · rw [hcancel, walkFrame_eq, ih h]
      rfl

/-! ### Agreement with the recursion -/

omit [Interpolate F] in
/-- The ranks of an acyclic graph, which its number of slots bounds. -/
theorem exists_rank (hacyclic : Acyclic (Pulls g)) : ∃ rank : NodeTime → ℕ,
    (∀ k, rank k < g.entries.length + 1) ∧
      ∀ k c cs, sources g k = some cs → c ∈ cs → rank c < rank k := by
  obtain ⟨rank, hrank, hle⟩ := hacyclic.exists_rank (l := g.nodeIds) fun a b hab => by
    obtain ⟨entry, hget, -⟩ := hab
    exact Graph.mem_nodeIds (Graph.isValid_of_get hget)
  have hlength := g.length_nodeIds_le
  refine ⟨fun k => rank k.1, fun k => ?_, fun k c cs hcs hc => ?_⟩
  · exact Nat.lt_succ_of_le ((hle k.1).trans hlength)
  · obtain ⟨entry, hget, rfl⟩ := Option.map_eq_some_iff.1 hcs
    obtain ⟨d, hd, rfl⟩ := List.mem_map.1 hc
    exact hrank _ _ ⟨entry, hget, d, hd, rfl⟩

omit [Interpolate F] in
/-- Without connections that are resolved elsewhere, what a node reads is what feeds it. -/
theorem acyclic_pulls (hfeeds : Acyclic (Feeds g.edges))
    (hrender : ∀ id entry input element, g.get id = some entry →
      NodeBehavior.connectedRenderOutput entry.behavior entry.core input element = none) :
    Acyclic (Pulls g) := by
  have hback : ∀ a b, Pulls g a b → Feeds g.edges b a := by
    rintro a b ⟨entry, hget, c, hc, rfl⟩
    obtain ⟨e, he, rfl⟩ := List.mem_map.1 hc
    obtain ⟨he, htarget⟩ := List.mem_filter.1 he
    rw [renderSource, hrender a entry _ _ hget, Option.getD_none]
    exact ⟨e, he, rfl, of_decide_eq_true htarget⟩
  intro a ha
  refine hfeeds a (transGen_swap.1 ?_)
  exact TransGen.mono hback _ _ ha

/-- The result of a walk does not depend on the fuel that is left. -/
theorem walkDfs_mono {fuel more polls : ℕ} {s : Walk NodeTime (NodeValueTable F)}
    {result : Except Error (Memo F)} (h : walkDfs g hooks fuel polls s = some result)
    (hle : fuel ≤ more) : walkDfs g hooks more polls s = some result := by
  induction fuel generalizing more polls s with
  | zero =>
    rw [walkDfs] at h
    split_ifs at h with hstack
    rcases more with _ | more
    · rw [walkDfs, if_pos hstack, h]
    · rw [walkDfs, if_pos hstack, h]
  | succ fuel ih =>
    obtain ⟨more, rfl⟩ : ∃ n, more = n + 1 := ⟨more - 1, by omega⟩
    rw [walkDfs] at h ⊢
    split_ifs at h ⊢ with hstack hcancel
    · exact h
    · exact h
    · exact ih h (by omega)

theorem evaluate_mono {fuel more : ℕ} {root : NodeId} {time : Rational}
    {result : Except Error (NodeValueTable F)} (h : evaluate g hooks fuel root time = some result)
    (hle : fuel ≤ more) : evaluate g hooks more root time = some result := by
  rw [evaluate] at h ⊢
  split_ifs at h ⊢ with hroot
  · obtain ⟨memo, hmemo, rfl⟩ := Option.map_eq_some_iff.1 h
    rw [walkDfs_mono hmemo hle, Option.map_some]
  · exact h

theorem walkDfs_isSome {fuel polls : ℕ} {s : Walk NodeTime (NodeValueTable F)}
    (h : ((recipe g hooks).step^[fuel] s).stack = []) :
    (walkDfs g hooks fuel polls s).isSome = true := by
  induction fuel generalizing polls s with
  | zero => simp [walkDfs, show s.stack = [] from h]
  | succ fuel ih =>
    rw [walkDfs]
    split_ifs
    · rfl
    · rfl
    · exact ih (walkFrame_eq (g := g) s ▸ h)

/-- Every evaluation of an acyclic graph ends with one result, whatever it meets and whenever it is
cancelled. -/
theorem evaluate_ends (hacyclic : Acyclic (Pulls g)) (hooks : RenderHooks F) (root : NodeId)
    (time : Rational) :
    ∃ n result, ∀ fuel ≥ n, evaluate g hooks fuel root time = some result := by
  obtain ⟨rank, -, hrank⟩ := exists_rank hacyclic
  obtain ⟨t, hstack, ⟨n, hn⟩, -⟩ : ∃ t : Walk _ _, t.stack = [] ∧
      (∃ n, ∀ m ≥ n, (recipe g hooks).step^[m] (Recipe.begin (root, time)) = t) ∧ _ :=
    Recipe.walk_ends fun k c ⟨cs, hcs, hc⟩ => hrank k c cs hcs hc
  have hends : (evaluate g hooks n root time).isSome = true := by
    rw [evaluate]
    split_ifs
    · rw [Option.isSome_map]
      exact walkDfs_isSome (by rw [hn n le_rfl]; exact hstack)
    · rfl
  obtain ⟨result, hresult⟩ := Option.isSome_iff_exists.1 hends
  exact ⟨n, result, fun fuel hfuel => evaluate_mono hresult hfuel⟩

/-- The walk ends with the table of the recursion, and no node is evaluated before one of the
nodes that it reads. -/
def MeetsRecursion (g : Graph F β) (hooks : RenderHooks F) (root : NodeId) (time : Rational) :
    Prop :=
  (∃ n, ∀ fuel ≥ n,
    evaluate g hooks fuel root time = some (evalRecursive g hooks root time)) ∧
  ∀ m, ¬ (recipe g hooks).Premature ((walkFrame g hooks)^[m] (Recipe.begin (root, time)))

/-- The walk meets the recursion exactly where a source of a node that a source listed after it
needs, is needed by a source that was listed later on the way to the node, too. -/
theorem evaluate_eq_iff (hacyclic : Acyclic (Pulls g)) (hcancel : ∀ n, hooks.isCancelled n = false)
    (root : NodeId) (time : Rational) :
    MeetsRecursion g hooks root time ↔ (recipe g hooks).Sequential (root, time) := by
  obtain ⟨rank, hlt, hrank⟩ := exists_rank hacyclic
  have hneeds : ∀ k c, (recipe g hooks).Needs k c → rank c < rank k :=
    fun k c ⟨cs, hcs, hc⟩ => hrank k c cs hcs hc
  have hstep : walkFrame g hooks = (recipe g hooks).step := funext walkFrame_eq
  rw [MeetsRecursion, hstep]
  constructor
  · rintro ⟨-, hall⟩
    exact Recipe.sequential_of_not_premature hneeds hall
  · intro hroot
    obtain ⟨hall, n, hn⟩ :=
      Recipe.walk_sequential hneeds (Recipe.isTable_recur hneeds hlt) hroot
    refine ⟨⟨n, fun fuel hfuel => ?_⟩, hall⟩
    obtain ⟨hstack, hcache⟩ := hn fuel hfuel
    rw [evaluate, evalRecursive]
    split_ifs
    · rw [walkDfs_eq hcancel hstack, evalDepth_eq, ← hcache]
      rfl
    · rfl

/-! ### A source that is read twice -/

/-- A node that emits a number, or what it reads. -/
inductive Relay where
  | number (x : ℚ)
  | input (id : String)

instance : NodeBehavior ℚ Relay where
  typeId _ := "org.olivevideoeditor.Olive.relay-test"
  duplicate b _ := some b
  activeElementsAtTime _ _ _ := []
  connectedRenderOutput _ _ _ _ := none
  inputTimeAdjustment _ _ _ _ range _ := range
  value b _ row _ table := match b with
    | .number x => table.push .float (.float x) none
    | .input id => table.push .float ((row id).getD .none) none

/-- Hooks that change nothing. -/
def RenderHooks.offline : RenderHooks ℚ := ⟨fun _ _ table => table, fun _ => false⟩

/-- A node with two inputs. -/
def twoInputs : NodeCore ℚ :=
  (NodeCore.new.addInput (.new "first" .float .none)).addInput (.new "second" .float .none)

/-- A number `(0, 0)`, a node `(1, 0)` that relays it, and a node `(2, 0)` that reads both and
relays the second. -/
def tapped : List (GraphAction ℚ Relay) :=
  [.addNode .new (.number 7), .addNode twoInputs (.input "first"),
    .addNode twoInputs (.input "second"), .connect ⟨0, 0⟩ ⟨1, 0⟩ "first" (-1),
    .connect ⟨0, 0⟩ ⟨2, 0⟩ "first" (-1), .connect ⟨1, 0⟩ ⟨2, 0⟩ "second" (-1)]

theorem acyclic_tapped : Acyclic (Pulls (run GraphRun.act GraphRun.start tapped).graph) := by
  have hi32 : IsI32 (-1) := ⟨by decide, by decide⟩
  have hpermitted : Permitted GraphRun.act GraphRun.InRange GraphRun.start tapped :=
    ⟨trivial, trivial, trivial, hi32, hi32, hi32, trivial⟩
  exact acyclic_pulls (GraphRun.sound_run hpermitted).edges.acyclic fun _ _ _ _ _ => rfl

theorem evaluate_ends_tapped : ∃ n result, ∀ fuel ≥ n,
    evaluate (run GraphRun.act GraphRun.start tapped).graph .offline fuel ⟨2, 0⟩ 0 = some result :=
  evaluate_ends acyclic_tapped .offline ⟨2, 0⟩ 0

theorem evaluate_eq_iff_tapped :
    MeetsRecursion (run GraphRun.act GraphRun.start tapped).graph .offline ⟨1, 0⟩ 0 ↔
      (recipe (run GraphRun.act GraphRun.start tapped).graph .offline).Sequential (⟨1, 0⟩, 0) :=
  evaluate_eq_iff acyclic_tapped (fun _ => rfl) ⟨1, 0⟩ 0

/-- The number is queued for the third node, so the second one is evaluated without it: the third
node relays nothing. -/
theorem walk_skips_source : ¬ ∀ (g : Graph ℚ Relay) (hooks : RenderHooks ℚ) (root : NodeId)
    (time : Rational), Acyclic (Pulls g) → (∀ n, hooks.isCancelled n = false) →
      MeetsRecursion g hooks root time := by
  intro hmeets
  obtain ⟨⟨n, hn⟩, -⟩ := hmeets (run GraphRun.act GraphRun.start tapped).graph .offline ⟨2, 0⟩ 0
    acyclic_tapped fun _ => rfl
  have hwalk : evaluate (run GraphRun.act GraphRun.start tapped).graph .offline 10 ⟨2, 0⟩ 0 =
      some (.ok ⟨[(.float, .none, none)]⟩) := by
    decide
  have hrecursion : evalRecursive (run GraphRun.act GraphRun.start tapped).graph .offline ⟨2, 0⟩ 0 =
      .ok ⟨[(.float, .float 7, none)]⟩ := by
    decide
  have hsame := (evaluate_mono hwalk (Nat.le_max_left 10 n)).symm.trans
    (hn _ (Nat.le_max_right 10 n))
  rw [hrecursion] at hsame
  simp at hsame

end Oak.Node
