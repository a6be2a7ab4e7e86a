import Oak.Node.Project

/-!
# The copy of a dependency graph

What `copy_node_and_dependency_graph_minus_items` of `oak-node/src/graph.rs` makes of the values,
the edges and the context positions of the nodes it copies. A context is looked up among the copies
made so far when the node that is shown in it is copied, so that the order of the copies matters.

* `visit` is the order in which the nodes are met, depth first, and `before` what comes before a
  node in it.
* `Tracing g s vs`: where the nodes and edges of a state come from when `vs` were met.
* `CopiedWhole` says what a copy is for, and `CopiesWell` when it is that.

## Main results

* `connect_isOk_iff`: what `connect` refuses.
* `Tracing.connect`: the edges into a copy.
* `step_copyDependencyGraph`: the recursion, by induction on its depth.
* `copyKept_iff`: when exactly a copy is the whole dependency graph, or leaves the graph alone.
-/

namespace Oak.Node.Graph

open Oak.Lib Relation

variable {F β : Type*} {g g' : Graph F β} {carried : List (NodeId × NodeId)}

/-! ### The order of the copies -/

/-- The nodes in the order in which they are met from `n` on, behind those of `vs`. -/
def visit (g : Graph F β) : ℕ → NodeId → List NodeId → List NodeId
  | 0, _, vs => vs
  | fuel + 1, n, vs =>
    if n ∈ vs then vs
    else
      match g.get n with
      | none => vs
      | some entry =>
        if entry.core.flags &&& NodeFlags.isItem ≠ 0 then vs ++ [n]
        else (g.edgesInto n).foldl (fun vs e => visit g fuel e.source vs) (vs ++ [n])

/-- The order in which the copy of `root` meets the nodes. -/
def copyOrder (g : Graph F β) (root : NodeId) : List NodeId :=
  g.visit (g.entries.length + 1) root []

/-- What comes before `n`. -/
def before (vs : List NodeId) (n : NodeId) : List NodeId := vs.takeWhile fun x => x ≠ n

theorem before_append_of_mem {vs : List NodeId} {n : NodeId} (h : n ∈ vs) (ws : List NodeId) :
    before (vs ++ ws) n = before vs n := by
  induction vs with
  | nil => exact absurd h List.not_mem_nil
  | cons v vs ih =>
    rw [before, before, List.cons_append, List.takeWhile_cons, List.takeWhile_cons]
    by_cases hv : v = n
    · simp [hv]
    · have hmem : n ∈ vs := (List.mem_cons.1 h).resolve_left (Ne.symm hv)
      simp only [hv, ne_eq, not_false_eq_true, decide_true, if_true]
      exact congrArg (List.cons v) (ih hmem)

theorem before_concat {vs : List NodeId} {n : NodeId} (h : n ∉ vs) :
    before (vs ++ [n]) n = vs := by
  rw [before, List.takeWhile_append_of_pos fun x hx => ?_]
  · simp
  · simpa using fun heq : x = n => h (heq ▸ hx)

theorem mem_of_mem_before {vs : List NodeId} {n x : NodeId} (h : x ∈ before vs n) : x ∈ vs :=
  (List.takeWhile_prefix _).subset h

/-! ### Edges that fit their input -/

/-- An edge goes into an input that its target has, that can be connected, and that takes the
element. -/
def Fits (g : Graph F β) (e : Edge) : Prop :=
  ∃ entry i, g.get e.target = some entry ∧
    entry.core.getInput (g.inputName e.inputKey) = some i ∧ i.isConnectable = true ∧
      (i.isArray = true ∨ e.element = -1)

variable {input : String} {element : ℤ}

theorem inputNames_connect {source target : NodeId}
    (h : g.connect source target input element = .ok g') (key : ℕ) :
    g'.inputNames key = if key = hashStr input then some ((g.inputNames key).getD input)
      else g.inputNames key := by
  obtain ⟨-, -, -, -, -, -, -, -, -, -, rfl⟩ := connect_cases h
  exact inputNames_internInput input key

theorem Interned.hashStr_inputName (h : g.Interned) {e : Edge} (he : e ∈ g.edges) :
    hashStr (g.inputName e.inputKey) = e.inputKey := by
  obtain ⟨name, hname⟩ := Option.isSome_iff_exists.1 (h.edges e he)
  rw [inputName, hname, Option.getD_some, h.hash _ name hname]

theorem connect_eq_ok {source target : NodeId} {es et : NodeEntry F β} {i : Input F}
    (hs : g.get source = some es) (ht : g.get target = some et)
    (hi : et.core.getInput input = some i) (hconnectable : i.isConnectable = true)
    (helement : i.isArray = true ∨ element = -1) (hne : source ≠ target)
    (hfree : g.connectedOutput target input element = none)
    (hreach : ¬ ReflTransGen (Feeds g.edges) target source) :
    ∃ g', g.connect source target input element = .ok g' := by
  have hsearch : g.reaches target source = false := by
    rw [← Bool.not_eq_true]
    exact fun h => hreach ((search_eq_true_iff (by omega)).1 h)
  have harray : (i.isArray = false && element ≠ -1) = false := by
    rcases helement with h | h <;> simp [h]
  simp only [connect, hs, ht, hi, hconnectable, harray, hne, hfree, hsearch, Option.isSome_none,
    Bool.true_eq_false, Bool.false_eq_true, if_false]
  exact ⟨_, rfl⟩

theorem fits_of_connect {source target : NodeId}
    (h : g.connect source target input element = .ok g') :
    ∃ entry i, g.get target = some entry ∧ entry.core.getInput input = some i ∧
      i.isConnectable = true ∧ (i.isArray = true ∨ element = -1) := by
  obtain ⟨-, et, i, -, ht, hi, hconnectable, harray, -⟩ := connect_cases h
  exact ⟨et, i, ht, hi, hconnectable, harray⟩

/-- `connect` refuses only stale nodes, inputs that do not fit or are taken, and edges that close a
cycle; `disconnect` takes the edge back. -/
theorem connect_isOk_iff (g : Graph F β) (source target : NodeId) (input : String) (element : ℤ) :
    ((∃ g', g.connect source target input element = .ok g') ↔
      g.isValid source = true ∧
        (∃ entry i, g.get target = some entry ∧ entry.core.getInput input = some i ∧
          i.isConnectable = true ∧ (i.isArray = true ∨ element = -1)) ∧
        g.connectedOutput target input element = none ∧
        ¬ ReflTransGen (Feeds g.edges) target source) ∧
      ∀ g', g.connect source target input element = .ok g' →
        (g'.disconnect source target input element).edges = g.edges := by
  refine ⟨⟨?_, ?_⟩, fun g' h => ?_⟩
  · rintro ⟨g', h⟩
    obtain ⟨es, et, i, hs, -, -, -, -, hfree, hreaches, -⟩ := connect_cases h
    refine ⟨isValid_of_get hs, fits_of_connect h, hfree, fun hpath => ?_⟩
    exact Bool.eq_false_iff.1 hreaches ((search_eq_true_iff (by omega)).2 hpath)
  · rintro ⟨hvalid, ⟨et, i, ht, hi, hconnectable, harray⟩, hfree, hpath⟩
    obtain ⟨es, hs⟩ := isValid_iff.1 hvalid
    exact connect_eq_ok hs ht hi hconnectable harray (fun heq => hpath (heq ▸ .refl)) hfree hpath
  · obtain ⟨-, -, -, -, -, -, -, -, hfree, -, rfl⟩ := connect_cases h
    rw [connectedOutput, Option.map_eq_none_iff, List.find?_eq_none] at hfree
    refine OrdSet.ext_mem fun e => ?_
    simp only [disconnect, OrdSet.mem_erase, OrdSet.mem_insert]
    refine ⟨fun he => he.1.resolve_left he.2, fun he => ⟨.inr he, ?_⟩⟩
    rintro rfl
    simpa using hfree _ he

/-! ### Where the parts of a state come from -/

variable [NodeBehavior F β] {s s' s'' : CopyState F β} {vs vs' vs'' : List NodeId}

/-- The core of a copy, when the nodes of `before` have their copies. -/
def copyCore (before : List NodeId) (created : NodeId → Option NodeId) (core : NodeCore F) :
    NodeCore F :=
  { core with
    links := []
    contextPositions := core.contextPositions.map fun p =>
      (if p.1 ∈ before then (created p.1).getD p.1 else p.1, p.2) }

/-- Where the nodes and edges of a state come from, when the nodes `vs` were met. -/
structure Tracing (g : Graph F β) (s : CopyState F β) (vs : List NodeId) : Prop where
  visited : ∀ n, (s.created n).isSome = true ↔ n ∈ vs
  injective : ∀ n n' m, s.created n = some m → s.created n' = some m → n = n'
  nodes : ∀ m e, s.graph.get m = some e → g.get m = some e ∨ ∃ n, s.created n = some m
  edges : ∀ e ∈ s.graph.edges, e ∈ g.edges ∨ g.get e.target = none ∧ ∃ e₀ ∈ g.edges, g.Fits e₀ ∧
    s.created e₀.source = some e.source ∧ s.created e₀.target = some e.target ∧
      e.inputKey = e₀.inputKey ∧ e.element = e₀.element
  names : ∀ key name, g.inputNames key = some name → s.graph.inputNames key = some name
  core : ∀ n m entry, s.created n = some m → g.get m = none → g.get n = some entry →
    entry.core.flags &&& NodeFlags.isItem = 0 ∧ ∃ copy, s.graph.get m = some copy ∧
      NodeBehavior.duplicate entry.behavior entry.core = some copy.behavior ∧
      copy.core = copyCore (before vs n) s.created entry.core

/-- The edges into a node that fit have their copies. -/
def Joined (g : Graph F β) (s : CopyState F β) (n : NodeId) : Prop :=
  ∀ m, s.created n = some m → g.get m = none → ∀ e ∈ g.edgesInto n, g.Fits e →
    ∃ source, s.created e.source = some source ∧
      ⟨source, m, e.inputKey, e.element⟩ ∈ s.graph.edges

theorem tracing_start (g : Graph F β) : Tracing g ⟨g, fun _ => none⟩ [] where
  visited n := by simp
  injective n n' m h := nomatch h
  nodes m e h := .inl h
  edges e h := .inl h
  names key name h := h
  core n m entry h := nomatch h

variable {entry : NodeEntry F β}

namespace Tracing

theorem created_eq_none (h : Tracing g s vs) {n : NodeId} (hn : n ∉ vs) : s.created n = none := by
  rw [← Option.not_isSome_iff_eq_none, h.visited]
  exact hn

/-- One more node is met: `m` is its copy, or the node itself. -/
theorem extend (h : Tracing g s vs) {node m : NodeId} (hnode : node ∉ vs)
    (hunused : ∀ n, s.created n ≠ some m) {graph : Graph F β}
    (hkept : ∀ x e, s.graph.get x = some e → graph.get x = some e)
    (hnew : ∀ x e, graph.get x = some e → s.graph.get x = some e ∨ x = m)
    (hedges : graph.edges = s.graph.edges) (hnames : graph.inputNames = s.graph.inputNames)
    (hcore : g.get m = none → ∀ entry, g.get node = some entry →
      entry.core.flags &&& NodeFlags.isItem = 0 ∧ ∃ copy, graph.get m = some copy ∧
        NodeBehavior.duplicate entry.behavior entry.core = some copy.behavior ∧
        copy.core = copyCore vs s.created entry.core) :
    Tracing g ⟨graph, Function.update s.created node (some m)⟩ (vs ++ [node]) := by
  have hcreated (n : NodeId) : Function.update s.created node (some m) n =
      if n = node then some m else s.created n := Function.update_apply _ _ _ _
  have hold (n k : NodeId) (hn : s.created n = some k) : n ≠ node :=
    ne_of_found hn (h.created_eq_none hnode)
  have hgrown (n k : NodeId) (hn : s.created n = some k) :
      Function.update s.created node (some m) n = some k := by
    rw [hcreated, if_neg (hold n k hn), hn]
  -- the copies of the nodes in `vs` are the same
  have hsame (ws : List NodeId) (hws : ws ⊆ vs) (core : NodeCore F) :
      copyCore ws (Function.update s.created node (some m)) core = copyCore ws s.created core := by
    rw [copyCore, copyCore]
    congr 1
    refine List.map_congr_left fun p _ => ?_
    split_ifs with hp
    · rw [hcreated, if_neg fun heq : p.1 = node => hnode (heq ▸ hws hp)]
    · rfl
  refine ⟨fun n => ?_, fun n n' k hn hn' => ?_, fun x e hx => ?_, fun e he => ?_,
    fun key name => ?_, fun n k entry hn hk hentry => ?_⟩
  · dsimp only
    rw [hcreated, List.mem_append, List.mem_singleton, ← h.visited]
    split_ifs with heq <;> simp [heq]
  · dsimp only at hn hn'
    rw [hcreated] at hn hn'
    split_ifs at hn hn' with heq heq' heq'
    · exact heq.trans heq'.symm
    · exact absurd (hn ▸ hn') (hunused n')
    · exact absurd (hn' ▸ hn) (hunused n)
    · exact h.injective n n' k hn hn'
  · rcases hnew x e hx with hx | rfl
    · exact (h.nodes x e hx).imp_right fun ⟨n, hn⟩ => ⟨n, hgrown n x hn⟩
    · exact .inr ⟨node, (hcreated node).trans (if_pos rfl)⟩
  · dsimp only at he
    rw [hedges] at he
    refine (h.edges e he).imp_right ?_
    rintro ⟨htarget, e₀, he₀, hfits, hs, ht, hrest⟩
    exact ⟨htarget, e₀, he₀, hfits, hgrown _ _ hs, hgrown _ _ ht, hrest⟩
  · dsimp only
    rw [hnames]
    exact h.names key name
  · dsimp only at hn ⊢
    rw [hcreated] at hn
    split_ifs at hn with heq
    · obtain rfl := Option.some.inj hn
      subst heq
      rw [before_concat hnode, hsame vs (List.Subset.refl vs)]
      exact hcore hk entry hentry
    · have hmem : n ∈ vs := (h.visited n).1 (by rw [hn, Option.isSome_some])
      obtain ⟨hitem, copy, hcopy, hduplicate, hcopied⟩ := h.core n k entry hn hk hentry
      rw [before_append_of_mem hmem, hsame _ fun x hx => mem_of_mem_before hx]
      exact ⟨hitem, copy, hkept k copy hcopy, hduplicate, hcopied⟩

section

variable (h : Tracing g s vs) (hcopying : Copying g carried s) {node : NodeId}
  (hget : g.get node = some entry) (hnode : node ∉ vs)

include h hcopying hget hnode

theorem item :
    Tracing g { s with created := Function.update s.created node (some node) } (vs ++ [node]) := by
  refine h.extend hnode (fun n hn => ?_) (fun x e hx => hx) (fun x e hx => .inl hx) rfl rfl
    fun hnone => absurd (hnone.symm.trans hget) (by simp)
  rcases hcopying.created n node hn with ⟨rfl, -⟩ | ⟨hnone, -⟩
  · rw [h.created_eq_none hnode] at hn
    exact absurd hn (by simp)
  · exact absurd (hnone.symm.trans hget) (by simp)

theorem add (hitem : entry.core.flags &&& NodeFlags.isItem = 0) {behavior : β}
    (hduplicate : NodeBehavior.duplicate entry.behavior entry.core = some behavior)
    {core : NodeCore F} (hcore : core = copyCore vs s.created entry.core) :
    Tracing g ⟨(s.graph.addNode core behavior).1,
      Function.update s.created node (some (s.graph.addNode core behavior).2)⟩ (vs ++ [node]) := by
  have hvacant := hcopying.sound.freeVacant
  have hslot := hcopying.hasSlot (isValid_of_get hget) (h.created_eq_none hnode)
  have hfresh := get_allocate_fresh hvacant hslot core behavior
  refine h.extend hnode (fun n hn => ?_)
    (fun x e hx => get_allocate_of_get hvacant hx core behavior) (fun x e hx => ?_)
    (edges_allocate core behavior) ?_ fun _ entry' hget' => ?_
  · rcases hcopying.created n _ hn with ⟨heq, e, he, -⟩ | ⟨-, -, e, -, he, -⟩
    · rw [← heq] at he
      exact absurd (hfresh.symm.trans (hcopying.get _ e he)) (by simp)
    · exact absurd (hfresh.symm.trans he) (by simp)
  · exact (get_allocate_cases hx).imp_right fun hnew => hnew.1
  · rw [addNode, allocate]
    split <;> rfl
  · obtain rfl := Option.some.inj (hget.symm.trans hget')
    obtain ⟨generation, hself⟩ := get_allocate_self hvacant hslot core behavior
    exact ⟨hitem, _, hself, hduplicate, hcore⟩

end

variable {n copy source : NodeId} {e : Edge}

/-- What a copy reaches are copies of what its node reaches. -/
theorem reaches (h : Tracing g s vs) (hg : g.Sound carried) (hcopy : s.created n = some copy)
    (hfresh : g.get copy = none) {y : NodeId} (hpath : ReflTransGen (Feeds s.graph.edges) copy y) :
    ∃ z, s.created z = some y ∧ g.get y = none ∧ ReflTransGen (Feeds g.edges) n z := by
  induction hpath with
  | refl => exact ⟨n, hcopy, hfresh, .refl⟩
  | tail _ hstep ih =>
    obtain ⟨z, hz, hy, hreach⟩ := ih
    obtain ⟨e, he, rfl, rfl⟩ := hstep
    rcases h.edges e he with hold | ⟨htarget, e₀, he₀, -, hs, ht, -⟩
    · obtain ⟨d, hd⟩ := isValid_iff.1 (hg.edges.ends e hold).1
      exact absurd (hy.symm.trans hd) (by simp)
    · obtain rfl := h.injective _ _ _ hz hs
      exact ⟨e₀.target, ht, htarget, hreach.tail ⟨e₀, he₀, rfl, rfl⟩⟩

theorem getInput_copy (h : Tracing g s vs) (hcopy : s.created n = some copy)
    (hfresh : g.get copy = none) (hget : g.get n = some entry) :
    ∃ d, s.graph.get copy = some d ∧
      ∀ input, d.core.getInput input = entry.core.getInput input := by
  obtain ⟨-, d, hd, -, hcore⟩ := h.core n copy entry hcopy hfresh hget
  exact ⟨d, hd, fun input => by rw [hcore]; rfl⟩

/-- An edge into a copy is made when it fits, unless it is there already. -/
theorem mem_edges_of_error (h : Tracing g s vs) (hcopying : Copying g carried s)
    (hg : g.Sound carried) (hinterned : g.Interned) (he : e ∈ g.edgesInto n)
    (hcopy : s.created n = some copy) (hfresh : g.get copy = none)
    (hsource : s.created e.source = some source) (hfits : g.Fits e) {error : Error}
    (hconnect : s.graph.connect source copy (g.inputName e.inputKey) e.element = .error error) :
    ⟨source, copy, e.inputKey, e.element⟩ ∈ s.graph.edges := by
  obtain ⟨hmem, htarget⟩ := List.mem_filter.1 he
  obtain rfl : e.target = n := of_decide_eq_true htarget
  obtain ⟨entry, i, hget, hi, hconnectable, helement⟩ := hfits
  obtain ⟨d, hd, hinputs⟩ := h.getInput_copy hcopy hfresh hget
  have hkey := hinterned.hashStr_inputName hmem
  obtain ⟨ds, hds⟩ : ∃ ds, s.graph.get source = some ds := by
    rcases hcopying.created _ source hsource with ⟨rfl, ds, hds, -⟩ | ⟨-, -, ds, -, hds, -⟩
    · exact ⟨ds, hcopying.get _ ds hds⟩
    · exact ⟨ds, hds⟩
  have hne : source ≠ copy := by
    rintro rfl
    have heq := h.injective _ _ _ hsource hcopy
    exact hg.edges.acyclic e.target (.single ⟨e, hmem, heq, rfl⟩)
  have hreach : ¬ ReflTransGen (Feeds s.graph.edges) copy source := by
    intro hpath
    obtain ⟨z, hz, -, hzreach⟩ := h.reaches hg hcopy hfresh hpath
    obtain rfl := h.injective _ _ _ hz hsource
    exact hg.edges.acyclic e.target (.tail' hzreach ⟨e, hmem, rfl, rfl⟩)
  rcases hfree : s.graph.connectedOutput copy (g.inputName e.inputKey) e.element with _ | other
  · obtain ⟨g', hok⟩ := connect_eq_ok hds hd ((hinputs _).trans hi) hconnectable helement hne hfree
      hreach
    exact absurd (hok.symm.trans hconnect) (by simp)
  · obtain ⟨x, hx, rfl⟩ := Option.map_eq_some_iff.1 hfree
    have hxmem : x ∈ s.graph.edges := List.mem_of_find?_eq_some hx
    have hxeq := List.find?_some hx
    simp only [Bool.and_eq_true, decide_eq_true_eq] at hxeq
    obtain ⟨⟨hxtarget, hxkey⟩, hxelement⟩ := hxeq
    rw [hkey] at hxkey
    rcases h.edges x hxmem with hold | ⟨-, e₀, he₀, -, hs, ht, hk, hel⟩
    · obtain ⟨dx, hdx⟩ := isValid_iff.1 (hg.edges.ends x hold).2
      rw [hxtarget] at hdx
      exact absurd (hfresh.symm.trans hdx) (by simp)
    · rw [hxtarget] at ht
      have hsame := hg.edges.single e₀ he₀ e hmem (h.injective _ _ _ ht hcopy)
        (hk.symm.trans hxkey) (hel.symm.trans hxelement)
      rw [hsame, hsource] at hs
      obtain rfl := Option.some.inj hs
      have hxe : x = ⟨x.source, copy, e.inputKey, e.element⟩ := by
        rw [← hxtarget, ← hxkey, ← hxelement]
      rwa [← hxe]

/-- An edge into a copy comes from one into its node, which fits. -/
theorem connect (h : Tracing g s vs) (hg : g.Sound carried) (hinterned : g.Interned)
    (he : e ∈ g.edgesInto n) (hcopy : s.created n = some copy) (hfresh : g.get copy = none)
    (hsource : s.created e.source = some source)
    (hconnect : s.graph.connect source copy (g.inputName e.inputKey) e.element = .ok g') :
    Tracing g { s with graph := g' } vs ∧ ⟨source, copy, e.inputKey, e.element⟩ ∈ g'.edges ∧
      ∀ x ∈ s.graph.edges, x ∈ g'.edges := by
  obtain ⟨hmem, htarget⟩ := List.mem_filter.1 he
  obtain rfl : e.target = n := of_decide_eq_true htarget
  have hkey := hinterned.hashStr_inputName hmem
  obtain ⟨hentries, -, hedges⟩ := connect_spec hconnect
  rw [hkey] at hedges
  obtain ⟨entry, hget⟩ := isValid_iff.1 (hg.edges.ends e hmem).2
  obtain ⟨d, hd, hinputs⟩ := h.getInput_copy hcopy hfresh hget
  have hfits : g.Fits e := by
    obtain ⟨d', i, hd', hi, hrest⟩ := fits_of_connect hconnect
    obtain rfl := Option.some.inj (hd.symm.trans hd')
    exact ⟨entry, i, hget, (hinputs _).symm.trans hi, hrest⟩
  have hgets (x : NodeId) : g'.get x = s.graph.get x := get_connect hconnect
  refine ⟨⟨h.visited, h.injective, fun m d hm => h.nodes m d ((hgets m).symm.trans hm),
    fun x hx => ?_, fun key name hname => ?_, fun x m entry' hx hm hentry => ?_⟩, ?_, ?_⟩
  · dsimp only at hx
    rw [hedges] at hx
    rcases OrdSet.mem_insert.1 hx with rfl | hx
    · exact .inr ⟨hfresh, e, hmem, hfits, hsource, hcopy, rfl, rfl⟩
    · exact h.edges x hx
  · dsimp only
    rw [inputNames_connect hconnect, h.names key name hname, Option.getD_some, ite_self]
  · obtain ⟨hitem, c, hc, hrest⟩ := h.core x m entry' hx hm hentry
    exact ⟨hitem, c, (hgets m).trans hc, hrest⟩
  · rw [hedges]
    exact OrdSet.mem_insert.2 (.inl rfl)
  · rw [hedges]
    exact fun x hx => OrdSet.mem_insert.2 (.inr hx)

end Tracing

/-! ### The recursion -/

/-- A part of a copy, which succeeds, goes from `s` to `s'`. -/
structure Step (g : Graph F β) (carried : List (NodeId × NodeId)) (s s' : CopyState F β)
    (vs vs' : List NodeId) : Prop where
  copying : Copying g carried s'
  tracing : Tracing g s' vs'
  grown : ∀ n m, s.created n = some m → s'.created n = some m
  edges : ∀ e ∈ s.graph.edges, e ∈ s'.graph.edges
  met : vs ⊆ vs'
  joined : ∀ n ∈ vs', n ∉ vs → g.Joined s' n

omit [NodeBehavior F β] in
theorem Joined.mono {n : NodeId} (h : g.Joined s n)
    (hgrown : ∀ n m, s.created n = some m → s'.created n = some m)
    (hedges : ∀ e ∈ s.graph.edges, e ∈ s'.graph.edges)
    (hn : ∃ m, s.created n = some m) : g.Joined s' n := by
  intro m hm hfresh e he hfits
  obtain ⟨m', hm'⟩ := hn
  obtain rfl := Option.some.inj ((hgrown n m' hm').symm.trans hm)
  obtain ⟨source, hsource, hmem⟩ := h m' hm' hfresh e he hfits
  exact ⟨source, hgrown _ _ hsource, hedges _ hmem⟩

theorem Step.refl (hcopying : Copying g carried s) (htracing : Tracing g s vs) :
    Step g carried s s vs vs :=
  ⟨hcopying, htracing, fun _ _ h => h, fun _ h => h, List.Subset.refl vs,
    fun _ hn hnot => absurd hn hnot⟩

theorem Step.trans (h : Step g carried s s' vs vs') (h' : Step g carried s' s'' vs' vs'') :
    Step g carried s s'' vs vs'' where
  copying := h'.copying
  tracing := h'.tracing
  grown n m hn := h'.grown n m (h.grown n m hn)
  edges e he := h'.edges e (h.edges e he)
  met := List.Subset.trans h.met h'.met
  joined n hn hnot := by
    by_cases hmem : n ∈ vs'
    · refine (h.joined n hmem hnot).mono h'.grown h'.edges ?_
      exact Option.isSome_iff_exists.1 ((h.tracing.visited n).2 hmem)
    · exact h'.joined n hn hmem

/-- The edges into a copy are made one after the other, each behind the copy of its source. -/
theorem step_copyInputs (hg : g.Sound carried) (hinterned : g.Interned) {fuel : ℕ}
    (hrec : ∀ (node m : NodeId) (s : CopyState F β) (vs : List NodeId), g.isValid node = true →
      Copying g carried s → Tracing g s vs → (copyDependencyGraph fuel node s).1 = some m →
        Step g carried s (copyDependencyGraph fuel node s).2 vs (g.visit fuel node vs) ∧
          (copyDependencyGraph fuel node s).2.created node = some m)
    {n copy : NodeId} (hfresh : g.get copy = none) {es : List Edge}
    (hes : ∀ e ∈ es, e ∈ g.edgesInto n) (hcopying : Copying g carried s)
    (htracing : Tracing g s vs) (hcopy : s.created n = some copy)
    {r : Bool × CopyState F β} (hr : copyInputs (copyDependencyGraph fuel) copy
      (es.map fun e => (e.source, g.inputName e.inputKey, e.element)) s = r) (hok : r.1 = true) :
    Step g carried s r.2 vs (es.foldl (fun vs e => g.visit fuel e.source vs) vs) ∧
      ∀ e ∈ es, g.Fits e → ∃ source, r.2.created e.source = some source ∧
        ⟨source, copy, e.inputKey, e.element⟩ ∈ r.2.graph.edges := by
  induction es generalizing s vs with
  | nil =>
    subst hr
    exact ⟨.refl hcopying htracing, by simp⟩
  | cons e es ih =>
    obtain ⟨he, hes⟩ := List.forall_mem_cons.1 hes
    have hmem := (List.mem_filter.1 he).1
    have hsource := hrec e.source
    rw [List.map_cons, copyInputs] at hr
    rcases heq : copyDependencyGraph fuel e.source s with ⟨_ | source, t⟩
    · simp [← hr, heq] at hok
    · simp only [heq] at hr
      obtain ⟨hstep, hcreated⟩ := hsource source s vs (hg.edges.ends e hmem).1 hcopying htracing
        (by rw [heq])
      rw [heq] at hstep hcreated
      dsimp only at hstep hcreated
      have hcopy' := hstep.grown n copy hcopy
      -- what is behind the first edge, once it is made
      have hrest {t' : CopyState F β} (hnext : Step g carried t t' (g.visit fuel e.source vs)
          (g.visit fuel e.source vs)) (hmade : g.Fits e →
            ⟨source, copy, e.inputKey, e.element⟩ ∈ t'.graph.edges)
          (hr : copyInputs (copyDependencyGraph fuel) copy
            (es.map fun e => (e.source, g.inputName e.inputKey, e.element)) t' = r) :
          Step g carried s r.2 vs ((e :: es).foldl (fun vs e => g.visit fuel e.source vs) vs) ∧
            ∀ x ∈ e :: es, g.Fits x → ∃ source, r.2.created x.source = some source ∧
              ⟨source, copy, x.inputKey, x.element⟩ ∈ r.2.graph.edges := by
        obtain ⟨hothers, hall⟩ := ih hes hnext.copying hnext.tracing (hnext.grown n copy hcopy') hr
        refine ⟨(hstep.trans hnext).trans hothers, List.forall_mem_cons.2 ⟨fun hfits => ?_, hall⟩⟩
        exact ⟨source, hothers.grown _ _ (hnext.grown _ _ hcreated), hothers.edges _ (hmade hfits)⟩
      split at hr
      · next g' hconnect =>
        obtain ⟨htraced, hnew, hold⟩ := hstep.tracing.connect hg hinterned he hcopy' hfresh hcreated
          hconnect
        have hsound := hstep.copying.connect hfresh (hg.edges.element e hmem) hconnect
        exact hrest ⟨hsound, htraced, fun _ _ h => h, hold, List.Subset.refl _,
          fun _ hn hnot => absurd hn hnot⟩ (fun _ => hnew) hr
      · next error hconnect =>
        exact hrest (.refl hstep.copying hstep.tracing) (fun hfits =>
          hstep.tracing.mem_edges_of_error hstep.copying hg hinterned he hcopy' hfresh hcreated
            hfits hconnect) hr

/-- The recursion, by induction on its depth. -/
theorem step_copyDependencyGraph (hg : g.Sound carried) (hinterned : g.Interned) (fuel : ℕ)
    (node m : NodeId) (s : CopyState F β) (vs : List NodeId) (hlive : g.isValid node = true)
    (hcopying : Copying g carried s) (htracing : Tracing g s vs)
    (hsome : (copyDependencyGraph fuel node s).1 = some m) :
    Step g carried s (copyDependencyGraph fuel node s).2 vs (g.visit fuel node vs) ∧
      (copyDependencyGraph fuel node s).2.created node = some m := by
  induction fuel generalizing node m s vs with
  | zero => exact absurd hsome (by simp [copyDependencyGraph])
  | succ fuel ih =>
    obtain ⟨entry, hget⟩ := isValid_iff.1 hlive
    have hsource := Finished.copyDependencyGraph hg (fuel + 1) hlive hcopying hsome
    refine ⟨?_, hsource.2⟩
    clear hsource
    rw [copyDependencyGraph] at hsome ⊢
    rw [visit]
    rcases hcreated : s.created node with _ | existing
    · have hnode : node ∉ vs := fun hmem => by
        have hcopied := (htracing.visited node).2 hmem
        rw [hcreated] at hcopied
        exact absurd hcopied (by simp)
      simp only [hcreated, hcopying.get_eq hlive, hget] at hsome ⊢
      rw [if_neg hnode]
      rcases hduplicate : NodeBehavior.duplicate entry.behavior entry.core with _ | behavior
      · simp [hduplicate] at hsome
      simp only [hduplicate] at hsome ⊢
      split_ifs at hsome ⊢ with hitem
      · -- an item stands for itself
        refine ⟨hcopying.item ⟨entry, hget, hitem⟩ hcreated, htracing.item hcopying hget hnode,
          fun n k hn => ?_, fun e he => he, List.subset_append_left vs [node], fun n hn hnot => ?_⟩
        · have hne : n ≠ node := ne_of_found hn hcreated
          exact (Function.update_of_ne hne _ _).trans hn
        · obtain rfl := List.mem_singleton.1 ((List.mem_append.1 hn).resolve_left hnot)
          intro k hk hfresh
          obtain rfl := Option.some.inj ((Function.update_self n _ _).symm.trans hk)
          exact absurd (hfresh.symm.trans hget) (by simp)
      · let core : NodeCore F := { entry.core with
          links := []
          contextPositions := entry.core.contextPositions.map fun p =>
            ((s.created p.1).getD p.1, p.2) }
        have hpositions : (entry.core.contextPositions.map fun p =>
              ((s.created p.1).getD p.1, p.2)) =
            entry.core.contextPositions.map fun p =>
              (if p.1 ∈ vs then (s.created p.1).getD p.1 else p.1, p.2) := by
          refine List.map_congr_left fun p _ => ?_
          split_ifs with hp
          · rfl
          · rw [htracing.created_eq_none hp, Option.getD_none]
        have hcore : core = copyCore vs s.created entry.core := by
          rw [copyCore, ← hpositions]
        obtain ⟨hfresh, hadded⟩ := hcopying.add hget hcreated (show core.links = [] from rfl)
          hduplicate
        have htraced := htracing.add hcopying hget hnode (not_not.1 hitem) hduplicate hcore
        have hconnections : (s.graph.addNode core behavior).1.inputConnections node =
            (g.edgesInto node).map fun e => (e.source, g.inputName e.inputKey, e.element) := by
          rw [inputConnections_eq, hadded.edgesInto node hlive]
          refine List.map_congr_left fun e he => ?_
          obtain ⟨name, hname⟩ := Option.isSome_iff_exists.1
            (hinterned.edges e (List.mem_filter.1 he).1)
          rw [inputName, inputName, htraced.names _ name hname, hname]
        rcases heq : copyInputs (copyDependencyGraph fuel) (s.graph.addNode core behavior).2
            ((s.graph.addNode core behavior).1.inputConnections node)
            ⟨(s.graph.addNode core behavior).1,
              Function.update s.created node (some (s.graph.addNode core behavior).2)⟩
          with ⟨_ | _, t⟩
        · simp only [core, heq] at hsome
          exact absurd hsome (by simp)
        · rw [hconnections] at heq
          obtain ⟨hstep, hall⟩ := step_copyInputs hg hinterned (fun n k t ws => ih n k t ws) hfresh
            (fun e he => he) hadded htraced (Function.update_self node _ _) heq rfl
          simp only [core] at hstep hall ⊢
          have hgrown (n k : NodeId) (hn : s.created n = some k) :
              Function.update s.created node (some (s.graph.addNode core behavior).2) n =
                some k := by
            have hne : n ≠ node := ne_of_found hn hcreated
            exact (Function.update_of_ne hne _ _).trans hn
          refine ⟨hstep.copying, hstep.tracing, fun n k hn => hstep.grown n k (hgrown n k hn),
            fun e he => hstep.edges e ?_, fun n hn => hstep.met (List.mem_append_left _ hn),
            fun n hn hnot => ?_⟩
          · exact (edges_allocate core behavior).symm ▸ he
          · by_cases heqn : n = node
            · subst heqn
              intro k hk hkfresh e he hfits
              obtain rfl := Option.some.inj
                ((hstep.grown n _ (Function.update_self n _ _)).symm.trans hk)
              exact hall e he hfits
            · exact hstep.joined n hn (by simp [hnot, heqn])
    · have hnode : node ∈ vs := (htracing.visited node).1 (by rw [hcreated, Option.isSome_some])
      rw [if_pos hnode]
      exact .refl hcopying htracing

/-! ### What a copy is for -/

omit [NodeBehavior F β] in
/-- The nodes that are met from `n` on are upstream of it, up to the items. -/
theorem mem_visit {fuel : ℕ} {n x : NodeId} (h : x ∈ g.visit fuel n vs) :
    x ∈ vs ∨ ReflTransGen g.CopiesFrom n x := by
  induction fuel generalizing n vs with
  | zero => exact .inl h
  | succ fuel ih =>
    rw [visit] at h
    split_ifs at h
    · exact .inl h
    split at h
    · exact .inl h
    next entry hget =>
    split_ifs at h with hitem
    · rcases List.mem_append.1 h with hx | hx
      · exact .inl hx
      · obtain rfl := List.mem_singleton.1 hx
        exact .inr .refl
    · have hfold (es : List Edge) (hes : ∀ e ∈ es, e ∈ g.edgesInto n) (ws : List NodeId)
          (hx : x ∈ es.foldl (fun vs e => g.visit fuel e.source vs) ws) :
          x ∈ ws ∨ ReflTransGen g.CopiesFrom n x := by
        induction es generalizing ws with
        | nil => exact .inl hx
        | cons e es ihes =>
          obtain ⟨he, hes⟩ := List.forall_mem_cons.1 hes
          rcases ihes hes _ hx with hx | hx
          · refine (ih hx).imp_right fun hreach => .head ?_ hreach
            exact ⟨entry, hget, not_not.1 hitem, e, he, rfl⟩
          · exact .inr hx
      rcases hfold _ (fun e he => he) _ h with hx | hx
      · rcases List.mem_append.1 hx with hx | hx
        · exact .inl hx
        · obtain rfl := List.mem_singleton.1 hx
          exact .inr .refl
      · exact .inr hx

/-- A node upstream of `root`, up to the items, that is no item. -/
def Cloned (g : Graph F β) (root n : NodeId) : Prop :=
  ReflTransGen g.CopiesFrom root n ∧
    ∃ entry, g.get n = some entry ∧ entry.core.flags &&& NodeFlags.isItem = 0

/-- Every node upstream of `root` has a copy with its values, the edges into it come from the
copies of what fed the node (items stand for themselves), and contexts that were copied refer to
their copies; what was there is as it was. -/
structure CopiedWhole (g : Graph F β) (root copy : NodeId) (s : CopyState F β) : Prop where
  first : s.created root = some copy
  nodes : ∀ n, (∃ m, s.created n = some m ∧ g.get m = none) ↔ g.Cloned root n
  items : ∀ n, ReflTransGen g.CopiesFrom root n → g.IsItem n → s.created n = some n
  injective : ∀ n n' m, s.created n = some m → s.created n' = some m → n = n'
  new : ∀ m, s.graph.isValid m = true → g.get m = none → ∃ n, s.created n = some m
  values : ∀ n m entry, s.created n = some m → g.get m = none → g.get n = some entry →
    ∃ copy, s.graph.get m = some copy ∧
      NodeBehavior.duplicate entry.behavior entry.core = some copy.behavior ∧
      copy.core = { entry.core with
        links := []
        contextPositions := entry.core.contextPositions.map fun p =>
          ((s.created p.1).getD p.1, p.2) }
  edges : ∀ n m, s.created n = some m → g.get m = none → ∀ source key element,
    ⟨source, m, key, element⟩ ∈ s.graph.edges ↔
      ∃ x, s.created x = some source ∧ ⟨x, n, key, element⟩ ∈ g.edges
  kept : ∀ x e, g.get x = some e → s.graph.get x = some e
  oldEdges : ∀ e : Edge, g.isValid e.target = true → (e ∈ s.graph.edges ↔ e ∈ g.edges)

/-- The copy of `root` is whole, or there is none and the graph is as it was. -/
def CopyKept (g : Graph F β) (root : NodeId) : Prop :=
  match g.copyNodeAndDependencyGraphMinusItems root with
  | (some copy, s) => CopiedWhole g root copy s
  | (none, s) => s.graph = g

/-- When everything can be duplicated, all edges fit their inputs and a context that is copied is
met before what is shown in it; otherwise `root` itself cannot be duplicated. -/
structure CopiesWell (g : Graph F β) (root : NodeId) : Prop where
  fits : g.Copyable root → ∀ n, g.Cloned root n → ∀ e ∈ g.edgesInto n, g.Fits e
  contexts : g.Copyable root → ∀ n entry, g.Cloned root n → g.get n = some entry →
    ∀ p ∈ entry.core.contextPositions, g.Cloned root p.1 → p.1 ∈ before (g.copyOrder root) n
  refused : ¬ g.Copyable root → ∀ entry, g.get root = some entry →
    NodeBehavior.duplicate entry.behavior entry.core = none

section Whole

variable {root copy : NodeId}

/-- What a copy that succeeds leaves. -/
structure Succeeded (g : Graph F β) (carried : List (NodeId × NodeId)) (root copy : NodeId)
    (s : CopyState F β) : Prop where
  step : Step g carried ⟨g, fun _ => none⟩ s [] (g.copyOrder root)
  first : s.created root = some copy
  reached : ∀ n, (s.created n).isSome = true ↔ ReflTransGen g.CopiesFrom root n

theorem succeeded_copy (hg : g.Sound carried) (hinterned : g.Interned) (hroom : g.HasRoom)
    (hlive : g.isValid root = true)
    (hcopy : g.copyNodeAndDependencyGraphMinusItems root = (some copy, s)) :
    Succeeded g carried root copy s := by
  have hstart := Copying.start hg hroom
  rw [copyNodeAndDependencyGraphMinusItems] at hcopy
  obtain ⟨hstep, hroot⟩ := step_copyDependencyGraph hg hinterned _ root copy _ [] hlive hstart
    (tracing_start g) (congrArg Prod.fst hcopy)
  obtain ⟨⟨-, hdone⟩, -⟩ := Finished.copyDependencyGraph hg _ hlive hstart (congrArg Prod.fst hcopy)
  rw [hcopy] at hstep hroot hdone
  refine ⟨hstep, hroot, fun n => ⟨fun hn => ?_, fun hn => ?_⟩⟩
  · exact (mem_visit ((hstep.tracing.visited n).1 hn)).resolve_left List.not_mem_nil
  · induction hn with
    | refl => rw [hroot, Option.isSome_some]
    | tail _ hnext ih =>
      obtain ⟨entry, hget, hitem, e, he, rfl⟩ := hnext
      obtain ⟨entry', hget', -, hsources⟩ := (hdone _ ih).resolve_left (by simp)
      obtain rfl := Option.some.inj (hget.symm.trans hget')
      exact hsources hitem e he

section

variable (h : Succeeded g carried root copy s)

include h

theorem Succeeded.cloned_iff (n : NodeId) :
    (∃ m, s.created n = some m ∧ g.get m = none) ↔ g.Cloned root n := by
  constructor
  · rintro ⟨m, hm, hfresh⟩
    refine ⟨(h.reached n).1 (by rw [hm, Option.isSome_some]), ?_⟩
    rcases h.step.copying.created n m hm with ⟨rfl, entry, hget, -⟩ | ⟨-, entry, -, hget, -⟩
    · exact absurd (hfresh.symm.trans hget) (by simp)
    · exact ⟨entry, hget, (h.step.tracing.core n m entry hm hfresh hget).1⟩
  · rintro ⟨hreach, entry, hget, hitem⟩
    obtain ⟨m, hm⟩ := Option.isSome_iff_exists.1 ((h.reached n).2 hreach)
    rcases h.step.copying.created n m hm with ⟨-, entry', hget', hflag⟩ | ⟨hfresh, -⟩
    · obtain rfl := Option.some.inj (hget.symm.trans hget')
      exact absurd hitem hflag
    · exact ⟨m, hm, hfresh⟩

theorem Succeeded.mem_edges_iff (hg : g.Sound carried) {n m : NodeId} (hm : s.created n = some m)
    (hfresh : g.get m = none) (source : NodeId) (key : ℕ) (element : ℤ) :
    ⟨source, m, key, element⟩ ∈ s.graph.edges ↔
      ∃ x, s.created x = some source ∧ ⟨x, n, key, element⟩ ∈ g.edges ∧
        g.Fits ⟨x, n, key, element⟩ := by
  constructor
  · intro he
    rcases h.step.tracing.edges _ he with hold | ⟨-, e₀, he₀, hfits, hs, ht, hk, hel⟩
    · obtain ⟨d, hd⟩ := isValid_iff.1 (hg.edges.ends _ hold).2
      exact absurd (hfresh.symm.trans hd) (by simp)
    · obtain rfl := h.step.tracing.injective _ _ _ ht hm
      have heq : e₀ = ⟨e₀.source, e₀.target, key, element⟩ := by
        rw [show key = e₀.inputKey from hk, show element = e₀.element from hel]
      exact ⟨e₀.source, hs, heq ▸ he₀, heq ▸ hfits⟩
  · rintro ⟨x, hx, he, hfits⟩
    have hn : n ∈ g.copyOrder root :=
      (h.step.tracing.visited n).1 (by rw [hm, Option.isSome_some])
    obtain ⟨source', hsource, hmem⟩ := h.step.joined n hn List.not_mem_nil m hm hfresh
      ⟨x, n, key, element⟩ (List.mem_filter.2 ⟨he, decide_eq_true rfl⟩) hfits
    obtain rfl := Option.some.inj (hx.symm.trans hsource)
    exact hmem

/-- The contexts of a copy refer to the copies exactly when those were made before. -/
theorem Succeeded.contexts_iff {n : NodeId} (core : NodeCore F) :
    copyCore (before (g.copyOrder root) n) s.created core =
        { core with
          links := []
          contextPositions := core.contextPositions.map fun p =>
            ((s.created p.1).getD p.1, p.2) } ↔
      ∀ p ∈ core.contextPositions, g.Cloned root p.1 → p.1 ∈ before (g.copyOrder root) n := by
  have hpositions : copyCore (before (g.copyOrder root) n) s.created core =
        { core with
          links := []
          contextPositions := core.contextPositions.map fun p =>
            ((s.created p.1).getD p.1, p.2) } ↔
      ∀ p ∈ core.contextPositions,
        (if p.1 ∈ before (g.copyOrder root) n then (s.created p.1).getD p.1 else p.1) =
          (s.created p.1).getD p.1 := by
    rw [copyCore, NodeCore.mk.injEq]
    simp only [true_and, and_true, List.map_inj_left, Prod.mk.injEq]
  rw [hpositions]
  refine forall₂_congr fun p _ => ?_
  constructor
  · intro heq hcloned
    by_contra hnot
    obtain ⟨m, hm, hfresh⟩ := (h.cloned_iff p.1).2 hcloned
    rw [if_neg hnot, hm, Option.getD_some] at heq
    obtain ⟨-, entry, hget, -⟩ := hcloned
    rw [heq, hfresh] at hget
    exact absurd hget (by simp)
  · intro hbefore
    split_ifs with hmem
    · rfl
    rcases hcreated : s.created p.1 with _ | m
    · rfl
    · rcases h.step.copying.created p.1 m hcreated with ⟨rfl, -⟩ | ⟨hfresh, -⟩
      · rfl
      · exact absurd (hbefore ((h.cloned_iff p.1).1 ⟨m, hcreated, hfresh⟩)) hmem

/-- A copy that succeeds is whole exactly when all edges fit and all contexts come first. -/
theorem Succeeded.whole_iff (hg : g.Sound carried) :
    CopiedWhole g root copy s ↔
      (∀ n, g.Cloned root n → ∀ e ∈ g.edgesInto n, g.Fits e) ∧
      ∀ n entry, g.Cloned root n → g.get n = some entry → ∀ p ∈ entry.core.contextPositions,
        g.Cloned root p.1 → p.1 ∈ before (g.copyOrder root) n := by
  have htracing := h.step.tracing
  have hcopying := h.step.copying
  constructor
  · refine fun hwhole => ⟨fun n hn e he => ?_, fun n entry hn hget => ?_⟩
    · obtain ⟨hmem, htarget⟩ := List.mem_filter.1 he
      obtain rfl : e.target = n := of_decide_eq_true htarget
      obtain ⟨m, hm, hfresh⟩ := (h.cloned_iff _).2 hn
      obtain ⟨-, entry, hget, hitem⟩ := hn
      have hsource : (s.created e.source).isSome = true := by
        refine (h.reached _).2 (((h.reached _).1 ?_).tail ⟨entry, hget, hitem, e, he, rfl⟩)
        rw [hm, Option.isSome_some]
      obtain ⟨source, hsource⟩ := Option.isSome_iff_exists.1 hsource
      have hcopied := (hwhole.edges _ m hm hfresh source e.inputKey e.element).2
        ⟨e.source, hsource, hmem⟩
      obtain ⟨x, hx, -, hfits⟩ := (h.mem_edges_iff hg hm hfresh _ _ _).1 hcopied
      obtain rfl := htracing.injective _ _ _ hx hsource
      exact hfits
    · obtain ⟨m, hm, hfresh⟩ := (h.cloned_iff _).2 hn
      obtain ⟨d, hd, -, hcore⟩ := hwhole.values n m entry hm hfresh hget
      obtain ⟨-, d', hd', -, hcore'⟩ := htracing.core n m entry hm hfresh hget
      obtain rfl := Option.some.inj (hd.symm.trans hd')
      exact (h.contexts_iff entry.core).1 (hcore'.symm.trans hcore)
  · rintro ⟨hfits, hcontexts⟩
    refine ⟨h.first, h.cloned_iff, fun n hn hitem => ?_, htracing.injective,
      fun m hm hnone => ?_, fun n m entry hm hfresh hget => ?_,
      fun n m hm hfresh source key element => ?_, hcopying.get, fun e he => ?_⟩
    · obtain ⟨m, hm⟩ := Option.isSome_iff_exists.1 ((h.reached n).2 hn)
      rcases hcopying.created n m hm with ⟨rfl, -⟩ | ⟨hfresh, -⟩
      · exact hm
      · obtain ⟨-, entry, hget, hzero⟩ := (h.cloned_iff n).1 ⟨m, hm, hfresh⟩
        obtain ⟨entry', hget', hflag⟩ := hitem
        obtain rfl := Option.some.inj (hget.symm.trans hget')
        exact absurd hzero hflag
    · obtain ⟨d, hd⟩ := isValid_iff.1 hm
      exact (htracing.nodes m d hd).resolve_left (by simp [hnone])
    · obtain ⟨-, d, hd, hduplicate, hcore⟩ := htracing.core n m entry hm hfresh hget
      refine ⟨d, hd, hduplicate, hcore.trans ((h.contexts_iff entry.core).2 ?_)⟩
      exact hcontexts n entry ((h.cloned_iff n).1 ⟨m, hm, hfresh⟩) hget
    · rw [h.mem_edges_iff hg hm hfresh]
      refine exists_congr fun x => and_congr_right fun _ => and_iff_left_of_imp fun he => ?_
      exact hfits n ((h.cloned_iff n).1 ⟨m, hm, hfresh⟩) _
        (List.mem_filter.2 ⟨he, decide_eq_true rfl⟩)
    · have hinto := hcopying.edgesInto e.target he
      rw [← OrdSet.mem_toList, ← OrdSet.mem_toList]
      have hiff := congrArg (e ∈ ·) hinto
      simpa [edgesInto] using hiff

end

/-- Exactly when a copy is whole, or leaves the graph as it was. -/
theorem copyKept_iff (hg : g.Sound carried) (hinterned : g.Interned) (hroom : g.HasRoom) :
    g.CopyKept root ↔ g.CopiesWell root := by
  rcases hget : g.get root with _ | entry
  · -- a stale node
    have hnone : g.copyNodeAndDependencyGraphMinusItems root = (none, ⟨g, fun _ => none⟩) := by
      simp only [copyNodeAndDependencyGraphMinusItems, copyDependencyGraph, hget]
    have hcopyable : ¬ g.Copyable root := fun h => by
      obtain ⟨entry, hentry, -⟩ := h root .refl
      exact absurd (hget.symm.trans hentry) (by simp)
    rw [CopyKept, hnone]
    exact ⟨fun _ => ⟨fun h => absurd h hcopyable, fun h => absurd h hcopyable,
      fun _ entry hentry => absurd (hget.symm.trans hentry) (by simp)⟩, fun _ => rfl⟩
  have hlive : g.isValid root = true := isValid_of_get hget
  have hsome := copy_isSome_iff hg hroom hlive
  rcases hcopy : g.copyNodeAndDependencyGraphMinusItems root with ⟨_ | copy, s⟩
  · have hcopyable : ¬ g.Copyable root := fun h => by
      have hfst := hsome.2 h
      rw [hcopy] at hfst
      exact absurd hfst (by simp)
    have hkept : g.CopyKept root ↔ s.graph = g := by rw [CopyKept, hcopy]
    rw [hkept]
    constructor
    · refine fun hsame => ⟨fun h => absurd h hcopyable, fun h => absurd h hcopyable,
        fun _ entry' hentry => ?_⟩
      obtain rfl := Option.some.inj (hget.symm.trans hentry)
      rw [← Option.not_isSome_iff_eq_none]
      intro hduplicate
      by_cases hitem : entry.core.flags &&& NodeFlags.isItem = 0
      · -- there is a copy of the node itself
        obtain ⟨m, t, -, -, ⟨hfresh, -, d, -, hd, -⟩, ok, heq⟩ :=
          copy_spec hg hroom hget hitem hduplicate
        obtain ⟨-, rfl⟩ := Prod.mk.inj (hcopy.symm.trans heq)
        rw [hsame, hfresh] at hd
        exact absurd hd (by simp)
      · obtain ⟨b, hb⟩ := Option.isSome_iff_exists.1 hduplicate
        simp only [copyNodeAndDependencyGraphMinusItems, copyDependencyGraph, hget, hb] at hcopy
        rw [if_pos hitem] at hcopy
        exact absurd (congrArg Prod.fst hcopy) (by simp)
    · intro hwell
      have hrefused := hwell.refused hcopyable entry hget
      simp only [copyNodeAndDependencyGraphMinusItems, copyDependencyGraph, hget, hrefused] at hcopy
      obtain ⟨-, rfl⟩ := Prod.mk.inj hcopy
      rfl
  · have hcopyable : g.Copyable root := hsome.1 (by rw [hcopy, Option.isSome_some])
    have hkept : g.CopyKept root ↔ CopiedWhole g root copy s := by rw [CopyKept, hcopy]
    rw [hkept, (succeeded_copy hg hinterned hroom hlive hcopy).whole_iff hg]
    exact ⟨fun h => ⟨fun _ => h.1, fun _ => h.2, fun h => absurd hcopyable h⟩,
      fun h => ⟨h.fits hcopyable, h.contexts hcopyable⟩⟩

end Whole

/-- Whether it succeeds or not, a copy leaves the nodes that were there, and the edges into them. -/
theorem copy_untouched (hg : g.Sound carried) (hroom : g.HasRoom) (root : NodeId) :
    let g' := (g.copyNodeAndDependencyGraphMinusItems root).2.graph
    g'.Sound carried ∧ (∀ x e, g.get x = some e → g'.get x = some e) ∧
      ∀ x, g.isValid x = true → g'.edgesInto x = g.edgesInto x := by
  have h : Copying g carried (g.copyNodeAndDependencyGraphMinusItems root).2 := by
    have hstart := Copying.start hg hroom
    rw [copyNodeAndDependencyGraphMinusItems]
    cases hget : g.get root with
    | none => simpa [copyDependencyGraph, hget] using hstart
    | some entry => exact .copyDependencyGraph hg _ (isValid_of_get hget) hstart
  exact ⟨h.sound, h.get, h.edgesInto⟩

/-! ### Nodes that feed a root -/

/-- A behavior that can be duplicated, and one that cannot. -/
inductive Guarded where
  | plain
  | refusing
  deriving DecidableEq

instance : NodeBehavior ℚ Guarded where
  typeId _ := "org.olivevideoeditor.Olive.guarded-test"
  duplicate b _ := if b = .plain then some b else none
  activeElementsAtTime _ _ _ := []
  connectedRenderOutput _ _ _ _ := none
  inputTimeAdjustment _ _ _ _ range _ := range
  value _ _ _ _ table := table

/-- A root with an input for each of its sources. -/
def fedCore : NodeCore ℚ :=
  ((NodeCore.new.addInput (.new "item" .float .none)).addInput (.new "node" .float .none)).addInput
    (.new "last" .float .none)

/-- An item `(0, 0)` and a node `(1, 0)`, which is shown in the context of the root `(2, 0)` that
they feed. -/
def fed : List (GraphAction ℚ Guarded) :=
  let core : NodeCore ℚ := .new
  [.addNode { core with flags := NodeFlags.isItem } .plain,
    .addNode { core with contextPositions := [(⟨2, 0⟩, (30, 20), false)] } .plain,
    .addNode fedCore .plain, .connect ⟨0, 0⟩ ⟨2, 0⟩ "item" (-1),
    .connect ⟨1, 0⟩ ⟨2, 0⟩ "node" (-1)]

/-- The same with a source `(3, 0)` that refuses to be duplicated. -/
def fedByRefusing : List (GraphAction ℚ Guarded) :=
  fed ++ [.addNode .new .refusing, .connect ⟨3, 0⟩ ⟨2, 0⟩ "last" (-1)]

/-- The copy gives up at the third source, when two nodes were copied. -/
theorem copy_untouched_fedByRefusing :
    let g := (run GraphRun.act GraphRun.start fedByRefusing).graph
    let g' := (g.copyNodeAndDependencyGraphMinusItems ⟨2, 0⟩).2.graph
    ((g.copyNodeAndDependencyGraphMinusItems ⟨2, 0⟩).1 = none ∧
      g'.entries.length = g.entries.length + 2) ∧
    g'.Sound [] ∧ (∀ x e, g.get x = some e → g'.get x = some e) ∧
      ∀ x, g.isValid x = true → g'.edgesInto x = g.edgesInto x := by
  have hi32 : IsI32 (-1) := ⟨by decide, by decide⟩
  have hsound : (run GraphRun.act GraphRun.start fedByRefusing).Sound :=
    GraphRun.sound_run ⟨trivial, trivial, trivial, hi32, hi32, trivial, hi32, trivial⟩
  refine ⟨by decide +kernel, copy_untouched hsound ?_ ⟨2, 0⟩⟩
  show 2 * 4 < u32Size
  decide

/-- A node that is shown in its own context. -/
def ownContext : Graph ℚ Plain :=
  let core : NodeCore ℚ := .new
  (Graph.new.addNode { core with contextPositions := [(⟨0, 0⟩, (0, 0), false)] } .plain).1

/-- The copies of a root and of the node that feeds it, with the item that feeds it and the context,
are whole. -/
theorem copyKept_iff_fed : CopyKept (run GraphRun.act GraphRun.start fed).graph ⟨2, 0⟩ := by
  have hi32 : IsI32 (-1) := ⟨by decide, by decide⟩
  have hrange : Permitted GraphRun.act GraphRun.InRange GraphRun.start fed :=
    ⟨trivial, trivial, trivial, hi32, hi32, trivial⟩
  have hsound := GraphRun.sound_run hrange
  have hroom : (run GraphRun.act GraphRun.start fed).graph.HasRoom := by
    show 2 * 3 < u32Size
    decide
  have hfits : ∀ e ∈ (run GraphRun.act GraphRun.start fed).graph.edges.toList,
      ∃ entry ∈ (run GraphRun.act GraphRun.start fed).graph.get e.target,
        ∃ i ∈ entry.core.getInput
            ((run GraphRun.act GraphRun.start fed).graph.inputName e.inputKey),
          i.isConnectable = true ∧ (i.isArray = true ∨ e.element = -1) := by
    decide +kernel
  have hcontexts : ∀ n ∈ (run GraphRun.act GraphRun.start fed).graph.nodeIds,
      ∀ entry ∈ (run GraphRun.act GraphRun.start fed).graph.get n,
        NodeBehavior.duplicate entry.behavior entry.core = some entry.behavior ∧
        ∀ p ∈ entry.core.contextPositions,
          p.1 ∈ before ((run GraphRun.act GraphRun.start fed).graph.copyOrder ⟨2, 0⟩) n := by
    decide +kernel
  refine (copyKept_iff hsound (GraphRun.interned_run hrange) hroom).2
    ⟨fun _ n _ e he => ?_, fun _ n entry _ hget p hp _ => ?_, fun hcopyable => absurd ?_ hcopyable⟩
  · obtain ⟨entry, hget, i, hi, hconnectable, helement⟩ := hfits e (List.mem_filter.1 he).1
    exact ⟨entry, i, hget, hi, hconnectable, helement⟩
  · exact (hcontexts n (mem_nodeIds (isValid_of_get hget)) entry hget).2 p hp
  · intro n hn
    have hlive : (run GraphRun.act GraphRun.start fed).graph.isValid n = true := by
      rcases hn.cases_tail with rfl | ⟨m, -, entry, -, -, e, he, rfl⟩
      · decide +kernel
      · exact (hsound.edges.ends e (OrdSet.mem_toList.1 (List.mem_filter.1 he).1)).1
    obtain ⟨entry, hget⟩ := isValid_iff.1 hlive
    refine ⟨entry, hget, ?_⟩
    rw [(hcontexts n (mem_nodeIds hlive) entry hget).1, Option.isSome_some]

/-- The copy of a node that is shown in its own context is shown in that of the original. -/
theorem copyKept_ownContext : ¬ CopyKept ownContext ⟨0, 0⟩ := by
  intro hkept
  have hcopy : (ownContext.copyNodeAndDependencyGraphMinusItems ⟨0, 0⟩).1 = some ⟨1, 0⟩ := by
    decide +kernel
  have hpositions : ((ownContext.copyNodeAndDependencyGraphMinusItems ⟨0, 0⟩).2.graph.get
      ⟨1, 0⟩).map (fun e => e.core.contextPositions.map Prod.fst) = some [⟨0, 0⟩] := by
    decide +kernel
  obtain ⟨s, hs⟩ : ∃ s, ownContext.copyNodeAndDependencyGraphMinusItems ⟨0, 0⟩ =
      (some ⟨1, 0⟩, s) := ⟨_, Prod.ext hcopy rfl⟩
  rw [hs] at hpositions
  rw [CopyKept, hs] at hkept
  obtain ⟨copy, hget, -, hcore⟩ := hkept.values ⟨0, 0⟩ ⟨1, 0⟩ _ hkept.first rfl rfl
  have hmapped : copy.core.contextPositions = [(⟨1, 0⟩, (0, 0), false)] := by
    rw [hcore]
    show [((s.created ⟨0, 0⟩).getD ⟨0, 0⟩, ((0 : ℚ), (0 : ℚ)), false)] = _
    rw [hkept.first, Option.getD_some]
  rw [hget, Option.map_some, hmapped] at hpositions
  exact absurd hpositions (by decide)

end Oak.Node.Graph
