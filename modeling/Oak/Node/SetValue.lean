import Oak.Node.Build
import Oak.Node.KeyframeTrack

/-!
# Setting a value at a time

`set_value_at_time_command` of `oak-node/src/ops.rs`. What the command will do is decided when it is
built, from the state of the input; its two directions look the node up again.

* `SetValueCommand` : the three mutations, with what they take back.
* `Graph.setValueAtTimeCommand` : the choice of the mutation.

## Main results

* `setsValue_mutation` : a mutation sets the value at a time, and is taken back.
* `setsValue_setValueAtTime` : the input has the value at the time, keeps its values at its keys,
  and has its old values and keys after an undo.
-/

namespace Oak.Node

open Oak.Core

variable {F β : Type*}

/-- The keys of an input. -/
def NodeCore.keysOf (core : NodeCore F) (id : String) (element : ℤ) : List (Keyframe F) :=
  ((core.keyframeTrack id element).map KeyframeTrack.keys).getD []

/-! ### The command -/

/-- What happens to the input: a key gets a value, a key is inserted, or the standard value is
set. -/
inductive SetValueMutation (F : Type*) where
  | keyValue (keyTime : Rational) (value oldValue : NodeValue F)
  | newKey (key : Keyframe F)
  | standard (value old : NodeValue F)

/-- The command that `set_value_at_time_command` returns. -/
structure SetValueCommand (F : Type*) where
  node : NodeId
  input : String
  element : ℤ
  mutation : SetValueMutation F

variable (c : SetValueCommand F)

namespace SetValueCommand

/-- What `redo` does to the node. -/
def redoCore (core : NodeCore F) : NodeCore F :=
  match c.mutation with
  | .keyValue keyTime value _ =>
    core.modifyKeyframeTrack c.input c.element fun t => t.setKeyValue keyTime value
  | .newKey key => core.modifyKeyframeTrack c.input c.element fun t => t.setKey key
  | .standard value _ => core.setStandardValue c.input c.element value

/-- What `undo` does to the node. -/
def undoCore (core : NodeCore F) : NodeCore F :=
  match c.mutation with
  | .keyValue keyTime _ oldValue =>
    core.modifyKeyframeTrack c.input c.element fun t => t.setKeyValue keyTime oldValue
  | .newKey key => core.modifyKeyframeTrack c.input c.element fun t => t.removeKey key.time
  | .standard _ old => core.setStandardValue c.input c.element old

end SetValueCommand

namespace Graph

/-- The interpolation of a new key: that of the last key before it. -/
def interpolationFor (t : KeyframeTrack F) (time : Rational) : Interpolation :=
  (((t.keys.filter fun k => k.time ≤ time).getLast?).map Keyframe.interpolation).getD .linear

/-- The mutation that an input calls for. -/
def setValueMutation [Zero F] (core : NodeCore F) (input : String) (element : ℤ) (time : Rational)
    (value : NodeValue F) : SetValueMutation F :=
  match core.keyframeTrack input element with
  | some t =>
    if t.keys.isEmpty then .standard value (core.standardValue input element)
    else
      match t.keys.find? fun k => k.time = time with
      | some k => .keyValue k.time value k.value
      | none => .newKey ⟨time, value, interpolationFor t time, (0, 0), (0, 0)⟩
  | none => .standard value (core.standardValue input element)

/-- `set_value_at_time_command`. -/
def setValueAtTimeCommand [Zero F] (g : Graph F β) (node : NodeId) (input : String) (element : ℤ)
    (time : Rational) (value : NodeValue F) : Except Error (SetValueCommand F) :=
  match g.get node with
  | none => .error .notFound
  | some entry =>
    match entry.core.inputDataType input with
    | none => .error .notFound
    | some _ => .ok ⟨node, input, element, setValueMutation entry.core input element time value⟩

/-- `value_at_time` of a live node. -/
def valueAtTime [Interpolate F] (g : Graph F β) (node : NodeId) (input : String) (element : ℤ)
    (time : Rational) : Option (NodeValue F) :=
  (g.get node).map fun entry => entry.core.valueAtTime input element time

/-- The keys of an input of a live node. -/
def keysOf (g : Graph F β) (node : NodeId) (input : String) (element : ℤ) : List (Keyframe F) :=
  ((g.get node).map fun entry => entry.core.keysOf input element).getD []

end Graph

namespace SetValueCommand

def redo (g : Graph F β) : Graph F β := g.modifyCore c.redoCore c.node

def undo (g : Graph F β) : Graph F β := g.modifyCore c.undoCore c.node

end SetValueCommand

/-! ### Tracks of a node -/

namespace NodeCore

variable {core : NodeCore F} {id id' : String} {element element' : ℤ} {track : KeyframeTrack F}

theorem find?_setTrack (track : KeyframeTrack F) (ks : List (String × ℤ × KeyframeTrack F)) :
    (setTrack id element track ks).find? (fun k => k.1 = id && k.2.1 = element) =
      some (id, element, track) := by
  induction ks with
  | nil => simp [setTrack]
  | cons k ks ih =>
    rw [setTrack]
    split_ifs with hk
    · simp
    · rw [List.find?_cons_of_neg (by simpa using hk), ih]

theorem setTrack_setTrack (track' : KeyframeTrack F) (ks : List (String × ℤ × KeyframeTrack F)) :
    setTrack id element track' (setTrack id element track ks) = setTrack id element track' ks := by
  induction ks with
  | nil => simp [setTrack]
  | cons k ks ih =>
    rw [setTrack]
    split_ifs with hk
    · simp [setTrack, hk]
    · rw [setTrack, if_neg hk, ih, setTrack, if_neg hk]

theorem setTrack_self {ks : List (String × ℤ × KeyframeTrack F)}
    (h : (ks.find? fun k => k.1 = id && k.2.1 = element).map (fun k => k.2.2) = some track) :
    setTrack id element track ks = ks := by
  induction ks with
  | nil => simp at h
  | cons k ks ih =>
    rw [setTrack]
    split_ifs with hk
    · rw [List.find?_cons_of_pos (by simpa using hk), Option.map_some, Option.some.injEq] at h
      simp only [Bool.and_eq_true, decide_eq_true_eq] at hk
      rw [← hk.1, ← hk.2, ← h]
    · rw [List.find?_cons_of_neg (by simpa using hk)] at h
      rw [ih h]

theorem keyframeTrack_modify (f : KeyframeTrack F → KeyframeTrack F) :
    (core.modifyKeyframeTrack id element f).keyframeTrack id element =
      some (f ((core.keyframeTrack id element).getD .empty)) := by
  rw [keyframeTrack, modifyKeyframeTrack, find?_setTrack, Option.map_some]

theorem modify_modify (f h : KeyframeTrack F → KeyframeTrack F) :
    (core.modifyKeyframeTrack id element f).modifyKeyframeTrack id element h =
      core.modifyKeyframeTrack id element fun t => h (f t) := by
  rw [modifyKeyframeTrack, keyframeTrack_modify, modifyKeyframeTrack, modifyKeyframeTrack]
  dsimp only
  rw [setTrack_setTrack, Option.getD_some]

theorem modify_of_eq {f : KeyframeTrack F → KeyframeTrack F}
    (htrack : core.keyframeTrack id element = some track) (hf : f track = track) :
    core.modifyKeyframeTrack id element f = core := by
  rw [modifyKeyframeTrack, htrack, Option.getD_some, hf, setTrack_self htrack]

end NodeCore

namespace KeyframeTrack

variable {t : KeyframeTrack F} {time : Rational} {key : Keyframe F}

theorem setKeyValue_setKeyValue (t : KeyframeTrack F) (time : Rational) (v w : NodeValue F) :
    (t.setKeyValue time v).setKeyValue time w = t.setKeyValue time w := by
  refine KeyframeTrack.ext ?_
  rw [setKeyValue, setKeyValue, setKeyValue]
  dsimp only
  rw [List.map_map]
  refine List.map_congr_left fun k _ => ?_
  by_cases h : k.time = time <;> simp [withValueAt, h]

theorem setKeyValue_self (hk : key ∈ t.keys) : t.setKeyValue key.time key.value = t := by
  refine KeyframeTrack.ext ((List.map_congr_left fun l hl => ?_).trans (List.map_id _))
  rw [withValueAt]
  split_ifs with h
  · rw [eq_of_mem t.sorted hl hk h]
    rfl
  · rfl

theorem keys_setKey_of_missing {front back : List (Keyframe F)} (hkeys : t.keys = front ++ back)
    (hfront : ∀ l ∈ front, l.time < key.time) (hback : ∀ l ∈ back, key.time < l.time) :
    (t.setKey key).keys = front ++ key :: back := by
  change setKeyList key t.keys = _
  rw [hkeys, setKeyList_append hfront, setKeyList_of_lt hback]

theorem removeKey_setKey (h : ∀ k ∈ t.keys, k.time ≠ key.time) :
    (t.setKey key).removeKey key.time = t := by
  obtain ⟨front, back, hkeys, hfront, hback⟩ := exists_cut t.sorted key.time
  have hback' : ∀ l ∈ back, key.time < l.time := fun l hl =>
    lt_of_le_of_ne (hback l hl) (h l (hkeys ▸ List.mem_append_right _ hl)).symm
  refine KeyframeTrack.ext ?_
  change (t.setKey key).keys.filter _ = _
  rw [keys_setKey_of_missing hkeys hfront hback', hkeys, List.filter_append,
    List.filter_cons_of_neg (by simp), filter_ne_of_ne fun l hl => (hfront l hl).ne,
    filter_ne_of_ne fun l hl => (hback' l hl).ne']

theorem mem_setKey (h : ∀ k ∈ t.keys, k.time ≠ key.time) {k : Keyframe F} :
    k ∈ (t.setKey key).keys ↔ k = key ∨ k ∈ t.keys := by
  obtain ⟨front, back, hkeys, hfront, hback⟩ := exists_cut t.sorted key.time
  have hback' : ∀ l ∈ back, key.time < l.time := fun l hl =>
    lt_of_le_of_ne (hback l hl) (h l (hkeys ▸ List.mem_append_right _ hl)).symm
  rw [keys_setKey_of_missing hkeys hfront hback', hkeys, List.mem_append, List.mem_cons,
    List.mem_append]
  tauto

end KeyframeTrack

/-! ### What a mutation does to its node -/

namespace NodeCore

variable {core : NodeCore F} {id : String} {element : ℤ} {t : KeyframeTrack F}

variable [Interpolate F]

theorem valueAtTime_key (ht : core.keyframeTrack id element = some t) {k : Keyframe F}
    (hk : k ∈ t.keys) : core.valueAtTime id element k.time = k.value := by
  have hne : t.keys.isEmpty = false := List.isEmpty_eq_false_iff.2 (List.ne_nil_of_mem hk)
  simp only [valueAtTime, ht, hne, Bool.false_eq_true, if_false, KeyframeTrack.valueAt_key hk,
    Option.getD_some]

theorem valueAtTime_standard (h : core.keysOf id element = []) (time : Rational) :
    core.valueAtTime id element time = core.standardValue id element := by
  rw [keysOf] at h
  rw [valueAtTime]
  split
  · next t ht =>
    rw [ht, Option.map_some, Option.getD_some] at h
    rw [if_pos (List.isEmpty_iff.2 h)]
  · rfl

omit [Interpolate F] in
theorem standardValue_set (value : NodeValue F) :
    (core.setStandardValue id element value).standardValue id element = value := by
  simp [standardValue, setStandardValue]

omit [Interpolate F] in
theorem standardValue_set_self (id' : String) (element' : ℤ) {core' : NodeCore F}
    (hinputs : core'.inputs = core.inputs)
    (hother : ∀ p, p ≠ (id, element) → core'.standardValues p = core.standardValues p) :
    (core'.setStandardValue id element (core.standardValue id element)).standardValue id'
      element' = core.standardValue id' element' := by
  by_cases h : (id', element') = (id, element)
  · obtain ⟨rfl, rfl⟩ := Prod.mk.inj h
    exact standardValue_set _
  · have hget : (core'.setStandardValue id element
        (core.standardValue id element)).standardValues (id', element') =
        core.standardValues (id', element') :=
      (Function.update_of_ne h _ _).trans (hother _ h)
    rw [standardValue, hget]
    simp only [standardValue, getInput, setStandardValue, hinputs]

theorem valueAtTime_congr {core' : NodeCore F} (hkeys : core'.keyframes = core.keyframes)
    (hstandard : ∀ id element, core'.standardValue id element = core.standardValue id element)
    (id : String) (element : ℤ) (time : Rational) :
    core'.valueAtTime id element time = core.valueAtTime id element time := by
  rw [valueAtTime, valueAtTime, keyframeTrack, keyframeTrack, hkeys, hstandard]

end NodeCore

section Mutation

variable [Interpolate F]

/-- The mutation gives the input its value at the time, leaves the values at its other keys, and is
taken back and done again. -/
structure SetsValue (c : SetValueCommand F) (core : NodeCore F) (time : Rational)
    (value : NodeValue F) : Prop where
  value : (c.redoCore core).valueAtTime c.input c.element time = value
  keys : ∀ k ∈ core.keysOf c.input c.element, k.time ≠ time →
    (c.redoCore core).valueAtTime c.input c.element k.time =
      core.valueAtTime c.input c.element k.time
  tracks : (c.undoCore (c.redoCore core)).keyframes = core.keyframes
  restored : ∀ id element t, (c.undoCore (c.redoCore core)).valueAtTime id element t =
    core.valueAtTime id element t
  again : c.redoCore (c.undoCore (c.redoCore core)) = c.redoCore core

variable {core : NodeCore F} {node : NodeId} {input : String} {element : ℤ} {time : Rational}
  {t : KeyframeTrack F}

theorem SetsValue.of_undo {c : SetValueCommand F} {value : NodeValue F}
    (hundo : c.undoCore (c.redoCore core) = core)
    (hvalue : (c.redoCore core).valueAtTime c.input c.element time = value)
    (hkeys : ∀ k ∈ core.keysOf c.input c.element, k.time ≠ time →
      (c.redoCore core).valueAtTime c.input c.element k.time =
        core.valueAtTime c.input c.element k.time) : SetsValue c core time value :=
  ⟨hvalue, hkeys, by rw [hundo], fun _ _ _ => by rw [hundo], by rw [hundo]⟩

theorem setsValue_keyValue (ht : core.keyframeTrack input element = some t) {key : Keyframe F}
    (hkey : key ∈ t.keys) (value : NodeValue F) :
    SetsValue ⟨node, input, element, .keyValue key.time value key.value⟩ core key.time value := by
  have ht' : (core.modifyKeyframeTrack input element
      fun t => t.setKeyValue key.time value).keyframeTrack input element =
        some (t.setKeyValue key.time value) := by
    rw [NodeCore.keyframeTrack_modify, ht, Option.getD_some]
  refine .of_undo ?_ ?_ fun k hk hne => ?_
  · simp only [SetValueCommand.undoCore, SetValueCommand.redoCore, NodeCore.modify_modify]
    refine NodeCore.modify_of_eq ht ?_
    rw [KeyframeTrack.setKeyValue_setKeyValue, KeyframeTrack.setKeyValue_self hkey]
  · have hmem : { key with value := value } ∈ (t.setKeyValue key.time value).keys :=
      List.mem_map.2 ⟨key, hkey, if_pos rfl⟩
    exact NodeCore.valueAtTime_key ht' hmem
  · have hkeys : core.keysOf input element = t.keys := by
      rw [NodeCore.keysOf, ht]
      rfl
    have hold : k ∈ t.keys := hkeys ▸ hk
    have hmem : k ∈ (t.setKeyValue key.time value).keys :=
      List.mem_map.2 ⟨k, hold, if_neg hne⟩
    exact (NodeCore.valueAtTime_key ht' hmem).trans (NodeCore.valueAtTime_key ht hold).symm

theorem setsValue_newKey (ht : core.keyframeTrack input element = some t) {key : Keyframe F}
    (hnew : ∀ k ∈ t.keys, k.time ≠ key.time) :
    SetsValue ⟨node, input, element, .newKey key⟩ core key.time key.value := by
  have ht' : (core.modifyKeyframeTrack input element
      fun t => t.setKey key).keyframeTrack input element = some (t.setKey key) := by
    rw [NodeCore.keyframeTrack_modify, ht, Option.getD_some]
  refine .of_undo ?_ ?_ fun k hk hne => ?_
  · simp only [SetValueCommand.undoCore, SetValueCommand.redoCore, NodeCore.modify_modify]
    exact NodeCore.modify_of_eq ht (KeyframeTrack.removeKey_setKey hnew)
  · exact NodeCore.valueAtTime_key ht' ((KeyframeTrack.mem_setKey hnew).2 (.inl rfl))
  · have hkeys : core.keysOf input element = t.keys := by
      rw [NodeCore.keysOf, ht]
      rfl
    have hold : k ∈ t.keys := hkeys ▸ hk
    exact (NodeCore.valueAtTime_key ht' ((KeyframeTrack.mem_setKey hnew).2 (.inr hold))).trans
      (NodeCore.valueAtTime_key ht hold).symm

theorem setsValue_standard (h : core.keysOf input element = []) (value : NodeValue F)
    (time : Rational) :
    SetsValue ⟨node, input, element, .standard value (core.standardValue input element)⟩ core
      time value where
  value := by
    have hset : (core.setStandardValue input element value).keysOf input element = [] := h
    exact (NodeCore.valueAtTime_standard hset time).trans (NodeCore.standardValue_set value)
  keys k hk := by
    dsimp only at hk
    rw [h] at hk
    exact absurd hk List.not_mem_nil
  tracks := rfl
  restored := by
    refine NodeCore.valueAtTime_congr rfl fun id' element' => ?_
    exact NodeCore.standardValue_set_self id' element' rfl fun p hp => Function.update_of_ne hp _ _
  again := by
    simp [SetValueCommand.redoCore, SetValueCommand.undoCore, NodeCore.setStandardValue]

/-- The chosen mutation is right, whatever the input has at the time. -/
theorem setsValue_mutation [Zero F] (core : NodeCore F) (node : NodeId) (input : String)
    (element : ℤ) (time : Rational) (value : NodeValue F) :
    SetsValue ⟨node, input, element, Graph.setValueMutation core input element time value⟩ core
      time value := by
  rw [Graph.setValueMutation]
  split
  · next t ht =>
    split_ifs with hempty
    · refine setsValue_standard ?_ value time
      rw [NodeCore.keysOf, ht, Option.map_some, Option.getD_some]
      exact List.isEmpty_iff.1 hempty
    · split
      · next k hk =>
        obtain rfl : k.time = time := by simpa using List.find?_some hk
        exact setsValue_keyValue ht (List.mem_of_find?_eq_some hk) value
      · next hnone =>
        have hnew : ∀ k ∈ t.keys, k.time ≠ time := fun k hk => by
          simpa using List.find?_eq_none.1 hnone k hk
        exact setsValue_newKey ht hnew
  · next hnone =>
    refine setsValue_standard ?_ value time
    rw [NodeCore.keysOf, hnone]
    rfl

end Mutation

/-! ### The command on its graph -/

namespace Graph

variable {g : Graph F β} {node id : NodeId} {entry : NodeEntry F β}

theorem modifyCore_of_get (h : g.get node = some entry) (f : NodeCore F → NodeCore F) :
    g.modifyCore f node = g.setCore node entry (f entry.core) := by
  rw [modifyCore, h]

theorem get_modifyCore_of_get (h : g.get node = some entry) (f : NodeCore F → NodeCore F) :
    (g.modifyCore f node).get id =
      if id = node then some { entry with core := f entry.core } else g.get id := by
  rw [modifyCore_of_get h, get_setCore h]

theorem modifyCore_modifyCore (g : Graph F β) (node : NodeId) (f h : NodeCore F → NodeCore F) :
    (g.modifyCore f node).modifyCore h node = g.modifyCore (fun core => h (f core)) node := by
  cases hget : g.get node with
  | none =>
    have hsame (f : NodeCore F → NodeCore F) : g.modifyCore f node = g := by rw [modifyCore, hget]
    rw [hsame, hsame, hsame]
  | some entry =>
    have hself : (g.modifyCore f node).get node = some { entry with core := f entry.core } :=
      (get_modifyCore_of_get hget f).trans (if_pos rfl)
    rw [modifyCore_of_get hself, modifyCore_of_get hget, modifyCore_of_get hget, setCore, setCore,
      setCore]
    dsimp only
    rw [List.set_set]

variable [Interpolate F] [Zero F] {input : String}

/-- **A value is set at a time, and taken back.** For every input that a live node declares the
command is built. After `redo` the input has the value at the time and its old values at its other
keys; after `undo` every input has its old values and its old keys; and a second `redo` gives the
graph of the first. -/
theorem setsValue_setValueAtTime (hget : g.get node = some entry)
    (hdeclared : (entry.core.inputDataType input).isSome) (element : ℤ) (time : Rational)
    (value : NodeValue F) :
    ∃ c, g.setValueAtTimeCommand node input element time value = .ok c ∧
      (c.redo g).valueAtTime node input element time = some value ∧
      (∀ k ∈ g.keysOf node input element, k.time ≠ time →
        (c.redo g).valueAtTime node input element k.time =
          g.valueAtTime node input element k.time) ∧
      (∀ id input' element' t, (c.undo (c.redo g)).valueAtTime id input' element' t =
        g.valueAtTime id input' element' t) ∧
      (∀ id input' element', (c.undo (c.redo g)).keysOf id input' element' =
        g.keysOf id input' element') ∧
      c.redo (c.undo (c.redo g)) = c.redo g := by
  obtain ⟨valueType, htype⟩ := Option.isSome_iff_exists.1 hdeclared
  have hsets := setsValue_mutation entry.core node input element time value
  let c : SetValueCommand F :=
    ⟨node, input, element, setValueMutation entry.core input element time value⟩
  have hredo : (c.redo g).get node = some { entry with core := c.redoCore entry.core } :=
    (get_modifyCore_of_get hget c.redoCore).trans (if_pos rfl)
  have hundo : c.undo (c.redo g) =
      g.modifyCore (fun core => c.undoCore (c.redoCore core)) node :=
    modifyCore_modifyCore g node c.redoCore c.undoCore
  have hundone (id : NodeId) : (c.undo (c.redo g)).get id =
      if id = node then some { entry with core := c.undoCore (c.redoCore entry.core) }
      else g.get id := by
    rw [hundo]
    exact get_modifyCore_of_get hget fun core => c.undoCore (c.redoCore core)
  refine ⟨c, ?_, ?_, fun k hk hne => ?_, fun id input' element' t => ?_,
    fun id input' element' => ?_, ?_⟩
  · simp only [setValueAtTimeCommand, hget, htype, c]
  · rw [valueAtTime, hredo, Option.map_some]
    exact congrArg some hsets.value
  · rw [valueAtTime, valueAtTime, hredo, hget, Option.map_some, Option.map_some]
    rw [keysOf, hget, Option.map_some, Option.getD_some] at hk
    exact congrArg some (hsets.keys k hk hne)
  · rw [valueAtTime, valueAtTime, hundone]
    split_ifs with hid
    · rw [hid, hget, Option.map_some, Option.map_some]
      exact congrArg some (hsets.restored input' element' t)
    · rfl
  · rw [keysOf, keysOf, hundone]
    split_ifs with hid
    · rw [hid, hget, Option.map_some, Option.map_some, NodeCore.keysOf, NodeCore.keyframeTrack,
        hsets.tracks]
      rfl
    · rfl
  · have hagain : c.redo (c.undo (c.redo g)) =
        g.modifyCore (fun core => c.redoCore (c.undoCore (c.redoCore core))) node := by
      rw [hundo]
      exact modifyCore_modifyCore g node _ c.redoCore
    rw [hagain, modifyCore_of_get hget, hsets.again]
    exact (modifyCore_of_get hget c.redoCore).symm

/-- A node whose standard input has keys at `0` and `4`. -/
def keyedNode : NodeEntry ℚ Plain :=
  ⟨{ NodeCore.new with
      keyframes := [(enabledInput, -1,
        ⟨[⟨0, .boolean true, .hold, (0, 0), (0, 0)⟩, ⟨4, .boolean false, .hold, (0, 0), (0, 0)⟩],
          by simp⟩)] }, .plain, 0⟩

/-- A graph of that node. -/
def keyed : Graph ℚ Plain := ⟨[.live keyedNode], [], ∅, fun _ => none⟩

/-- A key is inserted between them. -/
theorem setsValue_setValueAtTime_inserted :
    ∃ c, keyed.setValueAtTimeCommand ⟨0, 0⟩ enabledInput (-1) 2 (.boolean false) = .ok c ∧
      (c.redo keyed).valueAtTime ⟨0, 0⟩ enabledInput (-1) 2 = some (.boolean false) := by
  have hslot : keyed.entries[(⟨0, 0⟩ : NodeId).index]? = some (.live keyedNode) := rfl
  have hget : keyed.get ⟨0, 0⟩ = some keyedNode := (get_of_live hslot).trans (if_pos ⟨rfl, rfl⟩)
  have hdeclared : (keyedNode.core.inputDataType enabledInput).isSome := rfl
  obtain ⟨c, hc, hvalue, -⟩ := setsValue_setValueAtTime hget hdeclared (-1) 2 (.boolean false)
  exact ⟨c, hc, hvalue⟩

end Graph

end Oak.Node
