import Mathlib.Data.Char
import Oak.Lib.Decimal
import Oak.Lib.SortedMap
import Oak.Lib.Text

/-!
# The configuration store

The store of `oak-core/src/configstore.rs`, as it is saved to `config.toml` and loaded from it.

Numbers with a fraction, and the library that prints and parses TOML, are parameters.

* `KeepsPlace`: no other key of the store takes the place of a key in the file.

## Main results

* `getEntry_load`: what a key has after the store was saved and loaded.
* `get_load_save`: which settings survive a restart, and what becomes of the others.
-/

namespace Oak.Core.Config

open Oak.Lib Text

/-- The errors of this module. -/
inductive Error where
  | invalid
  | notFound
  | failed (message : Text)
  deriving DecidableEq

/-- `EntryType`. -/
inductive EntryType where
  | none
  | string
  | int
  | double
  | bool
  deriving DecidableEq, Repr

/-- `ConfigValue`. -/
inductive ConfigValue (F : Type) where
  | string (s : Text)
  | int (i : Int64)
  | double (d : F)
  | bool (b : Bool)
  deriving DecidableEq

/-- `toml::Value`. A table has its entries in the order of their keys. -/
inductive TomlValue (F : Type) where
  | string (s : Text)
  | integer (i : Int64)
  | float (f : F)
  | boolean (b : Bool)
  | datetime (text : Text)
  | array (values : List (TomlValue F))
  | table (entries : List (Text × TomlValue F))

/-- The numbers with a fraction. -/
structure Floats (F : Type) where
  isFinite : F → Bool
  infinity : F
  negInfinity : F
  nan : F
  /-- `format_g`. -/
  formatG : F → Text
  /-- `str::parse`. -/
  parse : Text → Option F

/-- The library for TOML. -/
structure Toml (F : Type) where
  /-- `toml::Value::to_string`. -/
  display : TomlValue F → Text
  toStringPretty : TomlValue F → Except Text Text
  fromStr : Text → Except Text (TomlValue F)

/-- The library reads a value as it has written it. -/
def Toml.RoundTrips {F : Type} (toml : Toml F) (value : TomlValue F) : Prop :=
  ∃ content, toml.toStringPretty value = .ok content ∧ toml.fromStr content = .ok value

variable {F : Type} (num : Floats F) (toml : Toml F)

/-! ### Values -/

/-- `to_entry_type`. -/
def toEntryType : ConfigValue F → EntryType
  | .string _ => .string
  | .int _ => .int
  | .double _ => .double
  | .bool _ => .bool

/-- `value_to_string`. -/
def valueToString : ConfigValue F → Text
  | .string s => s
  | .int i => (toString i.toInt).toList
  | .double d => num.formatG d
  | .bool b => if b then "true".toList else "false".toList

/-- `str::parse` for an integer of 64 bits. -/
def parseI64 (s : Text) : Option Int64 :=
  (parseInt s).bind fun i => if -2 ^ 63 ≤ i ∧ i < 2 ^ 63 then some (Int64.ofInt i) else none

/-- `eq_ignore_ascii_case`. -/
def eqIgnoreAsciiCase (s t : Text) : Bool := s.map Char.toLower == t.map Char.toLower

/-- `string_to_value`. -/
def stringToValue (text : Text) : EntryType → Option (ConfigValue F)
  | .string => some (.string text)
  | .int => (parseI64 (text.dropWhile isWhitespace)).map .int
  | .double =>
    let t := text.dropWhile isWhitespace
    let parsed :=
      if eqIgnoreAsciiCase t "inf".toList || eqIgnoreAsciiCase t "+inf".toList ||
          eqIgnoreAsciiCase t "infinity".toList || eqIgnoreAsciiCase t "+infinity".toList then
        some num.infinity
      else if eqIgnoreAsciiCase t "-inf".toList || eqIgnoreAsciiCase t "-infinity".toList then
        some num.negInfinity
      else if eqIgnoreAsciiCase t "nan".toList || eqIgnoreAsciiCase t "+nan".toList ||
          eqIgnoreAsciiCase t "-nan".toList then
        some num.nan
      else num.parse t
    parsed.map .double
  | .bool =>
    if text = "true".toList ∨ text = "1".toList then some (.bool true)
    else if text = "false".toList ∨ text = "0".toList then some (.bool false)
    else none
  | .none => none

/-- `config_value_to_toml`. -/
def configValueToToml : ConfigValue F → TomlValue F
  | .string s => .string s
  | .int i => .integer i
  | .double d => if num.isFinite d then .float d else .string (valueToString num (.double d))
  | .bool b => .boolean b

/-- `toml_value_to_text`. -/
def tomlValueToText : TomlValue F → Text
  | .string s => s
  | value => toml.display value

/-- `toml_value_to_typed`. -/
def tomlValueToTyped (value : TomlValue F) : EntryType → Option (ConfigValue F)
  | .int =>
    match value with
    | .integer i => some (.int i)
    | _ => stringToValue num (tomlValueToText toml value) .int
  | .double =>
    match value with
    | .float f => some (.double f)
    | _ => stringToValue num (tomlValueToText toml value) .double
  | .bool =>
    match value with
    | .boolean b => some (.bool b)
    | _ => stringToValue num (tomlValueToText toml value) .bool
  | .string => some (.string (tomlValueToText toml value))
  | .none => none

/-- `toml_value_to_string`. -/
def tomlValueToString : TomlValue F → Text
  | .string s => s
  | .integer i => (toString i.toInt).toList
  | .boolean b => if b then "true".toList else "false".toList
  | .float f => num.formatG f
  | value => toml.display value

/-! ### The store -/

/-- `ConfigStore`: the entries in whatever order they come. -/
structure ConfigStore (F : Type) where
  entries : List (Text × ConfigValue F)
  nodup : (entries.map Prod.fst).Nodup

/-- `get_entry`. -/
def ConfigStore.getEntry (store : ConfigStore F) (key : Text) : Option (ConfigValue F) :=
  store.entries.lookup key

/-- `set_entry`. -/
def ConfigStore.setEntry (store : ConfigStore F) (key : Text) (value : ConfigValue F) :
    ConfigStore F where
  entries := (key, value) :: store.entries.filter fun e => e.1 ≠ key
  nodup := by
    rw [List.map_cons, List.nodup_cons]
    refine ⟨fun hmem => ?_, (List.filter_sublist.map Prod.fst).nodup store.nodup⟩
    obtain ⟨e, he, hkey⟩ := List.mem_map.1 hmem
    exact of_decide_eq_true (List.mem_filter.1 he).2 hkey

/-- The entries of `set_defaults`. -/
def defaults (F : Type) : List (Text × ConfigValue F) :=
  [("TimelineThumbnailMode".toList, .int 1),
    ("TimelineWaveformMode".toList, .int 1),
    ("DefaultSequenceWidth".toList, .int 1920),
    ("DefaultSequenceHeight".toList, .int 1080),
    ("DefaultSequenceFrameRate".toList, .string "1001/30000".toList),
    ("DefaultSequencePixelAspect".toList, .string "1/1".toList),
    ("DefaultSequenceInterlacing".toList, .int 0),
    ("DefaultSequenceAudioFrequency".toList, .int 48000),
    ("DefaultSequenceAudioLayout".toList, .int 3),
    ("OfflinePixelFormat".toList, .int 4),
    ("SplitClipsCopyNodes".toList, .bool true),
    ("UseProxyMedia".toList, .bool true),
    ("UseGLFinish".toList, .bool false),
    ("ReassocLinToNonLin".toList, .bool false),
    ("GraphicsBackend".toList, .string "opengl".toList),
    ("LUTLibraryPaths".toList, .string []),
    ("DiskCacheSaveInterval".toList, .int 10000),
    ("AutoCacheDelay".toList, .int 1000),
    ("DiskCacheBehind".toList, .string "0/1".toList),
    ("DiskCacheAhead".toList, .string "60/1".toList),
    ("ProxyWidth".toList, .int 1280),
    ("ProxyHeight".toList, .int 720),
    ("ProxyDivider".toList, .int 1),
    ("ProxyCRF".toList, .int 23),
    ("ProxyPreset".toList, .string "veryfast".toList),
    ("ProxyIncludeAudio".toList, .bool true),
    ("MarkerColor".toList, .int 6)] ++
  (List.range 12).map fun i => ("CatColor".toList ++ (toString i).toList, .int (Int64.ofNat i))

/-- The store after `set_defaults`. -/
def ConfigStore.setDefaults (F : Type) : ConfigStore F :=
  (defaults F).foldl (fun store e => store.setEntry e.1 e.2) ⟨[], List.nodup_nil⟩

/-- `join_key`. -/
def joinKey (group : Option Text) (key : Text) : Text :=
  match group with
  | some g => if g ≠ [] then g ++ '/' :: key else key
  | none => key

/-- `get`. -/
def ConfigStore.get (store : ConfigStore F) (group : Option Text) (key : Text) :
    Except Error Text :=
  if key = [] then .error .invalid
  else
    match store.getEntry (joinKey group key) with
    | none => .error .notFound
    | some v => .ok (valueToString num v)

/-- `set_bool`. -/
def ConfigStore.setBool (store : ConfigStore F) (group : Option Text) (key : Text) (v : Int32) :
    ConfigStore F :=
  if key = [] then store else store.setEntry (joinKey group key) (.bool (v ≠ 0))

/-! ### Loading -/

/-- `apply_toml_entry`. -/
def applyTomlEntry (fullKey : Text) (value : TomlValue F) (store : ConfigStore F) :
    ConfigStore F :=
  match store.getEntry fullKey with
  | some existing =>
    match tomlValueToTyped num toml value (toEntryType existing) with
    | some converted => store.setEntry fullKey converted
    | none => store
  | none => store.setEntry fullKey (.string (tomlValueToString num toml value))

/-- The key of an entry of a table. -/
def fullKey (pre key : Text) : Text := if pre = [] then key else pre ++ '/' :: key

/-- `flatten_toml`. -/
def flattenToml (pre : Text) : List (Text × TomlValue F) → ConfigStore F → ConfigStore F
  | [], store => store
  | (key, value) :: table, store =>
    match value with
    | .table sub => flattenToml pre table (flattenToml (fullKey pre key) sub store)
    | value => flattenToml pre table (applyTomlEntry num toml (fullKey pre key) value store)

/-- `apply_toml`. -/
def applyToml (parsed : TomlValue F) (store : ConfigStore F) : ConfigStore F :=
  match parsed with
  | .table table => flattenToml num toml [] table store
  | _ => store

/-- `load`, when the file is there. -/
def load (content : Text) : Except Error Unit × ConfigStore F :=
  match toml.fromStr content with
  | .error e =>
    (.error (.failed ("config.toml could not be parsed: ".toList ++ e)), .setDefaults F)
  | .ok parsed => (.ok (), applyToml num toml parsed (.setDefaults F))

/-! ### Saving -/

/-- The group of a key, and the key within the group. -/
def place (key : Text) : Text × Text := (splitLast '/' key).getD ([], key)

/-- The tables of the file, by their groups. -/
abbrev Sections (F : Type) := List (Text × List (Text × TomlValue F))

/-- An entry is put into its table. -/
def addEntry (sections : Sections F) (e : Text × ConfigValue F) : Sections F :=
  let p := place e.1
  insertKey p.1 (insertKey p.2 (configValueToToml num e.2) ((sections.lookup p.1).getD [])) sections

/-- The tables of a store. -/
def sections (store : ConfigStore F) : Sections F := store.entries.foldl (addEntry num) []

/-- The root table: the entries without a group, and then the groups. -/
def root (sections : Sections F) : List (Text × TomlValue F) :=
  let flat := ((sections.lookup []).getD []).foldl (fun root e => insertKey e.1 e.2 root) []
  (sections.filter fun g => g.1 ≠ []).foldl (fun root g => insertKey g.1 (.table g.2) root) flat

/-- The value that `save` writes. -/
def fileValue (store : ConfigStore F) : TomlValue F := .table (root (sections num store))

/-- `save`: the text of the file. -/
def save (store : ConfigStore F) : Except Error Text :=
  match toml.toStringPretty (fileValue num store) with
  | .error e => .error (.failed ("config.toml could not be serialized: ".toList ++ e))
  | .ok out => .ok out

/-- No other key of the store takes the place of a key in the file: a slash at its start is not its
only one, and when it has none, then no key is it with a slash in front or with a slash and a name
behind. -/
def KeepsPlace (store : ConfigStore F) (key : Text) : Prop :=
  (place key).1 = [] → '/' ∉ key ∧ ∀ e ∈ store.entries, e.1 ≠ '/' :: key ∧ (place e.1).1 ≠ key

variable {num toml} {store : ConfigStore F} {key k : Text} {value : TomlValue F}

/-! ### Entries -/

theorem getEntry_setEntry (store : ConfigStore F) (key k : Text) (v : ConfigValue F) :
    (store.setEntry key v).getEntry k = if k = key then some v else store.getEntry k := by
  have hfilter (l : List (Text × ConfigValue F)) (hne : k ≠ key) :
      (l.filter fun e => e.1 ≠ key).lookup k = l.lookup k := by
    induction l with
    | nil => rfl
    | cons e l ih =>
      by_cases he : e.1 = key
      · rw [List.filter_cons_of_neg (by simp [he]), ih, List.lookup_cons,
          beq_eq_false_iff_ne.2 (he ▸ hne)]
      · rw [List.filter_cons_of_pos (by simp [he]), List.lookup_cons, List.lookup_cons, ih]
  rw [ConfigStore.getEntry, ConfigStore.setEntry, List.lookup_cons]
  by_cases hk : k = key
  · rw [beq_iff_eq.2 hk, if_pos hk]
  · rw [beq_eq_false_iff_ne.2 hk, if_neg hk]
    exact hfilter store.entries hk

/-- What an entry of the file is read as, over the entry that the store has. -/
def readEntry (num : Floats F) (toml : Toml F) (existing : Option (ConfigValue F))
    (value : TomlValue F) : ConfigValue F :=
  match existing with
  | some existing => (tomlValueToTyped num toml value (toEntryType existing)).getD existing
  | none => .string (tomlValueToString num toml value)

theorem getEntry_applyTomlEntry_self (store : ConfigStore F) (key : Text) (value : TomlValue F) :
    (applyTomlEntry num toml key value store).getEntry key =
      some (readEntry num toml (store.getEntry key) value) := by
  rw [applyTomlEntry]
  rcases hold : store.getEntry key with _ | existing
  · dsimp only
    rw [getEntry_setEntry, if_pos rfl, readEntry]
  · rw [readEntry]
    dsimp only
    rcases htyped : tomlValueToTyped num toml value (toEntryType existing) with _ | converted
    · exact hold
    · dsimp only
      rw [getEntry_setEntry, if_pos rfl, Option.getD_some]

theorem getEntry_applyTomlEntry_of_ne (hk : k ≠ key) (store : ConfigStore F)
    (value : TomlValue F) :
    (applyTomlEntry num toml key value store).getEntry k = store.getEntry k := by
  rw [applyTomlEntry]
  split
  · split
    · rw [getEntry_setEntry, if_neg hk]
    · rfl
  · rw [getEntry_setEntry, if_neg hk]

/-! ### Tables -/

/-- A value that is no table. -/
def IsLeaf (value : TomlValue F) : Prop := ∀ sub, value ≠ .table sub

theorem isLeaf_configValueToToml (num : Floats F) (v : ConfigValue F) :
    IsLeaf (configValueToToml num v) := by
  intro sub
  cases v with
  | double d =>
    rw [configValueToToml]
    split_ifs <;> simp
  | _ => simp [configValueToToml]

/-- One round of the loop over a table. -/
def flattenEntry (num : Floats F) (toml : Toml F) (pre : Text) (store : ConfigStore F)
    (e : Text × TomlValue F) : ConfigStore F :=
  match e.2 with
  | .table sub => flattenToml num toml (fullKey pre e.1) sub store
  | value => applyTomlEntry num toml (fullKey pre e.1) value store

theorem flattenToml_eq_foldl (pre : Text) (table : List (Text × TomlValue F))
    (store : ConfigStore F) :
    flattenToml num toml pre table store = table.foldl (flattenEntry num toml pre) store := by
  induction table generalizing store with
  | nil => rw [flattenToml, List.foldl_nil]
  | cons e table ih =>
    obtain ⟨key, value⟩ := e
    rw [List.foldl_cons, flattenEntry]
    cases value with
    | table sub => rw [flattenToml, ih]
    | _ => rw [flattenToml, ih]; simp

theorem flattenEntry_of_isLeaf (h : IsLeaf value) (pre key : Text) (store : ConfigStore F) :
    flattenEntry num toml pre store (key, value) =
      applyTomlEntry num toml (fullKey pre key) value store := by
  rw [flattenEntry]
  split
  · next sub heq => exact absurd heq (h sub)
  · rfl

variable {table : List (Text × TomlValue F)}

/-- A table without tables in it has only the keys of its entries. -/
theorem getEntry_flattenToml_of_ne {pre : Text} (hleaf : ∀ e ∈ table, IsLeaf e.2)
    (hne : ∀ e ∈ table, k ≠ fullKey pre e.1) (store : ConfigStore F) :
    (flattenToml num toml pre table store).getEntry k = store.getEntry k := by
  rw [flattenToml_eq_foldl]
  refine foldl_eq_of_unchanged (g := fun s : ConfigStore F => s.getEntry k) (fun e he s => ?_) store
  rw [flattenEntry_of_isLeaf (hleaf e he)]
  exact getEntry_applyTomlEntry_of_ne (hne e he) s e.2

theorem fullKey_injective (pre : Text) {s s' : Text} (h : fullKey pre s = fullKey pre s') :
    s = s' := by
  rw [fullKey, fullKey] at h
  split_ifs at h
  · exact h
  · exact List.cons_inj_right _ |>.1 (List.append_cancel_left h)

/-- The parts of a list around an entry, when the keys differ. -/
theorem exists_middle {κ γ : Type*} {l : List (κ × γ)} (hnodup : (l.map Prod.fst).Nodup)
    {x : κ × γ} (hx : x ∈ l) :
    ∃ l₁ l₂, l = l₁ ++ x :: l₂ ∧ ∀ y, y ∈ l₁ ∨ y ∈ l₂ → y ∈ l ∧ y.1 ≠ x.1 := by
  obtain ⟨l₁, l₂, rfl⟩ := List.append_of_mem hx
  rw [List.map_append, List.map_cons, List.nodup_middle, List.nodup_cons,
    ← List.map_append] at hnodup
  refine ⟨l₁, l₂, rfl, fun y hy => ⟨?_, fun heq => hnodup.1 ?_⟩⟩
  · exact List.mem_append.2 (hy.imp id (List.mem_cons_of_mem x))
  · exact List.mem_map.2 ⟨y, List.mem_append.2 hy, heq⟩

variable {e : Text × TomlValue F}

theorem getEntry_flattenToml_of_mem {pre : Text} (hnodup : (table.map Prod.fst).Nodup)
    (hleaf : ∀ e ∈ table, IsLeaf e.2) (he : e ∈ table) (store : ConfigStore F) :
    (flattenToml num toml pre table store).getEntry (fullKey pre e.1) =
      some (readEntry num toml (store.getEntry (fullKey pre e.1)) e.2) := by
  obtain ⟨l₁, l₂, rfl, hothers⟩ := exists_middle hnodup he
  have hother (y) (hy : y ∈ l₁ ∨ y ∈ l₂) (s : ConfigStore F) :
      (flattenEntry num toml pre s y).getEntry (fullKey pre e.1) =
        s.getEntry (fullKey pre e.1) := by
    obtain ⟨hmem, hne⟩ := hothers y hy
    rw [flattenEntry_of_isLeaf (hleaf y hmem)]
    exact getEntry_applyTomlEntry_of_ne (fun heq => hne (fullKey_injective pre heq).symm) s y.2
  rw [flattenToml_eq_foldl]
  obtain ⟨t, ht, hmiddle⟩ := exists_foldl_middle
    (g := fun s : ConfigStore F => s.getEntry (fullKey pre e.1)) (x := e)
    (fun y hy => hother y (.inl hy)) (fun y hy => hother y (.inr hy)) store
  rw [hmiddle, flattenEntry_of_isLeaf (hleaf e he), getEntry_applyTomlEntry_self, ht]

/-! ### The tables of a store -/

theorem place_of_notMem (h : '/' ∉ k) : place k = ([], k) := by
  rw [place, splitLast_eq_none_iff.2 h, Option.getD_none]

theorem place_append {s : Text} (h : '/' ∉ s) (g : Text) : place (g ++ '/' :: s) = (g, s) := by
  rw [place, splitLast_append h, Option.getD_some]

theorem place_cases (k : Text) :
    '/' ∉ k ∧ place k = ([], k) ∨
      k = (place k).1 ++ '/' :: (place k).2 ∧ '/' ∉ (place k).2 := by
  rcases hlast : splitLast '/' k with _ | ⟨g, s⟩
  · have hnot := splitLast_eq_none_iff.1 hlast
    exact .inl ⟨hnot, place_of_notMem hnot⟩
  · obtain ⟨rfl, hnot⟩ := splitLast_eq_some_iff.1 hlast
    rw [place_append hnot]
    exact .inr ⟨rfl, hnot⟩

theorem notMem_place (k : Text) : '/' ∉ (place k).2 := by
  rcases place_cases k with ⟨hnot, hplace⟩ | ⟨-, hnot⟩
  · rwa [hplace]
  · exact hnot

/-- Two keys compete for a place only when one is the other with a slash in front. -/
theorem eq_of_place_eq {k' : Text} (h : place k' = place k) (hk : k' ≠ '/' :: k)
    (hslash : (place k).1 = [] → '/' ∉ k) : k' = k := by
  rcases place_cases k with ⟨hnot, hplace⟩ | ⟨heq, hnot⟩
  · rcases place_cases k' with ⟨-, hplace'⟩ | ⟨heq', -⟩
    · rw [hplace, hplace'] at h
      exact (Prod.mk.inj h).2
    · rw [h, hplace] at heq'
      exact absurd heq' hk
  · rcases place_cases k' with ⟨-, hplace'⟩ | ⟨heq', -⟩
    · rw [hplace'] at h
      refine absurd ?_ (hslash (Prod.ext_iff.1 h).1.symm)
      rw [heq]
      exact List.mem_append_right _ List.mem_cons_self
    · rw [heq', h, ← heq]

/-- The entry at a place. -/
def entryAt (m : Sections F) (p : Text × Text) : Option (TomlValue F) :=
  (m.lookup p.1).bind fun table => table.lookup p.2

theorem entryAt_addEntry (m : Sections F) (e : Text × ConfigValue F) (p : Text × Text) :
    entryAt (addEntry num m e) p =
      if p = place e.1 then some (configValueToToml num e.2) else entryAt m p := by
  rw [entryAt, addEntry, lookup_insertKey]
  by_cases hgroup : p.1 = (place e.1).1
  · rw [if_pos hgroup, Option.bind_some, lookup_insertKey]
    by_cases hname : p.2 = (place e.1).2
    · rw [if_pos hname, if_pos (Prod.ext hgroup hname)]
    · rw [if_neg hname, if_neg fun heq => hname (congrArg Prod.snd heq), entryAt, hgroup]
      cases m.lookup (place e.1).1 <;> rfl
  · rw [if_neg hgroup, if_neg fun heq => hgroup (congrArg Prod.fst heq), entryAt]

variable {v : ConfigValue F}

theorem entryAt_sections (h : (k, v) ∈ store.entries) (hplace : KeepsPlace store k) :
    entryAt (sections num store) (place k) = some (configValueToToml num v) := by
  obtain ⟨l₁, l₂, hl, hothers⟩ := exists_middle store.nodup h
  have hother (e) (he : e ∈ l₁ ∨ e ∈ l₂) (m : Sections F) :
      entryAt (addEntry num m e) (place k) = entryAt m (place k) := by
    obtain ⟨hmem, hne⟩ := hothers e he
    rw [entryAt_addEntry, if_neg]
    intro heq
    by_cases hgroup : (place k).1 = []
    · exact hne (eq_of_place_eq heq.symm ((hplace hgroup).2 e hmem).1 fun hg => (hplace hg).1)
    · refine hne (eq_of_place_eq heq.symm ?_ fun hg => absurd hg hgroup)
      rintro hslash
      -- with a slash in front the group is longer
      rcases place_cases k with ⟨-, hflat⟩ | ⟨hk, hnot⟩
      · exact hgroup (congrArg Prod.fst hflat)
      · have hlonger : place e.1 = ('/' :: (place k).1, (place k).2) := by
          rw [hslash]
          conv_lhs => rw [hk, ← List.cons_append]
          exact place_append hnot _
        rw [hlonger] at heq
        exact absurd (congrArg (fun p : Text × Text => p.1.length) heq) (by simp)
  rw [sections, hl]
  obtain ⟨t, -, hmiddle⟩ := exists_foldl_middle (g := fun m : Sections F => entryAt m (place k))
    (x := (k, v)) (fun e he => hother e (.inl he)) (fun e he => hother e (.inr he)) []
  rw [hmiddle, entryAt_addEntry, if_pos rfl]

/-- The tables of a store: in order, each of a key of the store, with names and no tables in it. -/
structure WellFormed (store : ConfigStore F) (m : Sections F) : Prop where
  sorted : Sorted m
  group : ∀ g ∈ m, ∃ e ∈ store.entries, (place e.1).1 = g.1
  tables : ∀ g ∈ m, Sorted g.2
  names : ∀ g ∈ m, ∀ e ∈ g.2, '/' ∉ e.1 ∧ IsLeaf e.2

theorem WellFormed.addEntry {m : Sections F} (h : WellFormed store m) {e : Text × ConfigValue F}
    (he : e ∈ store.entries) : WellFormed store (addEntry num m e) := by
  -- the table that the entry is put into
  have htable : Sorted ((m.lookup (place e.1).1).getD []) ∧
      ∀ x ∈ (m.lookup (place e.1).1).getD [], '/' ∉ x.1 ∧ IsLeaf x.2 := by
    rcases hlookup : m.lookup (place e.1).1 with _ | table
    · exact ⟨sorted_nil, fun x hx => absurd hx List.not_mem_nil⟩
    · have hmem := mem_of_lookup hlookup
      exact ⟨h.tables _ hmem, h.names _ hmem⟩
  refine ⟨sorted_insertKey h.sorted _ _, fun g hg => ?_, fun g hg => ?_, fun g hg x hx => ?_⟩
  · rcases mem_insertKey hg with rfl | hg
    · exact ⟨e, he, rfl⟩
    · exact h.group g hg
  · rcases mem_insertKey hg with rfl | hg
    · exact sorted_insertKey htable.1 _ _
    · exact h.tables g hg
  · rcases mem_insertKey hg with rfl | hg
    · rcases mem_insertKey hx with rfl | hx
      · exact ⟨notMem_place e.1, isLeaf_configValueToToml num e.2⟩
      · exact htable.2 x hx
    · exact h.names g hg x hx

theorem wellFormed_sections (num : Floats F) (store : ConfigStore F) :
    WellFormed store (sections num store) := by
  refine List.foldlRecOn (motive := WellFormed store) store.entries _ ?_
    fun m h e he => h.addEntry he
  exact ⟨sorted_nil, fun g hg => absurd hg List.not_mem_nil, fun g hg => absurd hg List.not_mem_nil,
    fun g hg => absurd hg List.not_mem_nil⟩

/-! ### The root table -/

theorem sorted_foldl_insertKey {α γ : Type*} (key : α → Text) (entry : α → γ) (l : List α)
    {m : List (Text × γ)} (h : Sorted m) :
    Sorted (l.foldl (fun m x => insertKey (key x) (entry x) m) m) :=
  List.foldlRecOn (motive := Sorted) l _ h fun _ hm x _ => sorted_insertKey hm (key x) (entry x)

theorem of_mem_foldl_insertKey {α γ : Type*} {key : α → Text} {entry : α → γ} {l : List α}
    {m : List (Text × γ)} {y : Text × γ}
    (h : y ∈ l.foldl (fun m x => insertKey (key x) (entry x) m) m) :
    y ∈ m ∨ ∃ x ∈ l, y = (key x, entry x) := by
  induction l generalizing m with
  | nil => exact .inl h
  | cons x l ih =>
    rcases ih h with hm | ⟨z, hz, rfl⟩
    · rcases mem_insertKey hm with rfl | hm
      · exact .inr ⟨x, List.mem_cons_self, rfl⟩
      · exact .inl hm
    · exact .inr ⟨z, List.mem_cons_of_mem x hz, rfl⟩

theorem lookup_foldl_insertKey_of_ne {γ δ : Type*} {l : List (Text × γ)} {f : γ → δ}
    (h : ∀ x ∈ l, k ≠ x.1) (m : List (Text × δ)) :
    (l.foldl (fun m x => insertKey x.1 (f x.2) m) m).lookup k = m.lookup k := by
  refine foldl_eq_of_unchanged (g := fun m : List (Text × δ) => m.lookup k) (fun x hx m => ?_) m
  rw [lookup_insertKey, if_neg (h x hx)]

theorem lookup_foldl_insertKey {γ δ : Type*} {l : List (Text × γ)} (f : γ → δ)
    (hnodup : (l.map Prod.fst).Nodup) {x : Text × γ} (hx : x ∈ l) (m : List (Text × δ)) :
    (l.foldl (fun m x => insertKey x.1 (f x.2) m) m).lookup x.1 = some (f x.2) := by
  obtain ⟨l₁, l₂, rfl, hothers⟩ := exists_middle hnodup hx
  have hother (y) (hy : y ∈ l₁ ∨ y ∈ l₂) (m : List (Text × δ)) :
      (insertKey y.1 (f y.2) m).lookup x.1 = m.lookup x.1 := by
    rw [lookup_insertKey, if_neg (hothers y hy).2.symm]
  obtain ⟨t, -, hmiddle⟩ := exists_foldl_middle (g := fun m : List (Text × δ) => m.lookup x.1)
    (x := x) (fun y hy => hother y (.inl hy)) (fun y hy => hother y (.inr hy)) m
  rw [hmiddle, lookup_insertKey, if_pos rfl]

variable {m : Sections F}

theorem sorted_root (m : Sections F) : Sorted (root m) :=
  sorted_foldl_insertKey _ _ _ (sorted_foldl_insertKey _ _ _ sorted_nil)

variable {y : Text × TomlValue F}

/-- The entries of the root table: the groups, and names that are not tables. -/
theorem of_mem_root (h : WellFormed store m) (hy : y ∈ root m) :
    (∃ table, y.2 = .table table ∧ (y.1, table) ∈ m ∧ y.1 ≠ []) ∨ '/' ∉ y.1 ∧ IsLeaf y.2 := by
  rcases of_mem_foldl_insertKey hy with hy | ⟨g, hg, rfl⟩
  · rcases of_mem_foldl_insertKey hy with hy | ⟨e, he, rfl⟩
    · exact absurd hy List.not_mem_nil
    · rcases hflat : m.lookup [] with _ | flat
      · rw [hflat] at he
        exact absurd he List.not_mem_nil
      · rw [hflat] at he
        exact .inr (h.names _ (mem_of_lookup hflat) e he)
  · obtain ⟨hmem, hne⟩ := List.mem_filter.1 hg
    exact .inl ⟨g.2, rfl, hmem, of_decide_eq_true hne⟩

theorem group_mem_root (h : WellFormed store m) {g : Text × List (Text × TomlValue F)}
    (hg : g ∈ m) (hne : g.1 ≠ []) : (g.1, TomlValue.table g.2) ∈ root m := by
  have hnodup : ((m.filter fun g => g.1 ≠ []).map Prod.fst).Nodup :=
    (List.filter_sublist.map Prod.fst).nodup h.sorted.nodup
  exact mem_of_lookup
    (lookup_foldl_insertKey TomlValue.table hnodup (List.mem_filter.2 ⟨hg, decide_eq_true hne⟩) _)

/-- A name without a group is in the root table, unless it is a group, too. -/
theorem flat_mem_root (h : WellFormed store m) {flat : List (Text × TomlValue F)}
    (hflat : m.lookup [] = some flat) (he : e ∈ flat) (hne : ∀ g ∈ m, e.1 ≠ g.1) : e ∈ root m := by
  refine mem_of_lookup (v := e.2) ?_
  have hgroups := lookup_foldl_insertKey_of_ne (l := m.filter fun g => g.1 ≠ [])
    (f := TomlValue.table) (k := e.1) (fun g hg => hne g (List.mem_filter.1 hg).1)
  rw [root, hgroups, hflat, Option.getD_some]
  exact lookup_foldl_insertKey (fun value => value) (h.tables _ (mem_of_lookup hflat)).nodup he []

/-- The key of the root table under which a key is found. -/
def rootKey (k : Text) : Text := if (place k).1 = [] then k else (place k).1

/-- A round over another key of the root table does not touch the key. -/
theorem getEntry_flattenEntry_of_ne (h : WellFormed store m) (hy : y ∈ root m)
    (hne : y.1 ≠ rootKey k) (s : ConfigStore F) :
    (flattenEntry num toml [] s y).getEntry k = s.getEntry k := by
  have hfull : fullKey [] y.1 = y.1 := if_pos rfl
  obtain ⟨key, value⟩ := y
  rcases of_mem_root h hy with ⟨table, rfl, hmem, hkey⟩ | ⟨hnot, hleaf⟩
  · rw [flattenEntry]
    dsimp only at hfull hmem hkey ⊢
    rw [hfull]
    refine getEntry_flattenToml_of_ne (fun e he => (h.names _ hmem e he).2) (fun e he heq => ?_) s
    rw [fullKey, if_neg hkey] at heq
    have hplace : place k = (key, e.1) := by rw [heq, place_append (h.names _ hmem e he).1]
    rw [rootKey, hplace, if_neg hkey] at hne
    exact hne rfl
  · rw [flattenEntry_of_isLeaf hleaf, hfull]
    refine getEntry_applyTomlEntry_of_ne ?_ s value
    rintro rfl
    rw [rootKey, place_of_notMem hnot, if_pos rfl] at hne
    exact hne rfl

/-- A key that keeps its place is read once, from what was written for it. -/
theorem getEntry_flattenToml_root (h : (k, v) ∈ store.entries) (hplace : KeepsPlace store k)
    (s : ConfigStore F) :
    (flattenToml num toml [] (root (sections num store)) s).getEntry k =
      some (readEntry num toml (s.getEntry k) (configValueToToml num v)) := by
  have hwell := wellFormed_sections num store
  have hslash : (place k).1 = [] → '/' ∉ k := fun hg => (hplace hg).1
  have hat : entryAt (sections num store) (place k) = some (configValueToToml num v) :=
    entryAt_sections h hplace
  obtain ⟨table, htable, hentry⟩ := Option.bind_eq_some_iff.1 hat
  have hmem := mem_of_lookup htable
  have he := mem_of_lookup hentry
  -- what the root table has for the key, and what is read from it
  obtain ⟨value, hroot, hread⟩ : ∃ value, (rootKey k, value) ∈ root (sections num store) ∧
      ∀ t : ConfigStore F, (flattenEntry num toml [] t (rootKey k, value)).getEntry k =
        some (readEntry num toml (t.getEntry k) (configValueToToml num v)) := by
    rw [rootKey]
    by_cases hg : (place k).1 = []
    · have hflat := place_of_notMem (hslash hg)
      rw [if_pos hg]
      rw [hflat] at htable he
      refine ⟨configValueToToml num v, flat_mem_root hwell htable he fun g hg' heq => ?_,
        fun t => ?_⟩
      · obtain ⟨e, he', hgroup⟩ := hwell.group g hg'
        exact ((hplace hg).2 e he').2 (hgroup.trans heq.symm)
      · rw [flattenEntry_of_isLeaf (isLeaf_configValueToToml num v), fullKey, if_pos rfl,
          getEntry_applyTomlEntry_self]
    · rw [if_neg hg]
      refine ⟨.table table, group_mem_root hwell hmem hg, fun t => ?_⟩
      have hfull : fullKey (fullKey [] (place k).1) (place k).2 = k := by
        rcases place_cases k with ⟨-, hflat⟩ | ⟨hk, -⟩
        · exact absurd (congrArg Prod.fst hflat) hg
        · rw [fullKey, fullKey, if_pos rfl, if_neg hg, ← hk]
      have hread : (flattenToml num toml (fullKey [] (place k).1) table t).getEntry
          (fullKey (fullKey [] (place k).1) (place k).2) = _ :=
        getEntry_flattenToml_of_mem (hwell.tables _ hmem).nodup
          (fun e he => (hwell.names _ hmem e he).2) he t
      dsimp only at hread
      rw [hfull] at hread
      exact hread
  obtain ⟨l₁, l₂, hl, hothers⟩ := exists_middle (sorted_root (sections num store)).nodup hroot
  have hother (y) (hy : y ∈ l₁ ∨ y ∈ l₂) (t : ConfigStore F) :
      (flattenEntry num toml [] t y).getEntry k = t.getEntry k := by
    obtain ⟨hmem, hne⟩ := hothers y hy
    exact getEntry_flattenEntry_of_ne hwell hmem hne t
  rw [flattenToml_eq_foldl, hl]
  obtain ⟨t, ht, hmiddle⟩ := exists_foldl_middle (g := fun s : ConfigStore F => s.getEntry k)
    (x := (rootKey k, value)) (fun y hy => hother y (.inl hy)) (fun y hy => hother y (.inr hy)) s
  rw [hmiddle, hread, ht]

/-! ### What survives -/

theorem mem_defaults : ∀ e ∈ (ConfigStore.setDefaults F).entries, e ∈ defaults F := by
  refine List.foldlRecOn (motive := fun s : ConfigStore F => ∀ e ∈ s.entries, e ∈ defaults F)
    (defaults F) _ (fun e he => absurd he List.not_mem_nil) fun s hs x hx e he => ?_
  rcases List.mem_cons.1 he with rfl | he
  · exact hx
  · exact hs e (List.mem_filter.1 he).1

theorem toEntryType_default {d : ConfigValue F}
    (h : (ConfigStore.setDefaults F).getEntry k = some d) : toEntryType d ≠ .double := by
  have hall : (defaults F).all (fun e => toEntryType e.2 ≠ .double) = true := rfl
  exact of_decide_eq_true (List.all_eq_true.1 hall _ (mem_defaults _ (mem_of_lookup h)))

theorem tomlValueToString_configValueToToml (v : ConfigValue F) :
    tomlValueToString num toml (configValueToToml num v) = valueToString num v := by
  cases v with
  | double d =>
    rw [configValueToToml]
    split_ifs <;> rfl
  | _ => rfl

/-- A value is read as what it was written from, when it is read by its own type. -/
theorem tomlValueToTyped_self (h : toEntryType v ≠ .double) :
    tomlValueToTyped num toml (configValueToToml num v) (toEntryType v) = some v := by
  cases v with
  | double d => exact absurd rfl h
  | _ => rfl

/-- A value that is read by another type is parsed from its text. -/
theorem tomlValueToTyped_of_ne {v d : ConfigValue F} (h : toEntryType v ≠ toEntryType d) :
    tomlValueToTyped num toml (configValueToToml num v) (toEntryType d) =
      stringToValue num (tomlValueToText toml (configValueToToml num v)) (toEntryType d) := by
  cases v with
  | double x =>
    rw [configValueToToml]
    cases d with
    | double y => exact absurd rfl h
    | _ => split_ifs <;> rfl
  | string s => cases d <;> rfl
  | int i =>
    cases d <;> first | rfl | exact absurd rfl h
  | bool b =>
    cases d <;> first | rfl | exact absurd rfl h

/-- What a key has after the store was saved and loaded. -/
theorem getEntry_load (hround : toml.RoundTrips (fileValue num store))
    (h : store.getEntry k = some v) (hplace : KeepsPlace store k) :
    ∃ content loaded, save num toml store = .ok content ∧
      load num toml content = (.ok (), loaded) ∧
        loaded.getEntry k = some (readEntry num toml ((ConfigStore.setDefaults F).getEntry k)
          (configValueToToml num v)) := by
  obtain ⟨content, hwrite, hread⟩ := hround
  refine ⟨content, flattenToml num toml [] (root (sections num store)) (.setDefaults F), ?_, ?_,
    getEntry_flattenToml_root (mem_of_lookup h) hplace _⟩
  · rw [save, hwrite]
  · rw [load, hread]
    rfl

/-- After the store was saved and loaded, a key that keeps its place in the file is there. A key
that is no default, and one with a value of the type of its default, has the same text as before,
and the latter has the same value. A default with a value of another type has what the text of this
value is by the type of the default, and the default when it is nothing. -/
theorem get_load_save {v : ConfigValue F} (hround : toml.RoundTrips (fileValue num store))
    (h : store.getEntry k = some v) (hplace : KeepsPlace store k) :
    ∃ content loaded w, save num toml store = .ok content ∧
      load num toml content = (.ok (), loaded) ∧ loaded.getEntry k = some w ∧
      ((∀ d, (ConfigStore.setDefaults F).getEntry k = some d → toEntryType v = toEntryType d) →
        ∀ group key, joinKey group key = k → loaded.get num group key = store.get num group key) ∧
      ∀ d, (ConfigStore.setDefaults F).getEntry k = some d →
        (toEntryType v = toEntryType d → w = v) ∧
        (toEntryType v ≠ toEntryType d → w =
          (stringToValue num (tomlValueToText toml (configValueToToml num v))
            (toEntryType d)).getD d) := by
  obtain ⟨content, loaded, hsave, hload, hentry⟩ := getEntry_load hround h hplace
  have htyped (d) (hd : (ConfigStore.setDefaults F).getEntry k = some d)
      (htype : toEntryType v = toEntryType d) :
      readEntry num toml (some d) (configValueToToml num v) = v := by
    rw [readEntry, ← htype, tomlValueToTyped_self (htype ▸ toEntryType_default hd),
      Option.getD_some]
  refine ⟨content, loaded, _, hsave, hload, hentry, fun hsame group key hkey => ?_, fun d hd => ?_⟩
  · have htext : valueToString num (readEntry num toml ((ConfigStore.setDefaults F).getEntry k)
        (configValueToToml num v)) = valueToString num v := by
      rcases hd : (ConfigStore.setDefaults F).getEntry k with _ | d
      · exact tomlValueToString_configValueToToml v
      · rw [htyped d hd (hsame d hd)]
    rw [ConfigStore.get, ConfigStore.get, hkey, hentry, h]
    dsimp only
    rw [htext]
  · rw [hd]
    refine ⟨htyped d hd, fun htype => ?_⟩
    rw [readEntry, tomlValueToTyped_of_ne htype]

/-- A library that knows one value and its text. -/
def Toml.ofPair (content : Text) (value : TomlValue F) : Toml F where
  display _ := []
  toStringPretty _ := .ok content
  fromStr _ := .ok value

theorem get_load_save_group :
    let num : Floats ℚ := ⟨fun _ => true, 0, 0, 0, fun _ => [], fun _ => none⟩
    let toml : Toml ℚ := .ofPair "[\"a/b\"]\nc = 5\n".toList
      (.table [(['a', '/', 'b'], .table [(['c'], .integer 5)])])
    let store : ConfigStore ℚ := ⟨[(['a', '/', 'b', '/', 'c'], .int 5)], List.nodup_singleton _⟩
    ∃ content loaded, save num toml store = .ok content ∧
      load num toml content = (.ok (), loaded) ∧
      loaded.get num (some ['a', '/', 'b']) ['c'] = store.get num (some ['a', '/', 'b']) ['c'] := by
  intro num toml store
  have hplace : KeepsPlace store ['a', '/', 'b', '/', 'c'] := fun h => absurd h (by decide)
  have hdefault : (ConfigStore.setDefaults ℚ).getEntry ['a', '/', 'b', '/', 'c'] = none := by
    decide +kernel
  have hround : toml.RoundTrips (fileValue num store) := ⟨_, rfl, rfl⟩
  have hentry : store.getEntry ['a', '/', 'b', '/', 'c'] = some (.int 5) := rfl
  obtain ⟨content, loaded, w, hsave, hload, -, htext, -⟩ := get_load_save hround hentry hplace
  refine ⟨content, loaded, hsave, hload, htext (fun d hd => ?_) _ _ rfl⟩
  rw [hdefault] at hd
  cases hd

/-- A flag over a default that is a number is no number: the default is loaded. -/
theorem not_get_load_save : ∃ store : ConfigStore ℚ,
    store = (ConfigStore.setDefaults ℚ).setBool none "ProxyWidth".toList 1 ∧
      ∀ (num : Floats ℚ) (toml : Toml ℚ), (∀ b, toml.display (.boolean b) =
          if b then "true".toList else "false".toList) →
        toml.RoundTrips (fileValue num store) →
        ∃ content loaded, save num toml store = .ok content ∧
          load num toml content = (.ok (), loaded) ∧
          store.get num none "ProxyWidth".toList = .ok "true".toList ∧
          loaded.get num none "ProxyWidth".toList = .ok "1280".toList := by
  have hkey : "ProxyWidth".toList ≠ [] ∧ '/' ∉ "ProxyWidth".toList := by decide
  have hslash : ∀ e ∈ defaults ℚ, '/' ∉ e.1 := by decide +kernel
  have hdefault : (ConfigStore.setDefaults ℚ).getEntry "ProxyWidth".toList = some (.int 1280) := by
    decide +kernel
  have hparse : parseI64 ("true".toList.dropWhile isWhitespace) = none := by decide
  have htext : (toString (1280 : Int64).toInt).toList = "1280".toList := by decide
  refine ⟨_, rfl, fun num toml hdisplay hround => ?_⟩
  generalize "ProxyWidth".toList = k at *
  have hflag : decide ((1 : Int32) ≠ 0) = true := by decide
  rw [ConfigStore.setBool, if_neg hkey.1, joinKey, hflag] at hround ⊢
  have hentry : ((ConfigStore.setDefaults ℚ).setEntry k (.bool true)).getEntry k =
      some (.bool true) := by
    rw [getEntry_setEntry, if_pos rfl]
  have hplace : KeepsPlace ((ConfigStore.setDefaults ℚ).setEntry k (.bool true)) k := by
    refine fun _ => ⟨hkey.2, fun e he => ?_⟩
    have hnot : '/' ∉ e.1 := by
      rcases List.mem_cons.1 he with rfl | he
      · exact hkey.2
      · exact hslash e (mem_defaults e (List.mem_filter.1 he).1)
    refine ⟨fun heq => hnot (heq ▸ List.mem_cons_self), ?_⟩
    rw [place_of_notMem hnot]
    exact hkey.1.symm
  obtain ⟨content, loaded, hsave, hload, hloaded⟩ := getEntry_load hround hentry hplace
  refine ⟨content, loaded, hsave, hload, ?_, ?_⟩
  · rw [ConfigStore.get, if_neg hkey.1, joinKey, hentry]
    rfl
  · have hread : readEntry num toml (some (.int 1280)) (configValueToToml num (.bool true)) =
        .int 1280 := by
      rw [readEntry, configValueToToml, toEntryType, tomlValueToTyped, tomlValueToText, hdisplay,
        if_pos rfl, stringToValue, hparse, Option.map_none, Option.getD_none]
      · rintro i ⟨⟩
      · rintro s ⟨⟩
    rw [ConfigStore.get, if_neg hkey.1, joinKey, hloaded, hdefault, hread]
    dsimp only
    rw [valueToString, htext]

end Oak.Core.Config
