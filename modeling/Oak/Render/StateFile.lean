import Oak.Core.Ratio
import Oak.Lib.Ranges
import Mathlib.Data.List.TakeDrop

/-!
# The state file of a playback cache

`oak-render/src/cache.rs`: a cache knows the ranges of time that are validated, and those that
another cache holds for it, its passthroughs. `save_state` writes both to the file `state` in the
directory of the cache's uuid, and `load_state` and `set_uuid` read it.

* `ByteReader` is what is left of a file; a read past its end gives zeros.
* `loadRanges` and `loadPassthroughs` are the two loops of `load_state`, which run as often as the
  file says and insert what they read into what the cache has.
* `complete` and `incomplete` are the records of a file that are there as a whole, and the one that
  its end cuts off.
* A state file is kept with the time of its last modification.

## Main results

* `roundTrip_iff`: when a saved state is loaded exactly, by a new cache and by another one.
* `safe_iff`: when a file of any content is read in as many steps as it has bytes at most, and
  validates only what it lists.
* `stateFile_iff`: both.
* `stateFile_merged_and_unbacked`: ranges that were there before stay, and a range that the end of
  the file cuts off validates what lies before it.
-/

namespace Oak.Render

open Oak.Core Oak.Lib

inductive CacheKind where
  | videoFrame | thumbnail | audioPlayback | audioWaveform
  deriving DecidableEq, Repr

def CacheKind.isFrameHash : CacheKind → Bool
  | .videoFrame | .thumbnail => true
  | _ => false

/-- `TimeRange`. -/
abbrev CacheRange := Range Ratio

/-! ### Uuids -/

def hexDigit (n : ℕ) : Char := "0123456789abcdef".toList.getD n '0'

/-- `to_digit(16).unwrap_or(0)`. -/
def digitValue (c : Char) : ℕ :=
  if '0' ≤ c ∧ c ≤ '9' then c.toNat - 48
  else if 'a' ≤ c ∧ c ≤ 'f' then c.toNat - 87
  else if 'A' ≤ c ∧ c ≤ 'F' then c.toNat - 55
  else 0

/-- The two digits of the byte at `i`, after a dash where a group ends. -/
def byteText (b : UInt8) (i : ℕ) : List Char :=
  (if i = 4 ∨ i = 6 ∨ i = 8 ∨ i = 10 then ['-'] else []) ++
    [hexDigit (b.toNat / 16), hexDigit (b.toNat % 16)]

/-- `bytes_to_uuid_text`. -/
def bytesToUuidText (bytes : List UInt8) : String :=
  String.ofList ('{' :: (bytes.zipIdx.flatMap fun x => byteText x.1 x.2) ++ ['}'])

/-- The loop of `uuid_text_to_bytes`. -/
def parseUuid : List Char → ℕ → List UInt8 → List UInt8
  | [], _, bytes => bytes
  | c :: cs, nibble, bytes =>
    if c = '{' ∨ c = '}' ∨ c = '-' then parseUuid cs nibble bytes
    else if 32 ≤ nibble then bytes
    else
      let d := UInt8.ofNat (digitValue c)
      let bytes :=
        if nibble % 2 = 0 then bytes.set (nibble / 2) (d <<< 4)
        else bytes.modify (nibble / 2) fun b => b ||| d
      parseUuid cs (nibble + 1) bytes

/-- `uuid_text_to_bytes`. -/
def uuidTextToBytes (uuid : String) : List UInt8 :=
  parseUuid uuid.toList 0 (List.replicate 16 0)

/-- A uuid as text, in the canonical form. -/
structure Uuid where
  text : String
  canonical : ∃ bytes : List UInt8, bytes.length = 16 ∧ text = bytesToUuidText bytes
  deriving DecidableEq

def Uuid.ofBytes (bytes : List UInt8) (h : bytes.length = 16) : Uuid :=
  ⟨bytesToUuidText bytes, bytes, h, rfl⟩

/-! ### Bytes -/

/-- `write_be_u32`. -/
def writeBeU32 (v : ℕ) : List UInt8 :=
  [UInt8.ofNat (v / 2 ^ 24), UInt8.ofNat (v / 2 ^ 16), UInt8.ofNat (v / 2 ^ 8), UInt8.ofNat v]

/-- `write_be_i32`, with the conversion to `i32`. -/
def writeBeI32 (v : ℤ) : List UInt8 := writeBeU32 (v % 2 ^ 32).toNat

/-- What is left to read. -/
abbrev ByteReader := List UInt8

/-- `read_be`: missing bytes are zeros. -/
def readBe (bytes : ℕ) (r : ByteReader) : ℕ × ByteReader :=
  ((r.takeD bytes 0).foldl (fun v b => v * 256 + b.toNat) 0, r.drop bytes)

def readU32 (r : ByteReader) : ℕ × ByteReader := readBe 4 r

/-- The conversion of a `u32` to `i32`. -/
def toI32 (v : ℕ) : ℤ := if v < 2 ^ 31 then v else v - 2 ^ 32

def readI32 (r : ByteReader) : ℤ × ByteReader := (toI32 (readBe 4 r).1, (readBe 4 r).2)

def readUuid (r : ByteReader) : Uuid × ByteReader :=
  (.ofBytes (r.takeD 16 0) (List.takeD_length 16 r 0), r.drop 16)

/-- The four numbers of a range. -/
def readRange (r : ByteReader) : CacheRange × ByteReader :=
  let inNum := readI32 r
  let inDen := readI32 inNum.2
  let outNum := readI32 inDen.2
  let outDen := readI32 outNum.2
  (.new (.new inNum.1 inDen.1) (.new outNum.1 outDen.1), outDen.2)

def writeRange (x : CacheRange) : List UInt8 :=
  writeBeI32 x.in_.numerator ++ writeBeI32 x.in_.denominator ++
    writeBeI32 x.out.numerator ++ writeBeI32 x.out.denominator

/-- A range and the uuid of the cache that holds it. -/
def writePassthrough (p : CacheRange × Uuid) : List UInt8 :=
  writeRange p.1 ++ uuidTextToBytes p.2.text

/-- The first loop of `load_state`. -/
def loadRanges : ℕ → ByteReader → List CacheRange → List CacheRange × ByteReader
  | 0, r, validated => (validated, r)
  | n + 1, r, validated => loadRanges n (readRange r).2 (insertRange validated (readRange r).1)

/-- The second loop of `load_state`. -/
def loadPassthroughs :
    ℕ → ByteReader → List (CacheRange × Uuid) → List (CacheRange × Uuid) × ByteReader
  | 0, r, passthroughs => (passthroughs, r)
  | n + 1, r, passthroughs =>
    let range := readRange r
    let uuid := readUuid range.2
    loadPassthroughs n uuid.2 (passthroughs ++ [(range.1, uuid.1)])

/-- The validated ranges of a file, with their count. -/
def loadValidated (r : ByteReader) (validated : List CacheRange) :
    List CacheRange × ByteReader × ℕ :=
  let count := readI32 r
  let loaded := loadRanges count.1.toNat count.2 validated
  (loaded.1, loaded.2, count.1.toNat)

/-- The passthroughs of a file, with their count. -/
def loadPassed (r : ByteReader) (passthroughs : List (CacheRange × Uuid)) :
    List (CacheRange × Uuid) × ℕ :=
  let count := readI32 r
  ((loadPassthroughs count.1.toNat count.2 passthroughs).1, count.1.toNat)

variable {l : List CacheRange}

theorem loadRanges_apart {n : ℕ} {r : ByteReader} (h : Apart l) : Apart (loadRanges n r l).1 := by
  induction n generalizing r l with
  | zero => exact h
  | succ n ih => exact ih (h.insert _)

theorem loadValidated_apart {r : ByteReader} (h : Apart l) : Apart (loadValidated r l).1 := by
  rw [loadValidated]
  dsimp only
  exact loadRanges_apart h

/-! ### Caches -/

/-- `PlaybackCache`, whose validated ranges do not touch one another. -/
structure PlaybackCache (kind : CacheKind) where
  uuid : Uuid
  timebase : Option Ratio
  validated : List CacheRange
  passthroughs : List (CacheRange × Uuid)
  savingEnabled : Bool
  diskDir : String
  lastLoadedState : ℤ
  apart : Apart validated

/-- The state files, by the root directory and the uuid, with their times of modification. -/
abbrev Disk := String → Uuid → Option (ℤ × List UInt8)

namespace PlaybackCache

variable {kind : CacheKind}

def new (uuid : Uuid) (diskDir : String) : PlaybackCache kind where
  uuid := uuid
  timebase := none
  validated := []
  passthroughs := []
  savingEnabled := true
  diskDir := diskDir
  lastLoadedState := 0
  apart := List.Pairwise.nil

/-- The event of the frame hash caches in a state file. -/
def loadTimebase (kind : CacheKind) (timebase : Option Ratio) (r : ByteReader) :
    Option Ratio × ByteReader :=
  if kind.isFrameHash then
    let eventVersion := readU32 r
    if eventVersion.1 = 1 then
      let num := readI32 eventVersion.2
      let den := readI32 num.2
      (if 0 < num.1 ∧ 0 < den.1 then some (.new num.1 den.1) else timebase, den.2)
    else (timebase, eventVersion.2)
  else (timebase, r)

variable (c : PlaybackCache kind)

/-- `load_state` with the content of the file, and how often its loops run. -/
def loadFile (fileTime : ℤ) (data : List UInt8) : PlaybackCache kind × ℕ :=
  let version := readU32 data
  let timebase := loadTimebase kind c.timebase version.2
  if version.1 = 1 then
    let validated := loadValidated timebase.2 c.validated
    let passthroughs := loadPassed validated.2.1 c.passthroughs
    ({ c with
        timebase := timebase.1
        validated := validated.1
        passthroughs := passthroughs.1
        lastLoadedState := fileTime
        apart := loadValidated_apart c.apart },
      validated.2.2 + passthroughs.2)
  else ({ c with timebase := timebase.1, lastLoadedState := fileTime }, 0)

/-- `load_state` when there is a file: one that is not newer than the last is not read. -/
def load (fileTime : ℤ) (data : List UInt8) : PlaybackCache kind × ℕ :=
  if fileTime ≤ c.lastLoadedState then (c, 0) else c.loadFile fileTime data

/-- `load_state`. -/
def loadState (cacheDir : String) (disk : Disk) : PlaybackCache kind :=
  match disk cacheDir c.uuid with
  | none => { c with validated := [], passthroughs := [], apart := List.Pairwise.nil }
  | some (fileTime, data) => (c.load fileTime data).1

/-- The cache under another uuid. -/
def withUuid (uuid : Uuid) : PlaybackCache kind := { c with uuid := uuid }

/-- The event of the frame hash caches. -/
def writeTimebase : List UInt8 :=
  if kind.isFrameHash then
    let timebase := c.timebase.getD (.new 1 1)
    writeBeU32 1 ++ (writeBeI32 timebase.numerator ++ writeBeI32 timebase.denominator)
  else []

/-- The bytes that `save_state` writes. -/
def encode : List UInt8 :=
  writeBeU32 1 ++ (c.writeTimebase ++
    (writeBeI32 c.validated.length ++ (c.validated.flatMap writeRange ++
      (writeBeI32 c.passthroughs.length ++ c.passthroughs.flatMap writePassthrough))))

/-- `save_state` at the time `now`. -/
def saveState (cacheDir : String) (now : ℤ) (disk : Disk) : Disk :=
  fun dir uuid =>
    if dir = cacheDir ∧ uuid = c.uuid then
      if c.validated = [] ∧ c.passthroughs = [] then none else some (now, c.encode)
    else disk dir uuid

/-- The save at the end of a change. -/
def saveIfEnabled (now : ℤ) (disk : Disk) : PlaybackCache kind × Disk :=
  (c, if c.savingEnabled then c.saveState c.diskDir now disk else disk)

def validate (range : CacheRange) (now : ℤ) (disk : Disk) : PlaybackCache kind × Disk :=
  saveIfEnabled
    { c with validated := insertRange c.validated range, apart := c.apart.insert range } now disk

/-- `overlaps`. -/
def overlaps (a b : CacheRange) : Bool := !(b.out ≤ a.in_ || a.out ≤ b.in_)

def invalidate (range : CacheRange) (now : ℤ) (disk : Disk) : PlaybackCache kind × Disk :=
  if h : range.in_ = range.out then (c, disk)
  else
    saveIfEnabled
      { c with
        validated := removeRange c.validated range
        passthroughs := c.passthroughs.filter fun p => !overlaps p.1 range
        apart := c.apart.remove (lt_of_le_of_ne range.le h) } now disk

def setPassthrough (c other : PlaybackCache kind) (now : ℤ) (disk : Disk) :
    PlaybackCache kind × Disk :=
  saveIfEnabled
    { c with
      passthroughs := c.passthroughs ++ (other.validated.map fun r => (r, other.uuid)) ++
        other.passthroughs
      timebase := if kind.isFrameHash then other.timebase.or c.timebase else c.timebase } now disk

end PlaybackCache

/-! ### Reading what was written -/

variable {r : ByteReader}

theorem readBe_writeBeU32 {v : ℕ} (hv : v < 2 ^ 32) : readBe 4 (writeBeU32 v ++ r) = (v, r) := by
  simp only [readBe, writeBeU32, List.cons_append, List.nil_append, List.takeD_succ,
    List.head?_cons, Option.getD_some, List.tail_cons, List.takeD_zero, List.foldl_cons,
    List.foldl_nil, UInt8.toNat_ofNat', List.drop_succ_cons, List.drop_zero, Prod.mk.injEq,
    and_true]
  omega

theorem readI32_writeBeI32 (v : ℤ) :
    readI32 (writeBeI32 v ++ r) = (toI32 (v % 2 ^ 32).toNat, r) := by
  have hlt : (v % 2 ^ 32).toNat < 2 ^ 32 := by omega
  rw [readI32, writeBeI32, readBe_writeBeU32 hlt]

theorem toI32_emod {v : ℤ} (h : -2147483648 ≤ v ∧ v < 2147483648) :
    toI32 (v % 2 ^ 32).toNat = v := by
  rw [toI32]
  split_ifs with hlt
  · omega
  · omega

theorem readI32_numerator (x : Ratio) :
    readI32 (writeBeI32 x.numerator ++ r) = (x.numerator, r) := by
  have hbound := x.abs_numerator_le
  rw [readI32_writeBeI32, toI32_emod (by omega)]

theorem readI32_denominator (x : Ratio) :
    readI32 (writeBeI32 x.denominator ++ r) = (x.denominator, r) := by
  have hbound := x.denominator_le
  rw [readI32_writeBeI32, toI32_emod (by omega)]

theorem readRange_writeRange (x : CacheRange) : readRange (writeRange x ++ r) = (x, r) := by
  simp only [readRange, writeRange, List.append_assoc, readI32_numerator, readI32_denominator,
    Ratio.new_numerator_denominator, Range.new_in_out]

theorem digitValue_hexDigit {n : ℕ} (hn : n < 16) : digitValue (hexDigit n) = n := by
  have hall : ∀ i : Fin 16, digitValue (hexDigit i) = i := by decide
  exact hall ⟨n, hn⟩

theorem hexDigit_ne {n : ℕ} (hn : n < 16) :
    ¬ (hexDigit n = '{' ∨ hexDigit n = '}' ∨ hexDigit n = '-') := by
  have hall : ∀ i : Fin 16, ¬ (hexDigit i = '{' ∨ hexDigit i = '}' ∨ hexDigit i = '-') := by decide
  exact hall ⟨n, hn⟩

theorem shift_or_eq (b : UInt8) :
    UInt8.ofNat (b.toNat / 16) <<< 4 ||| UInt8.ofNat (b.toNat % 16) = b := by
  have hall : ∀ i : Fin 256, UInt8.ofNat ((UInt8.ofFin i).toNat / 16) <<< 4 |||
      UInt8.ofNat ((UInt8.ofFin i).toNat % 16) = UInt8.ofFin i := by decide +kernel
  exact hall b.toFin

theorem parseUuid_byteText {b : UInt8} {i : ℕ} (hi : i < 16) {cs : List Char}
    {bytes : List UInt8} :
    parseUuid (byteText b i ++ cs) (2 * i) bytes = parseUuid cs (2 * (i + 1)) (bytes.set i b) := by
  have hhigh : b.toNat / 16 < 16 := by
    have hlt := b.toNat_lt
    omega
  have hlow : b.toNat % 16 < 16 := Nat.mod_lt _ (by decide)
  have hdigits :
      parseUuid ([hexDigit (b.toNat / 16), hexDigit (b.toNat % 16)] ++ cs) (2 * i) bytes =
      parseUuid cs (2 * (i + 1)) (bytes.set i b) := by
    rw [List.cons_append, List.cons_append, List.nil_append, parseUuid, if_neg (hexDigit_ne hhigh),
      if_neg (by omega)]
    dsimp only
    rw [if_pos (by omega), parseUuid, if_neg (hexDigit_ne hlow), if_neg (by omega)]
    dsimp only
    rw [if_neg (by omega), digitValue_hexDigit hhigh, digitValue_hexDigit hlow]
    have hhalf : 2 * i / 2 = i := by omega
    have hhalf' : (2 * i + 1) / 2 = i := by omega
    rw [hhalf, hhalf']
    congr 1
    refine List.ext_getElem? fun j => ?_
    rw [List.getElem?_modify, List.getElem?_set, List.getElem?_set]
    split_ifs
    · rw [Option.map_eq_map, Option.map_some, shift_or_eq]
    · rfl
    · simp
  rw [byteText]
  split_ifs
  · rw [List.append_assoc, List.cons_append, List.nil_append, parseUuid, if_pos (by simp)]
    exact hdigits
  · exact hdigits

theorem parseUuid_flatMap {l : List UInt8} (pre old : List UInt8) (hold : old.length = l.length)
    (hlength : pre.length + l.length = 16) (cs : List Char) :
    parseUuid (((l.zipIdx pre.length).flatMap fun x => byteText x.1 x.2) ++ cs) (2 * pre.length)
      (pre ++ old) = parseUuid cs 32 (pre ++ l) := by
  induction l generalizing pre old with
  | nil =>
    rw [List.length_nil] at hold hlength
    rw [List.eq_nil_of_length_eq_zero hold, List.zipIdx_nil, List.flatMap_nil, List.nil_append]
    congr 1
    omega
  | cons b l ih =>
    cases old with
    | nil => cases hold
    | cons o old =>
      rw [List.length_cons] at hold hlength
      have hlengths : old.length = l.length := Nat.succ.inj hold
      rw [List.zipIdx_cons, List.flatMap_cons, List.append_assoc,
        parseUuid_byteText (by omega)]
      have hset : (pre ++ o :: old).set pre.length b = (pre ++ [b]) ++ old := by simp
      have hnext := ih (pre ++ [b]) old hlengths
        (by simp only [List.length_append, List.length_cons, List.length_nil]; omega)
      rw [List.length_append, List.length_singleton] at hnext
      rw [hset, hnext, List.append_assoc, List.singleton_append]

theorem uuidTextToBytes_bytesToUuidText {bytes : List UInt8} (h : bytes.length = 16) :
    uuidTextToBytes (bytesToUuidText bytes) = bytes := by
  have hparse := parseUuid_flatMap (l := bytes) [] (List.replicate 16 0)
    (by rw [List.length_replicate, h]) (by simpa using h) ['}']
  rw [uuidTextToBytes, bytesToUuidText, String.toList_ofList, List.cons_append, parseUuid,
    if_pos (.inl rfl)]
  refine hparse.trans ?_
  rw [parseUuid, if_pos (by decide), parseUuid]
  rfl

theorem uuidTextToBytes_length (u : Uuid) : (uuidTextToBytes u.text).length = 16 := by
  obtain ⟨text, bytes, hlength, rfl⟩ := u
  rw [uuidTextToBytes_bytesToUuidText hlength, hlength]

theorem readUuid_uuidTextToBytes (u : Uuid) : readUuid (uuidTextToBytes u.text ++ r) = (u, r) := by
  have hlength := uuidTextToBytes_length u
  obtain ⟨text, bytes, hbytes, rfl⟩ := u
  rw [uuidTextToBytes_bytesToUuidText hbytes]
  have htake : (bytes ++ r).takeD 16 0 = bytes := by
    rw [List.takeD_eq_take _ (by rw [List.length_append]; omega), List.take_left' hbytes]
  have hdrop : (bytes ++ r).drop 16 = r := List.drop_left' hbytes
  simp only [readUuid, Uuid.ofBytes, htake, hdrop]

/-! ### The loops on what was written -/

theorem loadRanges_flatMap {k : ℕ} (hk : k ≤ l.length) (validated : List CacheRange) :
    loadRanges k (l.flatMap writeRange ++ r) validated =
      ((l.take k).foldl insertRange validated, (l.drop k).flatMap writeRange ++ r) := by
  induction k generalizing l validated with
  | zero => rfl
  | succ k ih =>
    cases l with
    | nil => simp at hk
    | cons x l =>
      rw [List.length_cons] at hk
      rw [List.flatMap_cons, List.append_assoc, loadRanges, readRange_writeRange]
      exact ih (by omega) _

theorem loadPassthroughs_flatMap {l : List (CacheRange × Uuid)} {k : ℕ} (hk : k ≤ l.length)
    (passthroughs : List (CacheRange × Uuid)) :
    (loadPassthroughs k (l.flatMap writePassthrough) passthroughs).1 =
      passthroughs ++ l.take k := by
  induction k generalizing l passthroughs with
  | zero => simp [loadPassthroughs]
  | succ k ih =>
    cases l with
    | nil => simp at hk
    | cons p l =>
      rw [List.length_cons] at hk
      rw [List.flatMap_cons, writePassthrough, List.append_assoc, loadPassthroughs,
        readRange_writeRange]
      dsimp only
      rw [readUuid_uuidTextToBytes, ih (by omega), List.append_assoc, List.singleton_append,
        List.take_succ_cons]

/-- The count that is read where a length was written. -/
def countOf (length : ℕ) : ℕ := (toI32 ((length : ℤ) % 2 ^ 32).toNat).toNat

theorem countOf_le (length : ℕ) : countOf length ≤ length := by
  rw [countOf, toI32]
  split_ifs
  · omega
  · omega

theorem countOf_eq_iff {length : ℕ} : countOf length = length ↔ length < 2 ^ 31 := by
  rw [countOf, toI32]
  split_ifs
  · omega
  · omega

namespace PlaybackCache

variable {kind : CacheKind}

theorem loadTimebase_writeTimebase (c : PlaybackCache kind) (timebase : Option Ratio) :
    (loadTimebase kind timebase (c.writeTimebase ++ r)).2 = r := by
  rw [loadTimebase, writeTimebase]
  by_cases hkind : kind.isFrameHash = true
  · rw [if_pos hkind, if_pos hkind]
    dsimp only
    rw [List.append_assoc, readU32, readBe_writeBeU32 (by decide), if_pos rfl, List.append_assoc,
      readI32_numerator, readI32_denominator]
  · rw [if_neg hkind, if_neg hkind, List.nil_append]

/-- What a file of version 1 leaves, and how often the loops run. -/
theorem loadFile_of_version {c : PlaybackCache kind} {data : List UInt8}
    (h : (readU32 data).1 = 1) (time : ℤ) :
    let validated := loadValidated (loadTimebase kind c.timebase (readU32 data).2).2 c.validated
    (c.loadFile time data).1.validated = validated.1 ∧
      (c.loadFile time data).1.passthroughs = (loadPassed validated.2.1 c.passthroughs).1 ∧
      (c.loadFile time data).2 = validated.2.2 + (loadPassed validated.2.1 c.passthroughs).2 := by
  rw [loadFile]
  dsimp only
  rw [if_pos h]
  exact ⟨rfl, rfl, rfl⟩

variable (a b : PlaybackCache kind)

/-- The ranges and passthroughs of a saved file are added as far as they are counted. -/
theorem loadFile_encode (time : ℤ) :
    (b.loadFile time a.encode).1.validated =
      (a.validated.take (countOf a.validated.length)).foldl insertRange b.validated ∧
    (a.validated.length < 2 ^ 31 → (b.loadFile time a.encode).1.passthroughs =
      b.passthroughs ++ a.passthroughs.take (countOf a.passthroughs.length)) := by
  have hversion : readU32 a.encode = (1, a.writeTimebase ++
      (writeBeI32 a.validated.length ++ (a.validated.flatMap writeRange ++
        (writeBeI32 a.passthroughs.length ++ a.passthroughs.flatMap writePassthrough)))) :=
    readBe_writeBeU32 (by decide)
  have hvalidated (l : List CacheRange) (rest : List UInt8) :
      loadValidated (writeBeI32 a.validated.length ++ (a.validated.flatMap writeRange ++ rest)) l =
        ((a.validated.take (countOf a.validated.length)).foldl insertRange l,
          (a.validated.drop (countOf a.validated.length)).flatMap writeRange ++ rest,
          countOf a.validated.length) := by
    rw [loadValidated, readI32_writeBeI32]
    dsimp only
    rw [← countOf, loadRanges_flatMap (countOf_le _)]
  obtain ⟨hranges, hpassed, -⟩ := loadFile_of_version (c := b) (congrArg Prod.fst hversion) time
  rw [hranges, hpassed, hversion, loadTimebase_writeTimebase, hvalidated]
  refine ⟨rfl, fun hfits => ?_⟩
  dsimp only
  rw [countOf_eq_iff.2 hfits, List.drop_length, List.flatMap_nil, List.nil_append, loadPassed,
    readI32_writeBeI32]
  dsimp only
  rw [← countOf, loadPassthroughs_flatMap (countOf_le _)]

variable (cacheDir : String) (now : ℤ) (disk : Disk)

/-- `b` has just what `a` has after it has loaded what `a` saved, by `load_state` as an object of
the uuid of `a`, or by `set_uuid` where the directory is its own. -/
def Restores : Prop :=
  let b' := (b.withUuid a.uuid).loadState cacheDir (a.saveState cacheDir now disk)
  b'.validated = a.validated ∧ b'.passthroughs = a.passthroughs

/-- What `a` has saved is loaded into a new cache and into `b`. -/
def RoundTrip : Prop :=
  a.Restores (new a.uuid cacheDir) cacheDir now disk ∧ a.Restores b cacheDir now disk

/-- `a` has nothing to save; or its lists are counted in 31 bits, the file has a time, and `b` has
what `a` has when it takes the file for an old one, and otherwise no passthroughs, and only parts of
the ranges of `a`, the whole ones in their order and before the others of `a`. -/
def Restorable : Prop :=
  a.validated = [] ∧ a.passthroughs = [] ∨
    a.validated.length < 2 ^ 31 ∧ a.passthroughs.length < 2 ^ 31 ∧ 0 < now ∧
      if now ≤ b.lastLoadedState then
        b.validated = a.validated ∧ b.passthroughs = a.passthroughs
      else
        b.passthroughs = [] ∧ Within b.validated a.validated ∧
          (b.validated.filter fun c => c ∈ a.validated) <+: a.validated

/-- An empty cache leaves no file, and none is loaded as nothing. -/
theorem restores_empty {a : PlaybackCache kind} (ha : a.validated = [] ∧ a.passthroughs = [])
    (b : PlaybackCache kind) (cacheDir : String) (now : ℤ) (disk : Disk) :
    a.Restores b cacheDir now disk := by
  have hdisk : a.saveState cacheDir now disk cacheDir (b.withUuid a.uuid).uuid = none := by
    rw [saveState, if_pos ⟨rfl, rfl⟩, if_pos ha]
  rw [Restores, loadState, hdisk]
  exact ⟨ha.1.symm, ha.2.symm⟩

theorem restores_iff {a : PlaybackCache kind} (ha : ¬ (a.validated = [] ∧ a.passthroughs = []))
    (b : PlaybackCache kind) (cacheDir : String) (now : ℤ) (disk : Disk) :
    a.Restores b cacheDir now disk ↔
      ((b.withUuid a.uuid).load now a.encode).1.validated = a.validated ∧
        ((b.withUuid a.uuid).load now a.encode).1.passthroughs = a.passthroughs := by
  have hdisk : a.saveState cacheDir now disk cacheDir (b.withUuid a.uuid).uuid =
      some (now, a.encode) := by
    rw [saveState, if_pos ⟨rfl, rfl⟩, if_neg ha]
  rw [Restores, loadState, hdisk]

theorem restores_new_iff {a : PlaybackCache kind}
    (ha : ¬ (a.validated = [] ∧ a.passthroughs = [])) (cacheDir : String) (now : ℤ) (disk : Disk) :
    a.Restores (new a.uuid cacheDir) cacheDir now disk ↔
      a.validated.length < 2 ^ 31 ∧ a.passthroughs.length < 2 ^ 31 ∧ 0 < now := by
  rw [restores_iff ha, load]
  by_cases hold : now ≤ ((new a.uuid cacheDir : PlaybackCache kind).withUuid a.uuid).lastLoadedState
  · rw [if_pos hold]
    constructor
    · exact fun h => absurd ⟨h.1.symm, h.2.symm⟩ ha
    · exact fun h => absurd hold (not_le.2 h.2.2)
  · rw [if_neg hold]
    obtain ⟨hvalidated, hpassed⟩ := loadFile_encode a
      ((new a.uuid cacheDir : PlaybackCache kind).withUuid a.uuid) now
    have hlength {α : Type} (l : List α) : l.take (countOf l.length) = l ↔ l.length < 2 ^ 31 := by
      rw [List.take_eq_self_iff, ← countOf_eq_iff]
      have hle := countOf_le l.length
      omega
    have hnew : (a.validated.take (countOf a.validated.length)).foldl insertRange [] =
        a.validated.take (countOf a.validated.length) :=
      insertAll_nil (a.apart.sublist (List.take_sublist _ _))
    constructor
    · rintro ⟨hv, hp⟩
      have hfits := (hlength a.validated).1 ((hnew.symm.trans hvalidated.symm).trans hv)
      exact ⟨hfits, (hlength a.passthroughs).1 ((hpassed hfits).symm.trans hp), not_le.1 hold⟩
    · rintro ⟨hv, hp, -⟩
      exact ⟨hvalidated.trans (hnew.trans ((hlength a.validated).2 hv)),
        (hpassed hv).trans ((hlength a.passthroughs).2 hp)⟩

/-- What `a` has saved is loaded exactly if and only if it is restorable. -/
theorem roundTrip_iff : a.RoundTrip b cacheDir now disk ↔ a.Restorable b now := by
  by_cases ha : a.validated = [] ∧ a.passthroughs = []
  · exact iff_of_true ⟨restores_empty ha _ cacheDir now disk, restores_empty ha b cacheDir now disk⟩
      (.inl ha)
  · rw [RoundTrip, restores_new_iff ha, Restorable, or_iff_right ha, and_assoc, and_assoc]
    refine and_congr_right fun hv => and_congr_right fun hp => and_congr_right fun _ => ?_
    have hlast : (b.withUuid a.uuid).lastLoadedState = b.lastLoadedState := rfl
    rw [restores_iff ha, load, hlast]
    by_cases hold : now ≤ b.lastLoadedState
    · rw [if_pos hold, if_pos hold]
      rfl
    · rw [if_neg hold, if_neg hold]
      obtain ⟨hvalidated, hpassed⟩ := loadFile_encode a (b.withUuid a.uuid) now
      rw [hvalidated, hpassed hv, countOf_eq_iff.2 hv, countOf_eq_iff.2 hp, List.take_length,
        List.take_length, List.append_left_eq_self, and_comm]
      exact and_congr_right fun _ => insertAll_eq_iff b.apart a.apart

end PlaybackCache

/-! ### Files of any content -/

/-- The ranges of the records of `size` bytes each that are there as a whole. -/
def complete (size : ℕ) : ℕ → ByteReader → List CacheRange
  | 0, _ => []
  | n + 1, r =>
    if size ≤ r.length then (readRange r).1 :: complete size n (r.drop size) else []

/-- The range of the first record that is not there as a whole, its missing bytes read as zeros. -/
def incomplete (size : ℕ) : ℕ → ByteReader → List CacheRange
  | 0, _ => []
  | n + 1, r => if size ≤ r.length then incomplete size n (r.drop size) else [(readRange r).1]

/-- All ranges that are read. -/
def readRecords (size : ℕ) : ℕ → ByteReader → List CacheRange
  | 0, _ => []
  | n + 1, r => (readRange r).1 :: readRecords size n (r.drop size)

theorem readRange_snd (r : ByteReader) : (readRange r).2 = r.drop 16 := by
  simp only [readRange, readI32, readBe, List.drop_drop]

theorem loadRanges_eq (n : ℕ) (r : ByteReader) (l : List CacheRange) :
    loadRanges n r l = ((readRecords 16 n r).foldl insertRange l, r.drop (16 * n)) := by
  induction n generalizing r l with
  | zero => rfl
  | succ n ih =>
    rw [loadRanges, ih, readRange_snd, readRecords, List.foldl_cons, List.drop_drop]
    congr 2
    omega

theorem loadPassthroughs_map_fst (n : ℕ) (r : ByteReader) (l : List (CacheRange × Uuid)) :
    (loadPassthroughs n r l).1.map Prod.fst = l.map Prod.fst ++ readRecords 32 n r := by
  induction n generalizing r l with
  | zero => simp [loadPassthroughs, readRecords]
  | succ n ih =>
    have hrest : (readUuid (readRange r).2).2 = r.drop 32 := by
      rw [readUuid, readRange_snd, List.drop_drop]
    rw [loadPassthroughs, ih, hrest, readRecords, List.map_append, List.map_singleton,
      List.append_assoc, List.singleton_append]

theorem contains_readRange_nil (t : Ratio) : (readRange []).1.contains t = false := by
  have hnull : (readRange []).1 = Range.new Ratio.null Ratio.null := by decide
  rw [hnull, Range.new_of_le le_rfl, ← Bool.not_eq_true, Range.contains_iff]
  exact fun h => absurd h.1 (not_le.2 h.2)

theorem not_covered_readRecords_nil (size n : ℕ) (t : Ratio) :
    ¬ Covered (readRecords size n []) t := by
  induction n with
  | zero => exact covered_nil
  | succ n ih =>
    rw [readRecords, List.drop_nil, covered_cons, contains_readRange_nil]
    simpa using ih

/-- What is read is complete, or cut off by the end of the file, or nothing. -/
theorem covered_readRecords (size n : ℕ) (r : ByteReader) (t : Ratio) :
    Covered (readRecords size n r) t ↔
      Covered (complete size n r) t ∨ Covered (incomplete size n r) t := by
  induction n generalizing r with
  | zero => simp [readRecords, complete, incomplete]
  | succ n ih =>
    rw [readRecords, complete, incomplete]
    split_ifs with hsize
    · rw [covered_cons, covered_cons, ih, or_assoc]
    · rw [List.drop_eq_nil_of_le (not_le.1 hsize).le, covered_cons, covered_cons,
        or_iff_left (not_covered_readRecords_nil size n t), or_iff_left covered_nil,
        or_iff_right covered_nil]

namespace PlaybackCache

variable {kind : CacheKind}

/-- The counts of a file, and what follows each. -/
def announced (kind : CacheKind) (data : List UInt8) : (ℕ × ByteReader) × (ℕ × ByteReader) :=
  let version := readU32 data
  if version.1 = 1 then
    let valid := readI32 (loadTimebase kind none version.2).2
    let passed := readI32 (valid.2.drop (16 * valid.1.toNat))
    ((valid.1.toNat, valid.2), (passed.1.toNat, passed.2))
  else ((0, []), (0, []))

/-- The ranges that the complete records of a file list. -/
def listed (kind : CacheKind) (data : List UInt8) : List CacheRange :=
  complete 16 (announced kind data).1.1 (announced kind data).1.2 ++
    complete 32 (announced kind data).2.1 (announced kind data).2.2

/-- The range of the record that the end of a file cuts off. -/
def cutOff (kind : CacheKind) (data : List UInt8) : List CacheRange :=
  incomplete 16 (announced kind data).1.1 (announced kind data).1.2 ++
    incomplete 32 (announced kind data).2.1 (announced kind data).2.2

variable (c : PlaybackCache kind)

/-- A frame counts as valid. -/
def Counts (t : Ratio) : Prop :=
  Covered c.validated t ∨ Covered (c.passthroughs.map Prod.fst) t

variable (fileTime : ℤ) (data : List UInt8)

/-- A file is loaded in as many steps as it has bytes at most, and makes only frames count as valid
that its complete records list. -/
def Safe : Prop :=
  (c.load fileTime data).2 ≤ data.length ∧
    ∀ t, (c.load fileTime data).1.Counts t → c.Counts t ∨ Covered (listed kind data) t

/-- The file is not read, or its counts are at most its length, and a record that its end cuts off
adds no frames. -/
def Backed : Prop :=
  fileTime ≤ c.lastLoadedState ∨
    (announced kind data).1.1 + (announced kind data).2.1 ≤ data.length ∧
      ∀ t, Covered (cutOff kind data) t → c.Counts t ∨ Covered (listed kind data) t

theorem loadTimebase_snd (timebase : Option Ratio) (r : ByteReader) :
    (loadTimebase kind timebase r).2 = (loadTimebase kind none r).2 := by
  rw [loadTimebase, loadTimebase]
  by_cases hkind : kind.isFrameHash = true
  · rw [if_pos hkind, if_pos hkind]
    dsimp only
    by_cases hevent : (readU32 r).1 = 1
    · rw [if_pos hevent, if_pos hevent]
    · rw [if_neg hevent, if_neg hevent]
  · rw [if_neg hkind, if_neg hkind]

/-- The frames that count as valid after a file is read, and the steps it takes. -/
theorem counts_loadFile :
    (c.loadFile fileTime data).2 = (announced kind data).1.1 + (announced kind data).2.1 ∧
      ∀ t, (c.loadFile fileTime data).1.Counts t ↔
        c.Counts t ∨ Covered (listed kind data) t ∨ Covered (cutOff kind data) t := by
  by_cases hversion : (readU32 data).1 = 1
  · obtain ⟨hvalidated, hpassed, hsteps⟩ := loadFile_of_version (c := c) hversion fileTime
    have hannounced : announced kind data =
        (((readI32 (loadTimebase kind none (readU32 data).2).2).1.toNat,
            (readI32 (loadTimebase kind none (readU32 data).2).2).2),
          ((readI32 ((readI32 (loadTimebase kind none (readU32 data).2).2).2.drop
              (16 * (readI32 (loadTimebase kind none (readU32 data).2).2).1.toNat))).1.toNat,
            (readI32 ((readI32 (loadTimebase kind none (readU32 data).2).2).2.drop
              (16 * (readI32 (loadTimebase kind none (readU32 data).2).2).1.toNat))).2)) := by
      rw [announced]
      dsimp only
      rw [if_pos hversion]
    rw [loadTimebase_snd, loadValidated] at hvalidated hpassed hsteps
    dsimp only at hvalidated hpassed hsteps
    rw [loadRanges_eq] at hvalidated hpassed hsteps
    rw [loadPassed] at hpassed hsteps
    refine ⟨?_, fun t => ?_⟩
    · rw [hsteps, hannounced]
    · rw [Counts, hvalidated, hpassed, listed, cutOff, hannounced]
      dsimp only
      rw [covered_insertAll, loadPassthroughs_map_fst, covered_append, covered_readRecords,
        covered_readRecords, covered_append, covered_append, Counts]
      exact or_or_or_comm.trans (or_congr_right or_or_or_comm)
  · have hnone : announced kind data = ((0, []), (0, [])) := by
      rw [announced]
      dsimp only
      rw [if_neg hversion]
    rw [loadFile, listed, cutOff, hnone]
    dsimp only
    rw [if_neg hversion]
    refine ⟨rfl, fun t => ?_⟩
    simp [Counts, complete, incomplete]

/-- A file is loaded safely exactly when it backs what it announces. -/
theorem safe_iff : c.Safe fileTime data ↔ c.Backed fileTime data := by
  rw [Safe, Backed, load]
  by_cases hold : fileTime ≤ c.lastLoadedState
  · rw [if_pos hold]
    exact iff_of_true ⟨Nat.zero_le _, fun _ ht => .inl ht⟩ (.inl hold)
  · rw [if_neg hold, or_iff_right hold]
    obtain ⟨hsteps, hcounts⟩ := counts_loadFile c fileTime data
    rw [hsteps]
    refine and_congr_right fun _ => forall_congr' fun t => ?_
    rw [hcounts]
    constructor
    · exact fun h hcut => h (.inr (.inr hcut))
    · rintro h (hold | hlisted | hcut)
      · exact .inl hold
      · exact .inr hlisted
      · exact h hcut

/-- When a state file is loaded as it was saved, and when a file of any content is loaded safely. -/
theorem stateFile_iff (kind : CacheKind) :
    (∀ (a b : PlaybackCache kind) (cacheDir : String) (now : ℤ) (disk : Disk),
      a.RoundTrip b cacheDir now disk ↔ a.Restorable b now) ∧
    ∀ (c : PlaybackCache kind) (fileTime : ℤ) (data : List UInt8),
      c.Safe fileTime data ↔ c.Backed fileTime data :=
  ⟨roundTrip_iff, safe_iff⟩

/-- A cache with the range from `first` to `last`. -/
def withRange (first last : ℤ) : PlaybackCache .audioPlayback where
  uuid := .ofBytes (List.replicate 16 0) rfl
  timebase := none
  validated := [.new (.new first 1) (.new last 1)]
  passthroughs := []
  savingEnabled := true
  diskDir := ""
  lastLoadedState := 0
  apart := List.pairwise_singleton _ _

/-- One range is announced, and the file ends after its in point. -/
def endsInRange : List UInt8 := writeBeU32 1 ++ writeBeI32 1 ++ writeBeI32 10 ++ writeBeI32 1

theorem stateFile_merged_and_unbacked :
    ¬ (withRange 0 10).RoundTrip (withRange 20 30) "" 1 (fun _ _ => none) ∧
      ¬ (withRange 20 30).Safe 1 endsInRange := by
  constructor
  · rw [roundTrip_iff]
    rintro (⟨hempty, -⟩ | ⟨-, -, -, hrest⟩)
    · cases hempty
    · rw [if_neg (by decide)] at hrest
      obtain ⟨r, hr, hcovers⟩ := hrest.2.1 _ List.mem_cons_self
      obtain rfl := List.mem_singleton.1 hr
      exact absurd hcovers (by decide)
  · rw [safe_iff]
    rintro (hold | ⟨-, hframes⟩)
    · exact absurd hold (by decide)
    · have hcut : (cutOff .audioPlayback endsInRange).any (·.contains (.new 0 1)) = true := by
        decide
      obtain (⟨r, hr, hcontains⟩ | hpassed) | hlisted := hframes _ (List.any_eq_true.1 hcut)
      · obtain rfl := List.mem_singleton.1 hr
        exact absurd hcontains (by decide)
      · exact covered_nil hpassed
      · have hnone : listed .audioPlayback endsInRange = [] := by decide
        rw [hnone] at hlisted
        exact covered_nil hlisted

end PlaybackCache

end Oak.Render
