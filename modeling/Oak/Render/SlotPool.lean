import Mathlib.Algebra.Ring.Nat
import Mathlib.Data.Nat.Find
import Oak.Lib.Machine
import Oak.Lib.RingBuffer

/-!
# Frame slot pools

A shared segment holds the slots in which frames are handed from one process to another: a
header, two rings of slot indices, the metadata of the slots and their pixel data. The filler
acquires a slot from the free ring and publishes it on the ready ring, the drainer consumes it
there and releases it.

* `alignUp`, `FrameSlotPool.bytesNeeded`, `FrameSlotPool.create`: the arithmetic of the layout. It
  is that of machine words, which wrap.
* `FrameSlotPool.Laid`: the blocks of the segment are aligned, within its size and pairwise
  disjoint.
* `Hands`: the pool together with the slots that its two sides hold.

## Main results

* `laid_of_lt`, `exists_outside`: the blocks are laid out as they should be when the size fits in a
  word; otherwise a slot ends beyond the segment.
* `Hands.kept_run`: every slot stays in exactly one place.
* `slotPool_iff`: the geometries for which the pool does what it is for.
-/

namespace Oak.Render

open Oak.Lib

/-! ### Rings of slot indices -/

/-- A ring of slot indices, whose cursors and capacity are words of 32 bits. -/
structure SpscRingBuffer where
  ring : RingBuffer ℕ
  capacity_lt : ring.capacity < 2 ^ 32

namespace SpscRingBuffer

/-- The bytes of a ring: its header and `capacity` indices. -/
def bytesNeeded (capacity : UInt32) : UInt64 := 12 + capacity.toUInt64 * 4

def create (capacity : UInt32) (h : 0 < capacity.toNat) : SpscRingBuffer :=
  ⟨RingBuffer.empty capacity.toNat h 0, capacity.toNat_lt⟩

variable (r : SpscRingBuffer)

/-- The cell after `index`; the sum is one of 32 bits. -/
def increment (index : ℕ) : ℕ := (index + 1) % 2 ^ 32 % r.ring.capacity

/-- Enqueue an index, unless the ring is full. -/
def push (value : ℕ) : Option SpscRingBuffer :=
  if r.increment r.ring.head = r.ring.tail then none
  else some ⟨{ r.ring with
    cells := Function.update r.ring.cells r.ring.head value
    head := r.increment r.ring.head
    head_lt := Nat.mod_lt _ (Nat.zero_lt_of_lt r.ring.head_lt) }, r.capacity_lt⟩

/-- Dequeue an index, unless the ring is empty. -/
def pop : Option (ℕ × SpscRingBuffer) :=
  if r.ring.tail = r.ring.head then none
  else some (r.ring.cells r.ring.tail, ⟨{ r.ring with
    tail := r.increment r.ring.tail
    tail_lt := Nat.mod_lt _ (Nat.zero_lt_of_lt r.ring.head_lt) }, r.capacity_lt⟩)

theorem increment_eq {index : ℕ} (h : index < r.ring.capacity) :
    r.increment index = r.ring.next index := by
  have hlt := r.capacity_lt
  rw [increment, RingBuffer.next, Nat.mod_eq_of_lt (show index + 1 < 2 ^ 32 by omega)]

theorem map_ring_push (value : ℕ) : (r.push value).map ring = r.ring.push value := by
  have hhead := r.increment_eq r.ring.head_lt
  rw [push, RingBuffer.push]
  simp only [hhead]
  split_ifs <;> rfl

theorem map_ring_pop : r.pop.map (Prod.map id ring) = r.ring.pop := by
  have htail := r.increment_eq r.ring.tail_lt
  rw [pop, RingBuffer.pop]
  simp only [htail]
  split_ifs <;> rfl

/-- The indices, the next one to be dequeued first. -/
def toList : List ℕ := r.ring.toList

/-- The queue that the ring stores. -/
def queue : BoundedQueue ℕ := ⟨r.ring.capacity - 1, r.toList⟩

/-- The ring answers every sequence of operations as a queue that is one shorter than the
ring. -/
theorem answers_queue (ops : List (QueueOp ℕ)) :
    answers push pop r ops = answers BoundedQueue.enqueue BoundedQueue.dequeue r.queue ops := by
  refine (answers_eq map_ring_push map_ring_pop r ops).trans ?_
  exact answers_eq RingBuffer.map_queue_push RingBuffer.map_queue_pop r.ring ops

variable {r} {r' : SpscRingBuffer} {value : ℕ}

theorem ring_push (h : r.push value = some r') : r.ring.push value = some r'.ring := by
  rw [← map_ring_push, h, Option.map_some]

theorem ring_pop (h : r.pop = some (value, r')) : r.ring.pop = some (value, r'.ring) := by
  rw [← map_ring_pop, h]
  rfl

theorem push_of_lt (h : r.toList.length + 1 < r.ring.capacity) (value : ℕ) :
    ∃ r', r.push value = some r' := by
  rw [← Option.isSome_iff_exists, ← Option.isSome_map (f := ring), map_ring_push]
  exact RingBuffer.push_isSome_iff.2 h

end SpscRingBuffer

/-! ### The layout of the segment -/

/-- The alignment of the parts of the segment. -/
def kAlign : UInt64 := 64

def poolHeaderSize : UInt64 := 48

def frameSlotMetaSize : UInt64 := 176

/-- Round up to the next multiple of a power of two. -/
def alignUp (value align : UInt64) : UInt64 := (value + (align - 1)) &&& ~~~(align - 1)

structure FrameSlotPool where
  slotCount : UInt32
  slotDataBytes : UInt64
  freeRingOffset : UInt64
  readyRingOffset : UInt64
  metaOffset : UInt64
  dataOffset : UInt64
  freeRing : SpscRingBuffer
  readyRing : SpscRingBuffer

namespace FrameSlotPool

/-- The bytes that a region must provide. -/
def bytesNeeded (slotCount : UInt32) (slotDataBytes : UInt64) : UInt64 :=
  let ringCap := slotCount + 1
  let ringBytes := alignUp (SpscRingBuffer.bytesNeeded ringCap) kAlign
  alignUp poolHeaderSize kAlign + ringBytes + ringBytes
    + alignUp (frameSlotMetaSize * slotCount.toUInt64) kAlign
    + alignUp slotDataBytes kAlign * slotCount.toUInt64

/-- Push every slot index on the free ring. -/
def seed (ring : SpscRingBuffer) (slotCount : ℕ) : SpscRingBuffer :=
  (List.range slotCount).foldl (fun r i => (r.push i).getD r) ring

/-- Lay out a new pool. A ring without cells panics at the first push, which divides by its
capacity. -/
def create (slotCount : UInt32) (slotDataBytes : UInt64) : Option FrameSlotPool :=
  let ringCap := slotCount + 1
  let freeOff := alignUp poolHeaderSize kAlign
  let readyOff := freeOff + alignUp (SpscRingBuffer.bytesNeeded ringCap) kAlign
  let metaOff := readyOff + alignUp (SpscRingBuffer.bytesNeeded ringCap) kAlign
  let dataOff := metaOff + alignUp (frameSlotMetaSize * slotCount.toUInt64) kAlign
  if h : 0 < ringCap.toNat then
    some
      { slotCount
        slotDataBytes
        freeRingOffset := freeOff
        readyRingOffset := readyOff
        metaOffset := metaOff
        dataOffset := dataOff
        freeRing := seed (SpscRingBuffer.create ringCap h) slotCount.toNat
        readyRing := SpscRingBuffer.create ringCap h }
  else none

variable (p : FrameSlotPool)

/-- The distance between the pixel data of two slots. -/
def slotStride : UInt64 := alignUp p.slotDataBytes kAlign

/-- Where the pixel data of a slot starts in the segment. -/
def slotData (index : UInt64) : UInt64 := p.dataOffset + index * p.slotStride

/-- Where the metadata of a slot starts in the segment. -/
def slotMeta (index : UInt64) : UInt64 := p.metaOffset + index * frameSlotMetaSize

end FrameSlotPool

/-- Create a segment of the size that the pool needs, if the system grants one, and the pool in
it. -/
def ShmRegionView.create (opened : UInt64 → Bool) (slots : UInt32) (slotBytes : UInt64) :
    Option FrameSlotPool :=
  if opened (FrameSlotPool.bytesNeeded slots slotBytes) then FrameSlotPool.create slots slotBytes
  else none

/-! ### What the arithmetic computes -/

variable (n : ℕ)

/-- Round up to the next multiple of the alignment, without overflow. -/
def roundUp : ℕ := (n + 63) / 64 * 64

/-- The bytes of one ring of the pool. -/
def ringBytes (slotCount : UInt32) : ℕ := roundUp (12 + 4 * (slotCount.toNat + 1))

/-- The bytes before the pixel data. -/
def headBytes (slotCount : UInt32) : ℕ :=
  64 + ringBytes slotCount + ringBytes slotCount + roundUp (176 * slotCount.toNat)

/-- The bytes that the parts of the segment take, without overflow. -/
def exactBytes (slotCount : UInt32) (slotDataBytes : UInt64) : ℕ :=
  headBytes slotCount + slotCount.toNat * roundUp slotDataBytes.toNat

theorem and_not_63 (v : BitVec 64) : v &&& ~~~63#64 = (v >>> 6) <<< 6 := by
  apply BitVec.eq_of_getLsbD_eq
  intro i hi
  have h63 : (63#64).getLsbD i = decide (i < 6) := by
    revert i
    decide
  rw [BitVec.getLsbD_and, BitVec.getLsbD_not, BitVec.getLsbD_shiftLeft,
    BitVec.getLsbD_ushiftRight, h63]
  by_cases h : i < 6
  · simp [h]
  · simp [h, hi, Nat.add_sub_cancel' (Nat.not_lt.1 h)]

theorem toNat_alignUp (v : UInt64) : (alignUp v kAlign).toNat = roundUp v.toNat % 2 ^ 64 := by
  have h := congrArg BitVec.toNat (and_not_63 (v + 63).toBitVec)
  have hv : (v + 63).toBitVec.toNat = (v.toNat + 63) % 2 ^ 64 := UInt64.toNat_add v 63
  rw [BitVec.toNat_shiftLeft, BitVec.toNat_ushiftRight, hv, Nat.shiftRight_eq_div_pow,
    Nat.shiftLeft_eq] at h
  calc (alignUp v kAlign).toNat = _ := h
    _ = roundUp v.toNat % 2 ^ 64 := by
      rw [roundUp]
      omega

theorem le_roundUp : n ≤ roundUp n := by
  rw [roundUp]
  omega

theorem roundUp_le : roundUp n ≤ n + 63 := by
  rw [roundUp]
  omega

theorem dvd_roundUp : 64 ∣ roundUp n := Nat.dvd_mul_left ..

theorem dvd_headBytes (slotCount : UInt32) : 64 ∣ headBytes slotCount :=
  Nat.dvd_add (Nat.dvd_add (Nat.dvd_add (Nat.dvd_refl 64) (dvd_roundUp _)) (dvd_roundUp _))
    (dvd_roundUp _)

theorem headBytes_lt (slotCount : UInt32) : headBytes slotCount < 2 ^ 40 := by
  have hring := roundUp_le (12 + 4 * (slotCount.toNat + 1))
  have hmeta := roundUp_le (176 * slotCount.toNat)
  have hlt := slotCount.toNat_lt
  rw [headBytes, ringBytes]
  omega

section Created

variable {slotCount : UInt32}

theorem toNat_ringCap (h : slotCount.toNat + 1 < 2 ^ 32) :
    (slotCount + 1).toNat = slotCount.toNat + 1 := by
  rw [UInt32.toNat_add]
  exact Nat.mod_eq_of_lt h

theorem toNat_ringBytes (h : slotCount.toNat + 1 < 2 ^ 32) :
    (alignUp (SpscRingBuffer.bytesNeeded (slotCount + 1)) kAlign).toNat =
      ringBytes slotCount := by
  have hsize : (SpscRingBuffer.bytesNeeded (slotCount + 1)).toNat =
      12 + 4 * (slotCount.toNat + 1) := by
    rw [SpscRingBuffer.bytesNeeded, UInt64.toNat_add, UInt64.toNat_mul, UInt32.toNat_toUInt64,
      toNat_ringCap h]
    simp only [UInt64.toNat_ofNat]
    omega
  have hle := roundUp_le (12 + 4 * (slotCount.toNat + 1))
  rw [toNat_alignUp, hsize, ringBytes, Nat.mod_eq_of_lt (by omega)]

theorem toNat_metaBytes : (alignUp (frameSlotMetaSize * slotCount.toUInt64) kAlign).toNat =
    roundUp (176 * slotCount.toNat) := by
  have hlt := slotCount.toNat_lt
  have hsize : (frameSlotMetaSize * slotCount.toUInt64).toNat = 176 * slotCount.toNat := by
    rw [frameSlotMetaSize, UInt64.toNat_mul, UInt32.toNat_toUInt64]
    simp only [UInt64.toNat_ofNat]
    omega
  have hle := roundUp_le (176 * slotCount.toNat)
  rw [toNat_alignUp, hsize, Nat.mod_eq_of_lt (by omega)]

theorem toNat_bytesNeeded (h : slotCount.toNat + 1 < 2 ^ 32) (slotDataBytes : UInt64) :
    (FrameSlotPool.bytesNeeded slotCount slotDataBytes).toNat =
      exactBytes slotCount slotDataBytes % 2 ^ 64 := by
  have hheader : (alignUp poolHeaderSize kAlign).toNat = 64 := by decide
  rw [FrameSlotPool.bytesNeeded, UInt64.toNat_add, UInt64.toNat_add, UInt64.toNat_add,
    UInt64.toNat_add, UInt64.toNat_mul, hheader, toNat_ringBytes h, toNat_metaBytes,
    toNat_alignUp, UInt32.toNat_toUInt64, Nat.mod_add_mod, Nat.mod_add_mod]
  rw [Nat.mod_mul_mod, Nat.add_mod_mod, Nat.add_assoc (_ % _), Nat.mod_add_mod, ← Nat.add_assoc,
    Nat.mul_comm (roundUp _), exactBytes, headBytes]

/-- What the creation of a pool leaves. -/
structure Created (slotCount : UInt32) (slotDataBytes : UInt64) (p : FrameSlotPool) : Prop where
  ringCap : slotCount.toNat + 1 < 2 ^ 32
  count : p.slotCount = slotCount
  dataBytes : p.slotDataBytes = slotDataBytes
  freeRingOffset : p.freeRingOffset.toNat = 64
  readyRingOffset : p.readyRingOffset.toNat = 64 + ringBytes slotCount
  metaOffset : p.metaOffset.toNat = 64 + ringBytes slotCount + ringBytes slotCount
  dataOffset : p.dataOffset.toNat = headBytes slotCount
  free : p.freeRing.toList = List.range slotCount.toNat
  ready : p.readyRing.toList = []
  freeCapacity : p.freeRing.ring.capacity = slotCount.toNat + 1
  readyCapacity : p.readyRing.ring.capacity = slotCount.toNat + 1

theorem toList_seed (ring : SpscRingBuffer) (hring : ring.toList = []) {n : ℕ}
    (h : n < ring.ring.capacity) :
    (FrameSlotPool.seed ring n).toList = List.range n ∧
      (FrameSlotPool.seed ring n).ring.capacity = ring.ring.capacity := by
  induction n with
  | zero => exact ⟨hring, rfl⟩
  | succ n ih =>
    obtain ⟨hlist, hcapacity⟩ := ih (by omega)
    have hstep : FrameSlotPool.seed ring (n + 1) =
        ((FrameSlotPool.seed ring n).push n).getD (FrameSlotPool.seed ring n) := by
      rw [FrameSlotPool.seed, List.range_succ, List.foldl_append]
      rfl
    obtain ⟨r, hr⟩ := SpscRingBuffer.push_of_lt (r := FrameSlotPool.seed ring n)
      (by rw [hlist, hcapacity, List.length_range]; exact h) n
    have hpush := SpscRingBuffer.ring_push hr
    rw [hstep, hr, Option.getD_some, List.range_succ, ← hlist, ← hcapacity]
    exact ⟨RingBuffer.toList_push hpush, RingBuffer.capacity_push hpush⟩

theorem created_of_create {slotDataBytes : UInt64} {p : FrameSlotPool}
    (h : FrameSlotPool.create slotCount slotDataBytes = some p) :
    Created slotCount slotDataBytes p := by
  rw [FrameSlotPool.create] at h
  split_ifs at h with hcap
  obtain rfl := Option.some.inj h
  have hlt : slotCount.toNat + 1 < 2 ^ 32 := by
    have hcount := slotCount.toNat_lt
    rw [UInt32.toNat_add] at hcap
    simp only [UInt32.toNat_one] at hcap
    omega
  have hhead := headBytes_lt slotCount
  rw [headBytes] at hhead
  have hfree : (alignUp poolHeaderSize kAlign).toNat = 64 := by decide
  have hready : (alignUp poolHeaderSize kAlign +
      alignUp (SpscRingBuffer.bytesNeeded (slotCount + 1)) kAlign).toNat =
        64 + ringBytes slotCount := by
    rw [UInt64.toNat_add, hfree, toNat_ringBytes hlt, Nat.mod_eq_of_lt (by omega)]
  have hmeta : (alignUp poolHeaderSize kAlign +
      alignUp (SpscRingBuffer.bytesNeeded (slotCount + 1)) kAlign +
      alignUp (SpscRingBuffer.bytesNeeded (slotCount + 1)) kAlign).toNat =
        64 + ringBytes slotCount + ringBytes slotCount := by
    rw [UInt64.toNat_add, hready, toNat_ringBytes hlt, Nat.mod_eq_of_lt (by omega)]
  have hempty : (SpscRingBuffer.create (slotCount + 1) hcap).toList = [] :=
    RingBuffer.toList_empty ..
  have hcapacity : (SpscRingBuffer.create (slotCount + 1) hcap).ring.capacity =
      slotCount.toNat + 1 := toNat_ringCap hlt
  obtain ⟨hlist, hsame⟩ := toList_seed _ hempty (n := slotCount.toNat) (by omega)
  exact
    { ringCap := hlt
      count := rfl
      dataBytes := rfl
      freeRingOffset := hfree
      readyRingOffset := hready
      metaOffset := hmeta
      dataOffset := by
        show (_ + _ : UInt64).toNat = _
        rw [UInt64.toNat_add, hmeta, toNat_metaBytes, headBytes, Nat.mod_eq_of_lt (by omega)]
      free := hlist
      ready := hempty
      freeCapacity := hsame.trans hcapacity
      readyCapacity := hcapacity }

end Created

/-! ### The blocks of the segment -/

/-- A part of the segment with a purpose of its own. -/
inductive Block
  | header
  | freeRing
  | readyRing
  | metadata (index : ℕ)
  | data (index : ℕ)

namespace Block

/-- The alignment of a block; the records of the metadata follow the first one directly. -/
def align : Block → ℕ
  | .metadata (_ + 1) => 8
  | _ => 64

end Block

namespace FrameSlotPool

variable (p : FrameSlotPool)

def Has : Block → Prop
  | .metadata index | .data index => index < p.slotCount.toNat
  | _ => True

/-- Where a block starts. -/
def start : Block → ℕ
  | .header => 0
  | .freeRing => p.freeRingOffset.toNat
  | .readyRing => p.readyRingOffset.toNat
  | .metadata index => (p.slotMeta (UInt64.ofNat index)).toNat
  | .data index => (p.slotData (UInt64.ofNat index)).toNat

/-- The bytes of a block that are used. -/
def size : Block → ℕ
  | .header => poolHeaderSize.toNat
  | .freeRing => 12 + 4 * p.freeRing.ring.capacity
  | .readyRing => 12 + 4 * p.readyRing.ring.capacity
  | .metadata _ => frameSlotMetaSize.toNat
  | .data _ => p.slotDataBytes.toNat

/-- Where a block ends. -/
def stop (b : Block) : ℕ := p.start b + p.size b

/-- The blocks of the pool are aligned, within `bytes` bytes and pairwise disjoint. -/
structure Laid (bytes : ℕ) : Prop where
  aligned : ∀ b, p.Has b → b.align ∣ p.start b
  within : ∀ b, p.Has b → p.stop b ≤ bytes
  disjoint : ∀ a b, p.Has a → p.Has b → a ≠ b → p.stop a ≤ p.start b ∨ p.stop b ≤ p.start a

end FrameSlotPool

/-! ### Where the blocks are -/

section Layout

variable {slotCount : UInt32} {slotDataBytes : UInt64} {p : FrameSlotPool}

/-- The start of a block, without overflow. -/
def place (slotCount : UInt32) (slotDataBytes : UInt64) : Block → ℕ
  | .header => 0
  | .freeRing => 64
  | .readyRing => 64 + ringBytes slotCount
  | .metadata index => 64 + ringBytes slotCount + ringBytes slotCount + index * 176
  | .data index => headBytes slotCount + index * roundUp slotDataBytes.toNat

/-- The room that the layout leaves for a block ends here. -/
def limit (slotCount : UInt32) (slotDataBytes : UInt64) : Block → ℕ
  | .header => 64
  | .freeRing => 64 + ringBytes slotCount
  | .readyRing => 64 + ringBytes slotCount + ringBytes slotCount
  | .metadata index => 64 + ringBytes slotCount + ringBytes slotCount + (index + 1) * 176
  | .data index => headBytes slotCount + (index + 1) * roundUp slotDataBytes.toNat

variable {index : ℕ}

theorem start_metadata (h : Created slotCount slotDataBytes p) (hindex : index < slotCount.toNat) :
    p.start (.metadata index) = place slotCount slotDataBytes (.metadata index) := by
  have hhead := headBytes_lt slotCount
  have hmeta := le_roundUp (176 * slotCount.toNat)
  have hlt := slotCount.toNat_lt
  rw [headBytes] at hhead
  have hoffset : (UInt64.ofNat index * frameSlotMetaSize).toNat = index * 176 := by
    rw [frameSlotMetaSize, UInt64.toNat_mul, UInt64.toNat_ofNat']
    simp only [UInt64.toNat_ofNat]
    omega
  rw [FrameSlotPool.start, FrameSlotPool.slotMeta, UInt64.toNat_add, h.metaOffset, hoffset, place,
    Nat.mod_eq_of_lt (by omega)]

theorem start_data (h : Created slotCount slotDataBytes p) (hindex : index < slotCount.toNat) :
    p.start (.data index) = place slotCount slotDataBytes (.data index) % 2 ^ 64 := by
  have hlt := slotCount.toNat_lt
  rw [FrameSlotPool.start, FrameSlotPool.slotData, UInt64.toNat_add, UInt64.toNat_mul,
    FrameSlotPool.slotStride, toNat_alignUp, UInt64.toNat_ofNat', h.dataBytes, h.dataOffset,
    Nat.mod_eq_of_lt (show index < 2 ^ 64 by omega), Nat.mul_mod_mod, Nat.add_mod_mod, place]

theorem place_data_le (hindex : index < slotCount.toNat) :
    place slotCount slotDataBytes (.data index) + roundUp slotDataBytes.toNat ≤
      exactBytes slotCount slotDataBytes := by
  have hmul := Nat.mul_le_mul_right (roundUp slotDataBytes.toNat) hindex
  rw [Nat.succ_mul] at hmul
  rw [place, exactBytes]
  omega

variable (hcreated : Created slotCount slotDataBytes p)
include hcreated

theorem start_eq_place (hbytes : exactBytes slotCount slotDataBytes < 2 ^ 64) {b : Block}
    (hb : p.Has b) : p.start b = place slotCount slotDataBytes b := by
  cases b with
  | header => rfl
  | freeRing => exact hcreated.freeRingOffset
  | readyRing => exact hcreated.readyRingOffset
  | metadata index => exact start_metadata hcreated (hcreated.count ▸ hb)
  | data index =>
    have hindex : index < slotCount.toNat := hcreated.count ▸ hb
    have hle := @place_data_le slotCount slotDataBytes index hindex
    rw [start_data hcreated hindex, Nat.mod_eq_of_lt (by omega)]

omit hcreated in
theorem dvd_place (b : Block) : b.align ∣ place slotCount slotDataBytes b := by
  have hring : 64 ∣ ringBytes slotCount := dvd_roundUp _
  cases b with
  | header => exact Nat.dvd_zero _
  | freeRing => exact Nat.dvd_refl _
  | readyRing => exact Nat.dvd_add (Nat.dvd_refl 64) hring
  | metadata index =>
    cases index with
    | zero =>
      show 64 ∣ _
      rw [place]
      omega
    | succ index =>
      show 8 ∣ _
      rw [place]
      omega
  | data index => exact Nat.dvd_add (dvd_headBytes _) (Nat.dvd_mul_left_of_dvd (dvd_roundUp _) _)

theorem place_add_size_le (b : Block) :
    place slotCount slotDataBytes b + p.size b ≤ limit slotCount slotDataBytes b := by
  have hring : 12 + 4 * (slotCount.toNat + 1) ≤ ringBytes slotCount := le_roundUp _
  have hdata := le_roundUp slotDataBytes.toNat
  cases b with
  | header => exact Nat.le_of_ble_eq_true rfl
  | freeRing =>
    rw [place, limit, FrameSlotPool.size, hcreated.freeCapacity]
    omega
  | readyRing =>
    rw [place, limit, FrameSlotPool.size, hcreated.readyCapacity]
    omega
  | metadata index =>
    show _ + 176 ≤ _
    rw [place, limit]
    omega
  | data index =>
    rw [place, limit, FrameSlotPool.size, hcreated.dataBytes, Nat.succ_mul]
    omega

theorem limit_le_exactBytes {b : Block} (hb : p.Has b) :
    limit slotCount slotDataBytes b ≤ exactBytes slotCount slotDataBytes := by
  have hmeta := le_roundUp (176 * slotCount.toNat)
  cases b with
  | metadata index =>
    have hindex : index < slotCount.toNat := hcreated.count ▸ hb
    rw [limit, exactBytes, headBytes]
    omega
  | data index =>
    have hindex : index < slotCount.toNat := hcreated.count ▸ hb
    exact Nat.add_le_add_left (Nat.mul_le_mul_right _ hindex) _
  | _ =>
    rw [limit, exactBytes, headBytes]
    omega

theorem limit_le_place {a b : Block} (ha : p.Has a) (hb : p.Has b) (hne : a ≠ b) :
    limit slotCount slotDataBytes a ≤ place slotCount slotDataBytes b ∨
      limit slotCount slotDataBytes b ≤ place slotCount slotDataBytes a := by
  have hmeta := le_roundUp (176 * slotCount.toNat)
  have hapart (n : ℕ) {i j : ℕ} (hij : i ≠ j) : (i + 1) * n ≤ j * n ∨ (j + 1) * n ≤ i * n :=
    (Nat.lt_or_gt_of_ne hij).imp (Nat.mul_le_mul_right n) (Nat.mul_le_mul_right n)
  have hrecord {index : ℕ} (h : p.Has (.metadata index)) : index < slotCount.toNat :=
    hcreated.count ▸ h
  cases a with
  | header =>
    cases b with
    | header => exact absurd rfl hne
    | _ =>
      simp only [limit, place, headBytes]
      omega
  | freeRing =>
    cases b with
    | freeRing => exact absurd rfl hne
    | _ =>
      simp only [limit, place, headBytes]
      omega
  | readyRing =>
    cases b with
    | readyRing => exact absurd rfl hne
    | _ =>
      simp only [limit, place, headBytes]
      omega
  | metadata i =>
    have hi := hrecord ha
    cases b with
    | metadata j =>
      have hij := hapart 176 fun h : i = j => hne (congrArg _ h)
      simp only [limit, place]
      omega
    | _ =>
      simp only [limit, place, headBytes]
      omega
  | data i =>
    cases b with
    | metadata j =>
      have hj := hrecord hb
      simp only [limit, place, headBytes]
      omega
    | data j =>
      have hij := hapart (roundUp slotDataBytes.toNat) fun h : i = j => hne (congrArg _ h)
      simp only [limit, place]
      omega
    | _ =>
      simp only [limit, place, headBytes]
      omega

/-- A pool whose size fits in a word is laid out as it should be. -/
theorem laid_of_lt (hbytes : exactBytes slotCount slotDataBytes < 2 ^ 64) :
    p.Laid (exactBytes slotCount slotDataBytes) where
  aligned b hb := by
    rw [start_eq_place hcreated hbytes hb]
    exact dvd_place b
  within b hb := by
    rw [FrameSlotPool.stop, start_eq_place hcreated hbytes hb]
    exact Nat.le_trans (place_add_size_le hcreated b) (limit_le_exactBytes hcreated hb)
  disjoint a b ha hb hne := by
    rw [FrameSlotPool.stop, FrameSlotPool.stop, start_eq_place hcreated hbytes ha,
      start_eq_place hcreated hbytes hb]
    exact (limit_le_place hcreated ha hb hne).imp
      (Nat.le_trans (place_add_size_le hcreated a)) (Nat.le_trans (place_add_size_le hcreated b))

/-- In a pool whose size does not fit in a word, the pixel data of a slot ends beyond the computed
size. -/
theorem exists_outside (hbytes : 2 ^ 64 ≤ exactBytes slotCount slotDataBytes) :
    ∃ b, p.Has b ∧
      (FrameSlotPool.bytesNeeded slotCount slotDataBytes).toNat < p.stop b := by
  have hhead := headBytes_lt slotCount
  have hround := roundUp_le slotDataBytes.toNat
  have hcomputed := toNat_bytesNeeded hcreated.ringCap slotDataBytes
  have haligned : 64 ∣ exactBytes slotCount slotDataBytes :=
    Nat.dvd_add (dvd_headBytes _) (Nat.dvd_mul_left_of_dvd (dvd_roundUp _) _)
  -- the first slot whose room ends where a word wraps, or beyond
  have hex : ∃ n, 2 ^ 64 ≤ headBytes slotCount + n * roundUp slotDataBytes.toNat :=
    ⟨slotCount.toNat, hbytes⟩
  obtain ⟨index, hindex⟩ : ∃ index, Nat.find hex = index + 1 :=
    Nat.exists_eq_succ_of_ne_zero fun h => by
      have hfind := Nat.find_spec hex
      rw [h, Nat.zero_mul] at hfind
      omega
  have hfind := Nat.find_spec hex
  have hbefore := Nat.find_min hex (m := index) (by omega)
  have hlt : index < slotCount.toNat := by
    have hle := Nat.find_le (h := hex) hbytes
    omega
  rw [hindex, Nat.succ_mul] at hfind
  refine ⟨.data index, by rwa [FrameSlotPool.Has, hcreated.count], ?_⟩
  rw [FrameSlotPool.stop, start_data hcreated hlt, FrameSlotPool.size, hcreated.dataBytes, place,
    Nat.mod_eq_of_lt (by omega), hcomputed]
  omega

end Layout

/-! ### Slots in hand -/

namespace FrameSlotPool

variable (p : FrameSlotPool)

/-- Take ownership of a free slot, if there is one. -/
def acquire : Option (ℕ × FrameSlotPool) :=
  p.freeRing.pop.map fun taken => (taken.1, { p with freeRing := taken.2 })

/-- Hand a filled slot to the drainer, unless the ready ring is full. -/
def publish (index : ℕ) : Option FrameSlotPool :=
  (p.readyRing.push index).map fun ring => { p with readyRing := ring }

/-- Take the next published slot, if there is one. -/
def consume : Option (ℕ × FrameSlotPool) :=
  p.readyRing.pop.map fun taken => (taken.1, { p with readyRing := taken.2 })

/-- Return a consumed slot, unless the free ring is full. -/
def release (index : ℕ) : Option FrameSlotPool :=
  (p.freeRing.push index).map fun ring => { p with freeRing := ring }

end FrameSlotPool

/-- An operation of one of the two sides. -/
inductive SlotOp
  | acquire
  | publish (index : ℕ)
  | consume
  | release (index : ℕ)

/-- A pool and the slots that the filler and the drainer hold. -/
structure Hands where
  pool : FrameSlotPool
  filler : List ℕ
  drainer : List ℕ

namespace Hands

/-- An operation; one that fails changes nothing. -/
def act (s : Hands) : SlotOp → Hands
  | .acquire =>
    match s.pool.acquire with
    | none => s
    | some (index, pool) => { s with pool, filler := index :: s.filler }
  | .publish index =>
    match s.pool.publish index with
    | none => s
    | some pool => { s with pool, filler := s.filler.erase index }
  | .consume =>
    match s.pool.consume with
    | none => s
    | some (index, pool) => { s with pool, drainer := index :: s.drainer }
  | .release index =>
    match s.pool.release index with
    | none => s
    | some pool => { s with pool, drainer := s.drainer.erase index }

/-- The filler publishes what it acquired, and the drainer releases what it consumed. -/
def Legal (s : Hands) : SlotOp → Prop
  | .publish index => index ∈ s.filler
  | .release index => index ∈ s.drainer
  | _ => True

instance (s : Hands) (op : SlotOp) : Decidable (s.Legal op) := by
  cases op <;> unfold Legal <;> infer_instance

/-- The slots of the free ring, the filler, the ready ring and the drainer. -/
def slots (s : Hands) : List ℕ :=
  s.pool.freeRing.toList ++ s.filler ++ s.pool.readyRing.toList ++ s.drainer

/-- Every slot is in exactly one place, and either ring has room for all of them. -/
structure Kept (s : Hands) (slotCount : ℕ) : Prop where
  once : s.slots.Perm (List.range slotCount)
  free : s.pool.freeRing.ring.capacity = slotCount + 1
  ready : s.pool.readyRing.ring.capacity = slotCount + 1

variable {s : Hands} {slotCount index : ℕ}

section

variable (h : s.Kept slotCount)

include h

theorem Kept.length :
    s.pool.freeRing.toList.length + s.filler.length + s.pool.readyRing.toList.length
      + s.drainer.length = slotCount := by
  have hlength := h.once.length_eq
  rwa [slots, List.length_append, List.length_append, List.length_append,
    List.length_range] at hlength

/-- The ready ring has room for a slot that the filler holds. -/
theorem Kept.publish (hindex : index ∈ s.filler) : (s.pool.publish index).isSome := by
  have hlength := h.length
  have hpos := List.length_pos_of_mem hindex
  obtain ⟨ring, hring⟩ := SpscRingBuffer.push_of_lt (r := s.pool.readyRing)
    (by rw [h.ready]; omega) index
  rw [FrameSlotPool.publish, hring]
  rfl

/-- The free ring has room for a slot that the drainer holds. -/
theorem Kept.release (hindex : index ∈ s.drainer) : (s.pool.release index).isSome := by
  have hlength := h.length
  have hpos := List.length_pos_of_mem hindex
  obtain ⟨ring, hring⟩ := SpscRingBuffer.push_of_lt (r := s.pool.freeRing)
    (by rw [h.free]; omega) index
  rw [FrameSlotPool.release, hring]
  rfl

/-- A slot that is taken from one place and put in another is still in one place. -/
theorem Kept.once_of_count {slots : List ℕ} (hcount : ∀ n, slots.count n = s.slots.count n) :
    slots.Perm (List.range slotCount) :=
  (List.perm_iff_count.2 hcount).trans h.once

theorem Kept.act {op : SlotOp} (hop : s.Legal op) : (s.act op).Kept slotCount := by
  cases op with
  | acquire =>
    rw [Hands.act, FrameSlotPool.acquire]
    rcases hpop : s.pool.freeRing.pop with _ | ⟨index, ring⟩
    · exact h
    · have hring := SpscRingBuffer.ring_pop hpop
      have hlist : s.pool.freeRing.toList = [index] ++ ring.toList := RingBuffer.toList_pop hring
      refine ⟨h.once_of_count fun n => ?_, (RingBuffer.capacity_pop hring).trans h.free, h.ready⟩
      show (ring.toList ++ ([index] ++ s.filler) ++ s.pool.readyRing.toList ++ s.drainer).count n
        = _
      simp only [slots, hlist, List.count_append]
      omega
  | publish index =>
    rw [Hands.act, FrameSlotPool.publish]
    rcases hpush : s.pool.readyRing.push index with _ | ring
    · exact h
    · have hring := SpscRingBuffer.ring_push hpush
      have hlist : ring.toList = s.pool.readyRing.toList ++ [index] := RingBuffer.toList_push hring
      refine ⟨h.once_of_count fun n => ?_, h.free, (RingBuffer.capacity_push hring).trans h.ready⟩
      have hheld : s.filler.count n = ([index] ++ s.filler.erase index).count n :=
        (List.perm_cons_erase hop).count_eq n
      show (s.pool.freeRing.toList ++ s.filler.erase index ++ ring.toList ++ s.drainer).count n = _
      rw [List.count_append] at hheld
      simp only [slots, hlist, List.count_append]
      omega
  | consume =>
    rw [Hands.act, FrameSlotPool.consume]
    rcases hpop : s.pool.readyRing.pop with _ | ⟨index, ring⟩
    · exact h
    · have hring := SpscRingBuffer.ring_pop hpop
      have hlist : s.pool.readyRing.toList = [index] ++ ring.toList := RingBuffer.toList_pop hring
      refine ⟨h.once_of_count fun n => ?_, h.free, (RingBuffer.capacity_pop hring).trans h.ready⟩
      show (s.pool.freeRing.toList ++ s.filler ++ ring.toList ++ ([index] ++ s.drainer)).count n
        = _
      simp only [slots, hlist, List.count_append]
      omega
  | release index =>
    rw [Hands.act, FrameSlotPool.release]
    rcases hpush : s.pool.freeRing.push index with _ | ring
    · exact h
    · have hring := SpscRingBuffer.ring_push hpush
      have hlist : ring.toList = s.pool.freeRing.toList ++ [index] := RingBuffer.toList_push hring
      refine ⟨h.once_of_count fun n => ?_, (RingBuffer.capacity_push hring).trans h.free, h.ready⟩
      have hheld : s.drainer.count n = ([index] ++ s.drainer.erase index).count n :=
        (List.perm_cons_erase hop).count_eq n
      show (ring.toList ++ s.filler ++ s.pool.readyRing.toList ++ s.drainer.erase index).count n
        = _
      rw [List.count_append] at hheld
      simp only [slots, hlist, List.count_append]
      omega

/-- Every slot stays in exactly one place. -/
theorem kept_run {ops : List SlotOp} (hops : Permitted act Legal s ops) :
    (run act s ops).Kept slotCount := by
  have hstep (s : Hands) (op : SlotOp) (hs : s.Kept slotCount) (hop : s.Legal op) :
      (act s op).Kept slotCount := hs.act hop
  exact invariant_run (I := fun s => s.Kept slotCount) hstep h hops

end

/-- A new pool, none of whose slots is held. -/
def ofPool (pool : FrameSlotPool) : Hands := ⟨pool, [], []⟩

theorem kept_ofPool {slotCount : UInt32} {slotDataBytes : UInt64} {p : FrameSlotPool}
    (h : Created slotCount slotDataBytes p) : (ofPool p).Kept slotCount.toNat where
  once := by
    rw [slots, ofPool, h.free, h.ready, List.append_nil, List.append_nil, List.append_nil]
  free := h.freeCapacity
  ready := h.readyCapacity

end Hands

open Hands

/-! ### The pool as a whole -/

/-- What a pool in a segment of `bytes` bytes is for: its blocks do not get in each other's way,
its rings are queues that are one shorter than the ring, every slot is in exactly one place
however the two sides use it, and neither side fails to hand on a slot that it holds. -/
structure FrameSlotPool.Sound (p : FrameSlotPool) (bytes : ℕ) : Prop where
  laid : p.Laid bytes
  fifo : ∀ ring ∈ [p.freeRing, p.readyRing], ∀ ops,
    answers SpscRingBuffer.push SpscRingBuffer.pop ring ops =
      answers BoundedQueue.enqueue BoundedQueue.dequeue
        ⟨ring.ring.capacity - 1, ring.toList⟩ ops
  once : ∀ ops, Permitted act Hands.Legal (ofPool p) ops →
    (run act (ofPool p) ops).slots.Perm (List.range p.slotCount.toNat)
  publish : ∀ ops, Permitted act Hands.Legal (ofPool p) ops →
    ∀ index ∈ (run act (ofPool p) ops).filler,
      ((run act (ofPool p) ops).pool.publish index).isSome
  release : ∀ ops, Permitted act Hands.Legal (ofPool p) ops →
    ∀ index ∈ (run act (ofPool p) ops).drainer,
      ((run act (ofPool p) ops).pool.release index).isSome

section Sound

variable {slotCount : UInt32} {slotDataBytes : UInt64}

theorem exists_create (h : slotCount.toNat + 1 < 2 ^ 32) (slotDataBytes : UInt64) :
    ∃ p, FrameSlotPool.create slotCount slotDataBytes = some p := by
  have hcap : 0 < (slotCount + 1).toNat := by
    rw [toNat_ringCap h]
    exact Nat.succ_pos _
  exact ⟨_, dif_pos hcap⟩

theorem toNat_bytesNeeded_of_lt (h : slotCount.toNat + 1 < 2 ^ 32)
    (hbytes : exactBytes slotCount slotDataBytes < 2 ^ 64) :
    (FrameSlotPool.bytesNeeded slotCount slotDataBytes).toNat =
      exactBytes slotCount slotDataBytes := by
  rw [toNat_bytesNeeded h, Nat.mod_eq_of_lt hbytes]

theorem sound_of_lt {p : FrameSlotPool} (h : Created slotCount slotDataBytes p)
    (hbytes : exactBytes slotCount slotDataBytes < 2 ^ 64) :
    p.Sound (exactBytes slotCount slotDataBytes) where
  laid := laid_of_lt h hbytes
  fifo ring _ := ring.answers_queue
  once ops hops := by
    rw [h.count]
    exact (kept_run (kept_ofPool h) hops).once
  publish _ hops _ hindex := (kept_run (kept_ofPool h) hops).publish hindex
  release _ hops _ hindex := (kept_run (kept_ofPool h) hops).release hindex

theorem not_sound_of_le {p : FrameSlotPool} (h : Created slotCount slotDataBytes p)
    (hbytes : 2 ^ 64 ≤ exactBytes slotCount slotDataBytes) :
    ¬ p.Sound (FrameSlotPool.bytesNeeded slotCount slotDataBytes).toNat := by
  obtain ⟨b, hb, hout⟩ := exists_outside h hbytes
  exact fun hsound => Nat.not_le.2 hout (hsound.laid.within b hb)

end Sound

/-- Every pool that is created is sound, in a segment whose size is computed without overflow,
exactly for the geometries that are refused (by the system, which does not grant a segment of the
computed size, or by a panic) and those whose size fits in a word. -/
theorem slotPool_iff (opened : UInt64 → Bool) (slots : UInt32) (slotBytes : UInt64) :
    (∀ p, ShmRegionView.create opened slots slotBytes = some p →
      (FrameSlotPool.bytesNeeded slots slotBytes).toNat = exactBytes slots slotBytes ∧
        p.Sound (FrameSlotPool.bytesNeeded slots slotBytes).toNat) ↔
    (opened (FrameSlotPool.bytesNeeded slots slotBytes) = true → slots.toNat + 1 < 2 ^ 32 →
      exactBytes slots slotBytes < 2 ^ 64) := by
  constructor
  · intro hsound hopened hcap
    by_contra hbytes
    obtain ⟨p, hp⟩ := exists_create hcap slotBytes
    exact not_sound_of_le (created_of_create hp) (Nat.not_lt.1 hbytes)
      (hsound p (by rw [ShmRegionView.create, if_pos hopened, hp])).2
  · intro hfits p hp
    rw [ShmRegionView.create] at hp
    split_ifs at hp with hopened
    have hcreated := created_of_create hp
    have hbytes := hfits hopened hcreated.ringCap
    rw [toNat_bytesNeeded_of_lt hcreated.ringCap hbytes]
    exact ⟨rfl, sound_of_lt hcreated hbytes⟩

/-- Two slots of `2 ^ 63` bytes need a segment of 576 bytes, according to the code: their sizes
add up to a whole word. -/
theorem wrapped_slots : ∃ p,
    ShmRegionView.create (fun bytes => bytes ≤ 4096) 2 9223372036854775808 = some p ∧
      (FrameSlotPool.bytesNeeded 2 9223372036854775808).toNat = 576 ∧
      (∃ b, p.Has b ∧ 576 < p.stop b) ∧ ¬ p.Sound 576 := by
  have hbytes : (FrameSlotPool.bytesNeeded 2 9223372036854775808).toNat = 576 := by decide
  obtain ⟨p, hp⟩ := @exists_create 2 (by decide) 9223372036854775808
  have hexact : 2 ^ 64 ≤ exactBytes 2 9223372036854775808 := by decide
  have hout := exists_outside (created_of_create hp) hexact
  have hsound := not_sound_of_le (created_of_create hp) hexact
  rw [hbytes] at hout hsound
  exact ⟨p, by rw [ShmRegionView.create, if_pos (by decide), hp], hbytes, hout, hsound⟩

end Oak.Render
