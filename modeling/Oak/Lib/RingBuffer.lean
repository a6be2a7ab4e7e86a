import Mathlib.Data.List.Basic
import Mathlib.Logic.Function.Basic
import Oak.Lib.Queue

/-!
# Ring buffers

A queue in a circular array, with one cell always left empty: `head` is where the next entry is
written, `tail` where the next one is read, and the array has `capacity` cells.

* `push` fails when the buffer is full, `pop` when it is empty.
* `toList` are the entries, the next one to be read first.

## Main results

* `toList_push`, `toList_pop`: the buffer is a first-in first-out queue.
* `push_isSome_iff`: there is room for `capacity - 1` entries.
* `map_queue_push`, `map_queue_pop`: the operations are those of a bounded queue.
-/

namespace Oak.Lib

/-- A queue in a circular array. -/
structure RingBuffer (α : Type*) where
  capacity : ℕ
  head : ℕ
  tail : ℕ
  cells : ℕ → α
  head_lt : head < capacity
  tail_lt : tail < capacity

namespace RingBuffer

variable {α : Type*} (r : RingBuffer α)

/-- The cell after `i`. -/
def next (i : ℕ) : ℕ := (i + 1) % r.capacity

theorem next_lt (i : ℕ) : r.next i < r.capacity :=
  Nat.mod_lt _ (Nat.zero_lt_of_lt r.head_lt)

/-- An empty buffer. -/
def empty (capacity : ℕ) (hcapacity : 0 < capacity) (a : α) : RingBuffer α :=
  ⟨capacity, 0, 0, fun _ => a, hcapacity, hcapacity⟩

/-- Write an entry, unless the buffer is full. -/
def push (a : α) : Option (RingBuffer α) :=
  if r.next r.head = r.tail then none
  else some { r with
    cells := Function.update r.cells r.head a
    head := r.next r.head
    head_lt := r.next_lt r.head }

/-- Read an entry, unless the buffer is empty. -/
def pop : Option (α × RingBuffer α) :=
  if r.tail = r.head then none
  else some (r.cells r.tail, { r with tail := r.next r.tail, tail_lt := r.next_lt r.tail })

/-- The number of entries. -/
def size : ℕ := (r.head + r.capacity - r.tail) % r.capacity

/-- The entries, the next one to be read first. -/
def toList : List α := (List.range r.size).map fun i => r.cells ((r.tail + i) % r.capacity)

private theorem mod_eq {n c : ℕ} (h : n < 2 * c) : n % c = if n < c then n else n - c := by
  split_ifs with hlt
  · exact Nat.mod_eq_of_lt hlt
  · rw [Nat.mod_eq_sub_mod (Nat.not_lt.1 hlt), Nat.mod_eq_of_lt (by omega)]

theorem next_eq {i : ℕ} (hi : i < r.capacity) :
    r.next i = if i + 1 < r.capacity then i + 1 else 0 := by
  rw [next, mod_eq (by omega)]
  split_ifs
  · rfl
  · omega

theorem size_eq : r.size =
    if r.tail ≤ r.head then r.head - r.tail else r.head + r.capacity - r.tail := by
  have hhead := r.head_lt
  have htail := r.tail_lt
  rw [size, mod_eq (by omega)]
  split_ifs <;> omega

theorem size_lt : r.size < r.capacity := Nat.mod_lt _ (Nat.zero_lt_of_lt r.head_lt)

@[simp] theorem length_toList : r.toList.length = r.size := by simp [toList]

theorem toList_empty (capacity : ℕ) (hcapacity : 0 < capacity) (a : α) :
    (empty capacity hcapacity a).toList = [] := by
  have hsize : (empty capacity hcapacity a).size = 0 := by simp [size, empty]
  rw [toList, hsize]
  rfl

variable {r} {r' : RingBuffer α} {a : α}

theorem push_isSome_iff : (r.push a).isSome = true ↔ r.toList.length + 1 < r.capacity := by
  have hhead := r.head_lt
  have htail := r.tail_lt
  have hroom : r.next r.head ≠ r.tail ↔ r.size + 1 < r.capacity := by
    rw [size_eq, next_eq r hhead]
    split_ifs <;> omega
  rw [length_toList, ← hroom, push]
  split_ifs with hfull <;> simp [hfull]

/-- A written entry comes last. -/
theorem toList_push (h : r.push a = some r') : r'.toList = r.toList ++ [a] := by
  rw [push] at h
  split_ifs at h with hfull
  obtain rfl := Option.some.inj h
  have hhead := r.head_lt
  have htail := r.tail_lt
  have hsize : RingBuffer.size { r with
      cells := Function.update r.cells r.head a
      head := r.next r.head
      head_lt := r.next_lt r.head } = r.size + 1 := by
    rw [size_eq, size_eq]
    show (if r.tail ≤ r.next r.head then r.next r.head - r.tail
      else r.next r.head + r.capacity - r.tail) = _
    rw [next_eq r hhead] at hfull ⊢
    split_ifs at hfull ⊢ <;> omega
  have hplace (i : ℕ) (hi : i ≤ r.size) :
      (r.tail + i) % r.capacity = r.head ↔ i = r.size := by
    have hlt := r.size_lt
    rw [mod_eq (by omega)]
    rw [size_eq] at hi hlt ⊢
    split_ifs at hi hlt ⊢ <;> omega
  rw [toList, hsize, List.range_succ, List.map_append, List.map_singleton, toList]
  congr 1
  · refine List.map_congr_left fun i hi => ?_
    have hi' := List.mem_range.1 hi
    refine Function.update_of_ne (fun heq => ?_) ..
    have hlast := (hplace i (Nat.le_of_lt hi')).1 heq
    omega
  · show [Function.update r.cells r.head a ((r.tail + r.size) % r.capacity)] = [a]
    rw [(hplace r.size (Nat.le_refl _)).2 rfl, Function.update_self]

theorem pop_eq_none_iff : r.pop = none ↔ r.toList = [] := by
  have hhead := r.head_lt
  have htail := r.tail_lt
  rw [← List.length_eq_zero_iff, length_toList, size_eq, pop]
  split_ifs <;> simp <;> omega

/-- The entry that is read comes first. -/
theorem toList_pop (h : r.pop = some (a, r')) : r.toList = a :: r'.toList := by
  rw [pop] at h
  split_ifs at h with hempty
  obtain ⟨rfl, rfl⟩ := Prod.mk.inj (Option.some.inj h)
  have hhead := r.head_lt
  have htail := r.tail_lt
  have hsize : r.size =
      RingBuffer.size { r with tail := r.next r.tail, tail_lt := r.next_lt r.tail } + 1 := by
    rw [size_eq, size_eq]
    show _ = (if r.next r.tail ≤ r.head then r.head - r.next r.tail
      else r.head + r.capacity - r.next r.tail) + 1
    rw [next_eq r htail]
    split_ifs <;> omega
  rw [toList, hsize, List.range_succ_eq_map, List.map_cons, List.map_map, Nat.add_zero,
    Nat.mod_eq_of_lt htail, toList]
  congr 1
  refine List.map_congr_left fun i _ => congrArg r.cells ?_
  show (r.tail + (i + 1)) % r.capacity = (r.next r.tail + i) % r.capacity
  rw [next, Nat.mod_add_mod, Nat.add_assoc, Nat.add_comm 1 i]

theorem pop_of_cons {l : List α} (h : r.toList = a :: l) :
    ∃ r', r.pop = some (a, r') ∧ r'.toList = l := by
  rcases hpop : r.pop with _ | ⟨b, r'⟩
  · rw [pop_eq_none_iff.1 hpop] at h
    exact absurd h (by simp)
  · have hlist := toList_pop hpop
    rw [h, List.cons.injEq] at hlist
    obtain ⟨rfl, rfl⟩ := hlist
    exact ⟨r', rfl, rfl⟩

theorem push_of_lt (h : r.toList.length + 1 < r.capacity) (a : α) :
    ∃ r', r.push a = some r' ∧ r'.toList = r.toList ++ [a] ∧ r'.capacity = r.capacity := by
  obtain ⟨r', hr'⟩ := Option.isSome_iff_exists.1 (push_isSome_iff.2 h)
  refine ⟨r', hr', toList_push hr', ?_⟩
  rw [push] at hr'
  split_ifs at hr'
  rw [← Option.some.inj hr']

theorem capacity_pop (h : r.pop = some (a, r')) : r'.capacity = r.capacity := by
  rw [pop] at h
  split_ifs at h
  rw [← (Prod.mk.inj (Option.some.inj h)).2]

theorem capacity_push (h : r.push a = some r') : r'.capacity = r.capacity := by
  rw [push] at h
  split_ifs at h
  rw [← Option.some.inj h]

variable (r) in
/-- The queue that the buffer stores. -/
def queue : BoundedQueue α := ⟨r.capacity - 1, r.toList⟩

theorem map_queue_push (r : RingBuffer α) (a : α) :
    (r.push a).map queue = r.queue.enqueue a := by
  have hroom : (r.push a).isSome = true ↔ r.toList.length < r.capacity - 1 := by
    rw [push_isSome_iff]
    omega
  rcases hpush : r.push a with _ | r'
  · rw [hpush] at hroom
    rw [BoundedQueue.enqueue, queue, if_neg fun h => absurd (hroom.2 h) (by simp)]
    rfl
  · rw [hpush] at hroom
    rw [BoundedQueue.enqueue, queue, if_pos (hroom.1 rfl), Option.map_some, queue,
      toList_push hpush, capacity_push hpush]

theorem map_queue_pop (r : RingBuffer α) :
    r.pop.map (Prod.map id queue) = r.queue.dequeue := by
  rcases hpop : r.pop with _ | ⟨a, r'⟩
  · rw [BoundedQueue.dequeue, queue, pop_eq_none_iff.1 hpop]
    rfl
  · rw [BoundedQueue.dequeue, queue, toList_pop hpop, ← capacity_pop hpop]
    rfl

end RingBuffer

end Oak.Lib
