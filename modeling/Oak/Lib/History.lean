import Mathlib.Data.List.Basic
import Mathlib.Order.Lattice

/-!
# Bounded histories

A history remembers the documents an editing session went through. It consists of the document
`base` before its first row, the documents after the rows that are done, and the documents after
the rows that were taken back and can be done again. `floor` rows at the front cannot be taken
back.

* `stateAt h k` is the document recorded at position `k`, and `now h` the one at the current
  position `h.position`.
* `record` appends a row after the current position; it drops the rows that were taken back, and
  the oldest row when there are more than `limit`.
* `seek` moves the current position, between `floor` and the number of rows.

## Main results

* `now_seek`: after `seek k` the current document is the one recorded at the position reached.
* `now_record`: after recording, the current document is the one that was recorded.
-/

namespace Oak.Lib

/-- The documents of an editing session, up to and after the current position. -/
@[ext] structure History (D : Type*) where
  /-- The document before the first row. -/
  base : D
  /-- The documents after the rows that are done, oldest first. -/
  done : List D
  /-- The documents after the rows that were taken back, next one first. -/
  undone : List D
  /-- The number of rows at the front that cannot be taken back. -/
  floor : ℕ
  floor_le : floor ≤ done.length

namespace History

variable {D : Type*} (h : History D) (d : D)

/-- A history whose single row is the opening of the document. -/
def opened : History D := ⟨d, [d], [], 1, le_rfl⟩

/-- The number of rows that are done. -/
def position : ℕ := h.done.length

/-- The number of rows, done or not. -/
def rows : ℕ := h.done.length + h.undone.length

/-- The current document. -/
def now : D := h.done.getLastD h.base

variable (k : ℕ)

/-- The document recorded at position `k`; the last one for a `k` past the end. -/
def stateAt : D := ((h.done ++ h.undone).take k).getLastD h.base

theorem floor_le_position : h.floor ≤ h.position := h.floor_le

theorem position_le_rows : h.position ≤ h.rows := Nat.le_add_right _ _

/-- The current document is the one recorded at the current position. -/
theorem stateAt_position : h.stateAt h.position = h.now := by
  simp [stateAt, position, now]

/-- Forget the oldest row. -/
def evict : History D where
  base := h.done.headD h.base
  done := h.done.tail
  undone := h.undone
  floor := h.floor - 1
  floor_le := by
    have := h.floor_le
    rw [List.length_tail]
    omega

/-- Append the row that leaves `d`, before any eviction. -/
def append : History D where
  base := h.base
  done := h.done ++ [d]
  undone := []
  floor := h.floor
  floor_le := h.floor_le.trans (by simp)

/-- Append the row that leaves `d`; at most `limit` rows are kept. -/
def record (limit : ℕ) (d : D) : History D :=
  if limit < (h.append d).position then (h.append d).evict else h.append d

/-- Move the current position to `k`, or as close to it as the floor and the rows allow. -/
def seek : History D where
  base := h.base
  done := (h.done ++ h.undone).take (max h.floor k)
  undone := (h.done ++ h.undone).drop (max h.floor k)
  floor := h.floor
  floor_le := by
    have := h.floor_le
    simp only [List.length_take, List.length_append]
    omega

theorem position_seek : (h.seek k).position = min (max h.floor k) h.rows := by
  simp [position, seek, rows]

@[simp] theorem rows_seek : (h.seek k).rows = h.rows := by
  simp only [rows, seek, List.length_take, List.length_drop, List.length_append]
  omega

/-- After `seek k` the current document is the one recorded at the position reached. -/
theorem now_seek : (h.seek k).now = h.stateAt (max h.floor k) := by
  simp [now, stateAt, seek]

/-- A seek forgets the position before it. -/
@[simp] theorem seek_seek (k j : ℕ) : (h.seek k).seek j = h.seek j := by
  ext1 <;> simp [seek]

theorem seek_congr {k j : ℕ} (hkj : max h.floor k = max h.floor j) : h.seek k = h.seek j := by
  ext1 <;> simp only [seek, hkj]

theorem seek_back {ds : List D} {d : D} (hdone : h.done = ds ++ [d]) (hk : h.floor ≤ ds.length) :
    h.seek ds.length = ⟨h.base, ds, d :: h.undone, h.floor, hk⟩ := by
  ext1 <;> simp [seek, hdone, max_eq_right hk]

theorem floor_le_concat : h.floor ≤ (h.done ++ [d]).length :=
  h.floor_le.trans (by simp)

theorem seek_ahead {ds : List D} {d : D} (hundone : h.undone = d :: ds) :
    h.seek (h.position + 1) = ⟨h.base, h.done ++ [d], ds, h.floor, h.floor_le_concat d⟩ := by
  have hmax : max h.floor (h.position + 1) = (h.done ++ [d]).length := by
    have := h.floor_le
    simp only [position, List.length_append, List.length_singleton]
    omega
  have happ : h.done ++ h.undone = (h.done ++ [d]) ++ ds := by simp [hundone]
  ext1 <;> simp only [seek, hmax, happ, List.take_left, List.drop_left]

theorem seek_position : h.seek h.position = h := by
  obtain ⟨base, done, undone, floor, hfloor⟩ := h
  simp [seek, position, max_eq_right hfloor]

/-- Seeking ahead of the last row, or to the current position, moves nothing. -/
theorem seek_eq_self {k : ℕ} (hk : h.position = k ∨ h.rows = h.position ∧ h.position ≤ k) :
    h.seek k = h := by
  rcases hk with rfl | ⟨hrows, hle⟩
  · exact h.seek_position
  · have hnil : h.undone = [] := by
      rw [← List.length_eq_zero_iff]
      simp only [rows, position] at hrows
      omega
    have hfloor := h.floor_le
    simp only [position] at hle
    ext1 <;> simp [seek, hnil, max_eq_right (hfloor.trans hle), List.take_of_length_le hle, hle]

theorem now_append : (h.append d).now = d := by simp [append, now]

theorem now_evict (hd : h.done ≠ []) : h.evict.now = h.now := by
  cases hdone : h.done with
  | nil => exact absurd hdone hd
  | cons d ds => simp only [evict, now, hdone, List.headD_cons, List.tail_cons, List.getLastD_cons]

theorem done_append_ne_nil : (h.append d).done ≠ [] := by simp [append]

theorem now_record (limit : ℕ) (d : D) : (h.record limit d).now = d := by
  rw [record]
  split
  · rw [now_evict _ (h.done_append_ne_nil d), now_append]
  · exact h.now_append d

theorem rows_record_le {limit : ℕ} (hlimit : h.position ≤ limit) (d : D) :
    (h.record limit d).rows ≤ limit := by
  rw [record]
  split_ifs with hlt
  · simp only [rows, evict, append, List.length_tail, List.length_append, List.length_singleton,
      List.length_nil]
    simp only [position] at hlimit
    omega
  · simp only [position] at hlt
    simp only [rows, append, List.length_nil] at hlt ⊢
    omega

end History

end Oak.Lib
