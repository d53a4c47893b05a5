import Mathlib.Data.List.Basic

/-! # Buffers and their ranges

A buffer is a list of cells.  It is read by range, written by range and resized; a larger
buffer is filled up with a blank cell.
-/

namespace Library

open List

variable {α : Type*}

def slice (buffer : List α) (offset length : Nat) : List α := (buffer.drop offset).take length

/-- The buffer after some cells were written to a position. -/
def overwrite (buffer : List α) (offset : Nat) (cells : List α) : List α :=
  buffer.take offset ++ cells ++ buffer.drop (offset + cells.length)

def resized (blank : α) (buffer : List α) (size : Nat) : List α :=
  buffer.take size ++ replicate (size - buffer.length) blank

@[simp] theorem slice_zero (buffer : List α) (offset : Nat) : slice buffer offset 0 = [] := by
  simp [slice]

variable {buffer : List α} {offset size length : Nat} {cells : List α}

theorem slice_append_left {a : List α} (b : List α) (h : offset + length ≤ a.length) :
    slice (a ++ b) offset length = slice a offset length := by
  rw [slice, slice, drop_append_of_le_length (by omega), take_append_of_le_length]
  rw [length_drop]
  omega

theorem slice_append_right (a b : List α) : slice (a ++ b) a.length b.length = b := by
  simp [slice]

theorem slice_take (h : offset + length ≤ size) :
    slice (buffer.take size) offset length = slice buffer offset length := by
  rw [slice, slice, drop_take, take_take, Nat.min_eq_left (by omega)]

theorem length_overwrite (h : offset + cells.length ≤ buffer.length) :
    (overwrite buffer offset cells).length = buffer.length := by
  simp only [overwrite, length_append, length_take, length_drop]
  omega

@[simp] theorem length_resized (blank : α) (buffer : List α) (size : Nat) :
    (resized blank buffer size).length = size := by
  simp only [resized, length_append, length_take, length_replicate]
  omega

theorem slice_resized (blank : α) (h : offset + length ≤ size)
    (hin : offset + length ≤ buffer.length) :
    slice (resized blank buffer size) offset length = slice buffer offset length := by
  rw [resized, slice_append_left, slice_take h]
  rw [length_take]
  omega

theorem mem_resized {blank a : α} (h : a ∈ resized blank buffer size) : a ∈ buffer ∨ a = blank := by
  rcases mem_append.mp h with htake | hfill
  · exact .inl (mem_of_mem_take htake)
  · exact .inr (eq_of_mem_replicate hfill)

end Library
