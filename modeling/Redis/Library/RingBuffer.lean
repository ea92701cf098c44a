import Mathlib

/-! A circular buffer with a write index. Read from the index on, and around the end, it
holds the elements in the order in which they were written. -/

namespace RingBuffer

open List

variable {α : Type*} {buf chunk : List α} {idx : Nat}

/-- The elements, the oldest one first. -/
def inOrder (buf : List α) (idx : Nat) : List α := buf.rotate idx

/-- Overwrite the elements from the index on. -/
def write (buf : List α) (idx : Nat) (chunk : List α) : List α :=
  buf.take idx ++ chunk ++ buf.drop (idx + chunk.length)

@[simp] theorem inOrder_length : (inOrder buf idx).length = buf.length := length_rotate _ _

theorem write_length (h : idx + chunk.length ≤ buf.length) :
    (write buf idx chunk).length = buf.length := by
  simp [write]
  omega

/-- The index may be taken around the end of the buffer. -/
theorem inOrder_wrap (buf : List α) (idx : Nat) :
    inOrder buf (if idx = buf.length then 0 else idx) = inOrder buf idx := by
  split_ifs with h
  · rw [inOrder, inOrder, h, rotate_length, rotate_zero]
  · rfl

/-- What is written replaces the oldest elements. -/
theorem inOrder_write (h : idx + chunk.length ≤ buf.length) :
    inOrder (write buf idx chunk) (idx + chunk.length) =
      (inOrder buf idx).drop chunk.length ++ chunk := by
  have hfront : (buf.take idx ++ chunk).length = idx + chunk.length := by
    rw [length_append, length_take_of_le (by omega)]
  have hwrite := write_length h
  rw [inOrder, inOrder, rotate_eq_drop_append_take (by omega),
    rotate_eq_drop_append_take (by omega), write, drop_left' hfront, take_left' hfront,
    drop_append_of_le_length (by rw [length_drop]; omega), drop_drop,
    append_assoc]

/-- Reading from some index on is reading in order from some element on. -/
theorem inOrder_add {skip : Nat} (h : skip ≤ buf.length) (len : Nat)
    (hlen : skip + len ≤ buf.length) :
    (inOrder buf ((idx + skip) % buf.length)).take len = ((inOrder buf idx).drop skip).take len := by
  have hrotate : inOrder buf ((idx + skip) % buf.length) = (inOrder buf idx).rotate skip := by
    rw [inOrder, inOrder, rotate_rotate, rotate_mod]
  rw [hrotate, rotate_eq_drop_append_take (by rwa [inOrder_length]),
    take_append_of_le_length (by rw [length_drop, inOrder_length]; omega)]

/-- Reading up to the end of the buffer, and then from its start. -/
theorem inOrder_take (hidx : idx ≤ buf.length) {len : Nat} (h : buf.length - idx ≤ len) :
    (inOrder buf idx).take len = buf.drop idx ++ buf.take (min (len - (buf.length - idx)) idx) := by
  rw [inOrder, rotate_eq_drop_append_take hidx, take_append, length_drop,
    take_of_length_le (by rwa [length_drop]), take_take]

end RingBuffer
