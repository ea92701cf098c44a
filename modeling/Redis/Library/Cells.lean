import Redis.Library.ByteBuffer

/-! Arrays in a byte buffer: cells of one width, one after the other. -/
namespace ByteBuffer

open List

variable {α : Type} {w : Nat} {enc : α → Bytes}

def cells (enc : α → Bytes) (l : List α) : Bytes := l.flatMap enc

@[simp] theorem cells_nil : cells enc [] = [] := rfl

@[simp] theorem cells_cons (a : α) (l : List α) : cells enc (a :: l) = enc a ++ cells enc l := rfl

@[simp] theorem cells_append (l l' : List α) : cells enc (l ++ l') = cells enc l ++ cells enc l' := by
  simp [cells]

section Width

variable (hw : ∀ a, (enc a).length = w)

include hw

theorem cells_length (l : List α) : (cells enc l).length = l.length * w := by
  induction l with
  | nil => simp
  | cons a l ih => rw [cells_cons, length_append, hw, ih, length_cons, Nat.succ_mul,
      add_comm]

/-- The bytes from a cell on. -/
theorem drop_cells (pre post : List α) (rest : Bytes) :
    (cells enc (pre ++ post) ++ rest).drop (pre.length * w) = cells enc post ++ rest := by
  rw [cells_append, append_assoc, ← cells_length hw, drop_left]

/-- Writing a cell over as many bytes. -/
theorem store_cell (pre : List α) (a : α) {gap rest : Bytes} (hgap : gap.length = w) :
    store (cells enc pre ++ gap ++ rest) (pre.length * w) (enc a) = cells enc (pre ++ [a]) ++ rest := by
  rw [store_append (cells_length hw pre).symm ((hw a).trans hgap.symm), cells_append, cells_cons,
    cells_nil, append_nil]

/-- Making the array longer by one cell and moving its end opens a gap. -/
theorem grow_cells (pre post : List α) :
    ∃ gap : Bytes, gap.length = w ∧
      memmove (realloc (cells enc (pre ++ post)) (((pre ++ post).length + 1) * w))
        ((pre.length + 1) * w) (pre.length * w) (post.length * w) =
          cells enc pre ++ gap ++ cells enc post := by
  obtain ⟨gap, hgap, hmove⟩ := memmove_realloc (a := cells enc pre) (x := []) (b := cells enc post)
    (m := w) (Nat.zero_le _)
  refine ⟨gap, hgap, ?_⟩
  rw [← hmove, cells_append, cells_length hw, cells_length hw, append_nil, length_nil,
    add_zero, Nat.succ_mul, length_append, Nat.succ_mul, add_mul]
  congr 2
  omega

/-- Moving the end of the array over a cell and cutting it. -/
theorem shrink_cells (pre : List α) (a : α) (post : List α) :
    realloc (memmove (cells enc (pre ++ a :: post)) (pre.length * w) ((pre.length + 1) * w)
      (post.length * w)) ((pre ++ post).length * w) = cells enc (pre ++ post) := by
  obtain ⟨gap, hgap, hmove⟩ := realloc_memmove (a := cells enc pre) (x := enc a)
    (b := cells enc post) (m := 0) (Nat.zero_le _)
  rw [eq_nil_of_length_eq_zero hgap, append_nil] at hmove
  rw [cells_append, cells_append, cells_cons, ← append_assoc, ← hmove, cells_length hw,
    cells_length hw, hw, length_append, Nat.succ_mul, add_mul]
  rfl

end Width

end ByteBuffer
