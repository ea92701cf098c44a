import Redis.Library.ByteBuffer

/-! The table that `STRALGO LCS` fills: one array of 32-bit cells for all pairs of an index
into the first string and one into the second. Its size and the place of a cell are
computed in 32 bits. -/
namespace Redis.Strings

open ByteBuffer

/-- The length of a string, cut to `uint32_t`. -/
def lcsLen (s : Bytes) : UInt32 := UInt32.ofNat s.length

/-- The cells that are allocated; only the product with the size of a cell is a `size_t`. -/
def lcsCells (alen blen : UInt32) : UInt32 := (alen + 1) * (blen + 1)

/-- The place of the cell `LCS(i, j)`. -/
def lcsCell (blen i j : UInt32) : UInt32 := j + i * (blen + 1)

/-- Every pair of indexes has a cell of its own in a table of the right size. -/
structure LcsTableFits (a b : Bytes) : Prop where
  cells : (lcsCells (lcsLen a) (lcsLen b)).toNat = (a.length + 1) * (b.length + 1)
  inside : ∀ i ≤ a.length, ∀ j ≤ b.length,
    (lcsCell (lcsLen b) (.ofNat i) (.ofNat j)).toNat < (a.length + 1) * (b.length + 1)
  apart : ∀ i ≤ a.length, ∀ j ≤ b.length, ∀ i' ≤ a.length, ∀ j' ≤ b.length,
    lcsCell (lcsLen b) (.ofNat i) (.ofNat j) = lcsCell (lcsLen b) (.ofNat i') (.ofNat j') →
      i = i' ∧ j = j'

variable {a b : Bytes}

theorem lcsCell_lt {i j : Nat} (hi : i ≤ a.length) (hj : j ≤ b.length) :
    j + i * (b.length + 1) < (a.length + 1) * (b.length + 1) := by
  have hrow : i * (b.length + 1) ≤ a.length * (b.length + 1) := Nat.mul_le_mul_right _ hi
  rw [Nat.succ_mul]
  omega

theorem lcsCell_toNat (hsize : (a.length + 1) * (b.length + 1) < 2 ^ 32) {i j : Nat}
    (hi : i ≤ a.length) (hj : j ≤ b.length) :
    (lcsCell (lcsLen b) (.ofNat i) (.ofNat j)).toNat = j + i * (b.length + 1) := by
  have hlt := lcsCell_lt hi hj
  have hcell : lcsCell (lcsLen b) (.ofNat i) (.ofNat j) = .ofNat (j + i * (b.length + 1)) := by
    simp [lcsCell, lcsLen]
  rw [hcell, UInt32.toNat_ofNat_of_lt' (hlt.trans hsize)]

/-- Two rows have no cell in common, as long as the table does not outgrow 32 bits. -/
theorem lcsTable_fits_iff (a b : Bytes) :
    LcsTableFits a b ↔ (a.length + 1) * (b.length + 1) < 2 ^ 32 := by
  refine ⟨fun h => h.cells ▸ UInt32.toNat_lt _, fun hsize => ⟨?_, ?_, ?_⟩⟩
  · have hcells : lcsCells (lcsLen a) (lcsLen b) = .ofNat ((a.length + 1) * (b.length + 1)) := by
      simp [lcsCells, lcsLen]
    rw [hcells, UInt32.toNat_ofNat_of_lt' hsize]
  · intro i hi j hj
    rw [lcsCell_toNat hsize hi hj]
    exact lcsCell_lt hi hj
  · intro i hi j hj i' hi' j' hj' heq
    have hplace := congrArg UInt32.toNat heq
    rw [lcsCell_toNat hsize hi hj, lcsCell_toNat hsize hi' hj'] at hplace
    have hrow : i = i' := by
      have hdiv := congrArg (· / (b.length + 1)) hplace
      simpa [Nat.add_mul_div_right, Nat.div_eq_of_lt (Nat.lt_succ_of_le hj),
        Nat.div_eq_of_lt (Nat.lt_succ_of_le hj')] using hdiv
    subst hrow
    exact ⟨rfl, Nat.add_right_cancel hplace⟩

/-- Two strings of 65535 bytes: the array has no cell at all. -/
theorem lcsTable_empty :
    (lcsCells (lcsLen (List.replicate 65535 0)) (lcsLen (List.replicate 65535 0))).toNat = 0 := by
  rw [lcsLen, List.length_replicate]
  rfl

end Redis.Strings
