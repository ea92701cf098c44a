import Redis.Library.ByteBuffer

/-! Fields of a fixed width of at most eight bits, packed into bytes from the lowest bit
upwards. A field is read from, and written to, the two bytes that hold it. -/
namespace PackedFields

open ByteBuffer List

variable {t w : Nat} {p : Bytes}

/-- Bit `k` of a string, counted from the lowest bit of the first byte. -/
def bitAt (p : Bytes) (k : Nat) : Bool := (p.getD (k / 8) 0).toBitVec.getLsbD (k % 8)

/-- Field `i` of width `w`. -/
def getField (w : Nat) (p : Bytes) (i : Nat) : Nat :=
  let byte := i * w / 8
  let fb := i * w % 8
  ((byteAt p byte >>> fb) ||| (byteAt p (byte + 1) <<< (8 - fb))) &&& (2 ^ w - 1)

/-- Clear the bits of a mask and put others there. -/
def blend (mask v : Nat) (b : UInt8) : UInt8 := (b &&& ~~~UInt8.ofNat mask) ||| UInt8.ofNat v

/-- Write field `i`, to both bytes it may reach into. -/
def setField (w : Nat) (p : Bytes) (i v : Nat) : Bytes :=
  let byte := i * w / 8
  let fb := i * w % 8
  (p.modify byte (blend ((2 ^ w - 1) <<< fb) (v <<< fb))).modify (byte + 1)
    (blend ((2 ^ w - 1) >>> (8 - fb)) (v >>> (8 - fb)))

theorem testBit_byteAt (p : Bytes) (j t : Nat) :
    (byteAt p j).testBit t = (p.getD j 0).toBitVec.getLsbD t := by
  rw [byteAt, ← UInt8.toNat_toBitVec, BitVec.testBit_toNat]

theorem bitAt_eq (p : Bytes) (j t : Nat) (ht : t < 8) :
    bitAt p (8 * j + t) = (byteAt p j).testBit t := by
  rw [testBit_byteAt, bitAt, Nat.mul_add_div (by norm_num), Nat.mul_add_mod,
    Nat.div_eq_of_lt ht, Nat.mod_eq_of_lt ht, add_zero]

theorem testBit_byteAt_of_le (p : Bytes) (j : Nat) (ht : 8 ≤ t) : (byteAt p j).testBit t = false :=
  Nat.testBit_lt_two_pow
    (lt_of_lt_of_le (byteAt_lt p j) (Nat.pow_le_pow_right (n := 2) (by norm_num) ht))

/-- The bits of a field are bits of the string. -/
theorem testBit_getField (hw : w ≤ 8) (p : Bytes) (i t : Nat) :
    (getField w p i).testBit t = (decide (t < w) && bitAt p (i * w + t)) := by
  simp only [getField, Nat.testBit_and, Nat.testBit_or, Nat.testBit_shiftRight,
    Nat.testBit_shiftLeft, Nat.testBit_two_pow_sub_one]
  by_cases ht : t < w
  · have hsplit : i * w = 8 * (i * w / 8) + i * w % 8 := (Nat.div_add_mod _ 8).symm
    have hfb : i * w % 8 < 8 := Nat.mod_lt _ (by norm_num)
    generalize i * w / 8 = byte at *
    generalize i * w % 8 = fb at *
    rw [hsplit, decide_eq_true ht, Bool.and_true, Bool.true_and]
    by_cases hfirst : fb + t < 8
    · -- the bit is in the first byte
      rw [add_assoc, bitAt_eq p byte _ hfirst, decide_eq_false (by omega), Bool.false_and,
        Bool.or_false]
    · rw [show 8 * byte + fb + t = 8 * (byte + 1) + (t - (8 - fb)) by omega,
        bitAt_eq p (byte + 1) _ (by omega), testBit_byteAt_of_le p byte (by omega),
        decide_eq_true (by omega), Bool.true_and, Bool.false_or]
  · rw [decide_eq_false ht, Bool.and_false, Bool.false_and]

@[simp] theorem setField_length (w : Nat) (p : Bytes) (i v : Nat) :
    (setField w p i v).length = p.length := by
  simp only [setField, length_modify]

theorem getD_modify_self {i : Nat} (hi : i < p.length) (f : UInt8 → UInt8) :
    (p.modify i f).getD i 0 = f (p.getD i 0) := by
  rw [getD_eq_getElem?_getD, getD_eq_getElem?_getD, getElem?_modify_eq,
    getElem?_eq_getElem hi]
  rfl

theorem getD_modify_ne {i j : Nat} (hij : i ≠ j) (p : Bytes) (f : UInt8 → UInt8) :
    (p.modify i f).getD j 0 = p.getD j 0 := by
  rw [getD_eq_getElem?_getD, getD_eq_getElem?_getD, getElem?_modify]
  simp only [hij, if_false]
  cases p[j]? <;> rfl

/-- Behind the end there is nothing to modify, and nothing to read. -/
theorem getD_modify_of_le {i : Nat} (hi : p.length ≤ i) (f : UInt8 → UInt8) :
    (p.modify i f).getD i 0 = p.getD i 0 := by
  rw [getD_eq_default _ _ hi, getD_eq_default _ _ (by rwa [length_modify])]

theorem getLsbD_blend (mask v : Nat) (b : UInt8) (ht : t < 8) :
    (blend mask v b).toBitVec.getLsbD t =
      ((b.toBitVec.getLsbD t && !mask.testBit t) || v.testBit t) := by
  have hofNat (n : Nat) : (UInt8.ofNat n).toBitVec = BitVec.ofNat 8 n := rfl
  simp only [blend, UInt8.toBitVec_or, UInt8.toBitVec_and, UInt8.toBitVec_not, BitVec.getLsbD_or,
    BitVec.getLsbD_and, BitVec.getLsbD_not, hofNat, BitVec.getLsbD_ofNat, ht, decide_true,
    Bool.true_and]

/-- The lower of the two bytes. -/
theorem getLsbD_blend_low {w v : Nat} (hv : v < 2 ^ w) (fb : Nat) (b : UInt8) (ht : t < 8) :
    (blend ((2 ^ w - 1) <<< fb) (v <<< fb) b).toBitVec.getLsbD t =
      if fb ≤ t ∧ t < fb + w then v.testBit (t - fb) else b.toBitVec.getLsbD t := by
  rw [getLsbD_blend _ _ b ht, Nat.testBit_shiftLeft, Nat.testBit_shiftLeft,
    Nat.testBit_two_pow_sub_one]
  split_ifs with hin
  · rw [decide_eq_true (show t ≥ fb from hin.1), decide_eq_true (show t - fb < w by omega)]
    simp
  · by_cases hlow : fb ≤ t
    · have hhigh : v.testBit (t - fb) = false :=
        Nat.testBit_lt_two_pow
          (lt_of_lt_of_le hv (Nat.pow_le_pow_right (n := 2) (by norm_num) (by omega)))
      rw [hhigh, decide_eq_false (show ¬ t - fb < w by omega)]
      simp
    · rw [decide_eq_false (show ¬ t ≥ fb from hlow)]
      simp

/-- The upper of the two bytes, which the field reaches if it crosses the boundary. -/
theorem getLsbD_blend_high {w v : Nat} (hv : v < 2 ^ w) (gap : Nat) (b : UInt8) (ht : t < 8) :
    (blend ((2 ^ w - 1) >>> gap) (v >>> gap) b).toBitVec.getLsbD t =
      if gap + t < w then v.testBit (gap + t) else b.toBitVec.getLsbD t := by
  rw [getLsbD_blend _ _ b ht, Nat.testBit_shiftRight, Nat.testBit_shiftRight,
    Nat.testBit_two_pow_sub_one]
  split_ifs with hin
  · rw [decide_eq_true hin]
    simp
  · have hhigh : v.testBit (gap + t) = false :=
      Nat.testBit_lt_two_pow
        (lt_of_lt_of_le hv (Nat.pow_le_pow_right (n := 2) (by norm_num) (by omega)))
    rw [hhigh, decide_eq_false hin]
    simp

/-- After a write the bits of the field are those of the value, and the others are kept. -/
theorem bitAt_setField (hw : w ≤ 8) (hpos : 0 < w) {i v : Nat} (hv : v < 2 ^ w)
    (hfits : i * w + w ≤ 8 * p.length) (k : Nat) :
    bitAt (setField w p i v) k =
      if i * w ≤ k ∧ k < i * w + w then v.testBit (k - i * w) else bitAt p k := by
  have hsplit : i * w = 8 * (i * w / 8) + i * w % 8 := (Nat.div_add_mod _ 8).symm
  have hfb : i * w % 8 < 8 := Nat.mod_lt _ (by norm_num)
  have hk : k = 8 * (k / 8) + k % 8 := (Nat.div_add_mod _ 8).symm
  have ht : k % 8 < 8 := Nat.mod_lt _ (by norm_num)
  simp only [bitAt, setField]
  generalize i * w / 8 = byte at *
  generalize i * w % 8 = fb at *
  generalize k / 8 = j at *
  generalize k % 8 = t at *
  have hbyte : byte < p.length := by omega
  rcases eq_or_ne byte j with rfl | hlow
  · rw [getD_modify_ne (by omega), getD_modify_self hbyte, getLsbD_blend_low hv fb _ ht]
    exact if_congr (by omega) (by congr 1; omega) rfl
  rcases eq_or_ne (byte + 1) j with rfl | hhigh
  · by_cases hnext : byte + 1 < p.length
    · rw [getD_modify_self (by rwa [length_modify]), getD_modify_ne (by omega),
        getLsbD_blend_high hv _ _ ht]
      exact if_congr (by omega) (by congr 1; omega) rfl
    · rw [getD_modify_of_le (by rw [length_modify]; omega), getD_modify_ne (by omega),
        if_neg (by omega)]
  · rw [getD_modify_ne hhigh, getD_modify_ne hlow, if_neg (by omega)]

theorem getField_setField (hw : w ≤ 8) (hpos : 0 < w) {i v : Nat} (hv : v < 2 ^ w)
    (hfits : i * w + w ≤ 8 * p.length) (j : Nat) :
    getField w (setField w p i v) j = if i = j then v else getField w p j := by
  apply Nat.eq_of_testBit_eq
  intro t
  rw [testBit_getField hw, bitAt_setField hw hpos hv hfits]
  by_cases ht : t < w
  · split_ifs with hin hij hij
    · subst hij
      rw [decide_eq_true ht, Bool.true_and, Nat.add_sub_cancel_left]
    · -- two fields have no bit in common
      rcases Nat.lt_or_gt_of_ne hij with hlt | hlt
      · have hle : (i + 1) * w ≤ j * w := Nat.mul_le_mul_right w hlt
        rw [Nat.succ_mul] at hle
        omega
      · have hle : (j + 1) * w ≤ i * w := Nat.mul_le_mul_right w hlt
        rw [Nat.succ_mul] at hle
        omega
    · subst hij
      omega
    · rw [testBit_getField hw]
  · rw [decide_eq_false ht, Bool.false_and]
    split_ifs
    · exact (Nat.testBit_lt_two_pow
        (lt_of_lt_of_le hv (Nat.pow_le_pow_right (n := 2) (by norm_num) (by omega)))).symm
    · rw [testBit_getField hw, decide_eq_false ht, Bool.false_and]

/-- A string of zeros holds zeros. -/
theorem getField_replicate (w n i : Nat) : getField w (replicate n 0) i = 0 := by
  have hbyte (j : Nat) : byteAt (replicate n 0) j = 0 := by
    rw [byteAt, getD_eq_getElem?_getD, getElem?_replicate]
    split_ifs <;> rfl
  simp [getField, hbyte]

end PackedFields
