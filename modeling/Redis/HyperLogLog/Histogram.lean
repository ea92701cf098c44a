import Redis.HyperLogLog.Registers

/-! The histogram of the registers, computed from each of the three encodings. -/
namespace Redis.HyperLogLog

open ByteBuffer PackedFields Util List

/-- The histogram of a list of registers. -/
def regHisto (r : List Nat) : List Nat := r.foldl incr (List.replicate 64 0)

theorem foldl_incr_replicate (n v : Nat) (histo : List Nat) :
    (replicate n v).foldl incr histo = histo.modify v (· + n) := by
  induction n generalizing histo with
  | zero => exact (modify_id ..).symm
  | succ n ih =>
    rw [replicate_succ, foldl_cons, ih, incr, modify_modify_eq]
    congr 1
    funext x
    exact add_right_comm x 1 n

section Sparse

theorem sparseRegHistoLoop_spec (ops : List Op) (idx : Nat) (histo : List Nat) :
    sparseRegHistoLoop ops (cInt idx) histo =
      ((expandOps ops).foldl incr histo, cInt (idx + (expandOps ops).length : Nat)) := by
  induction ops generalizing idx histo with
  | nil => rfl
  | cons op ops ih =>
    rw [sparseRegHistoLoop, cInt_add, ih, expandOps_cons, foldl_append, length_append,
      op.expand_length, add_assoc, Op.expand, foldl_incr_replicate]

theorem hllSparseRegHisto_eq (s : Bytes) (histo : List Nat) :
    hllSparseRegHisto s histo = ((expandOps (histoOps s)).foldl incr histo,
      decide (cInt (expandOps (histoOps s)).length ≠ hllRegisters)) := by
  have hloop := sparseRegHistoLoop_spec (histoOps s) 0 histo
  rw [zero_add, show cInt (0 : Nat) = 0 from rfl] at hloop
  rw [hllSparseRegHisto, hloop]

/-- Whatever the bytes are, an opcode that is read is one that can be written. -/
theorem readOp_valid (s : Bytes) : (readOp s).Valid := by
  have hlow (b : UInt8) (n : Nat) (mask : UInt8) (h : mask.toNat = n) : (b &&& mask).toNat ≤ n := by
    rw [UInt8.toNat_and, h]
    exact Nat.and_le_right
  simp only [readOp, zeroLen, xzeroLen, valValue, valLen]
  split_ifs
  · exact ⟨Nat.le_add_left .., Nat.succ_le_succ (hlow _ 63 0x3f rfl)⟩
  · refine ⟨Nat.le_add_left .., Nat.succ_le_of_lt (Nat.or_lt_two_pow (n := 14) ?_ ?_)⟩
    · have hhigh := hlow (s.getD 0 0) 63 0x3f rfl
      omega
    · exact lt_trans (UInt8.toNat_lt _) (by norm_num)
  · exact ⟨Nat.le_add_left .., Nat.succ_le_succ (hlow _ 31 0x1f rfl), Nat.le_add_left ..,
      Nat.succ_le_succ (hlow _ 3 0x3 rfl)⟩

/-- Two bytes cover at least one register. -/
theorem length_le_opcodes {fuel : Nat} {s : Bytes} (h : s.length ≤ fuel) :
    s.length ≤ 2 * (expandOps (opcodes fuel s)).length := by
  induction fuel generalizing s with
  | zero => omega
  | succ fuel ih =>
    rw [opcodes]
    split_ifs with hs
    · simp [hs]
    · have hpos := (readOp_valid s).runlen_pos
      have hsize : 1 ≤ (readOp s).size ∧ (readOp s).size ≤ 2 := by
        cases readOp s <;> simp [Op.size]
      have hrest := ih (s := s.drop (readOp s).size) (by rw [length_drop]; omega)
      rw [length_drop] at hrest
      rw [expandOps_cons, length_append, Op.expand_length]
      omega

theorem opcodesBefore_length (fuel : Nat) (s : Bytes) :
    opcodesBefore fuel s.length s = opcodes fuel s := by
  induction fuel generalizing s with
  | zero => rfl
  | succ fuel ih => simp only [opcodesBefore, opcodes, length_eq_zero_iff, ← length_drop, ih]

theorem intLen_of_lt {n : Nat} (h : n < 2 ^ 31) : intLen n = some n := by
  rw [intLen, Nat.mod_eq_of_lt (by omega), if_pos h]

/-- If the opcodes cover few registers, then the string is short and all of it is read. -/
theorem histoOps_of_le {s : Bytes} (h : (expandOps (opcodes s.length s)).length ≤ hllRegisters) :
    histoOps s = opcodes s.length s := by
  have hlen := length_le_opcodes (le_refl s.length)
  rw [hllRegisters] at h
  rw [histoOps, intLen_of_lt (by omega), Option.getD_some, opcodesBefore_length]

theorem hllSparseRegHisto_spec {s : Bytes} {r : List Nat} (h : SparseRep s r)
    (hlen : r.length = hllRegisters) (histo : List Nat) :
    hllSparseRegHisto s histo = (r.foldl incr histo, false) := by
  obtain ⟨ops, hvalid, rfl, rfl⟩ := h
  have hops := opcodes_encodeOps hvalid (le_refl _)
  rw [hllSparseRegHisto_eq, histoOps_of_le (by rw [hops, hlen]), hops, hlen]
  rfl

end Sparse

section Dense

/-- The byte above does not reach into the register. -/
theorem or_shiftLeft_and (a b : Nat) {n : Nat} (hn : 6 ≤ n) : (a ||| (b <<< n)) &&& 63 = a &&& 63 := by
  apply Nat.eq_of_testBit_eq
  intro t
  rw [show (63 : Nat) = 2 ^ 6 - 1 from rfl, Nat.testBit_and, Nat.testBit_and, Nat.testBit_or,
    Nat.testBit_shiftLeft, Nat.testBit_two_pow_sub_one]
  by_cases ht : t < 6
  · rw [decide_eq_false (show ¬ t ≥ n by omega), Bool.false_and, Bool.or_false]
  · rw [decide_eq_false ht, Bool.and_false, Bool.and_false]

theorem denseGet_block (p : Bytes) (j k : Nat) :
    denseGet p (16 * j + k) =
      ((byteAt p (12 * j + 6 * k / 8) >>> (6 * k % 8)) |||
        (byteAt p (12 * j + (6 * k / 8 + 1)) <<< (8 - 6 * k % 8))) &&& 63 := by
  have hbyte : (16 * j + k) * 6 / 8 = 12 * j + 6 * k / 8 := by omega
  have hfb : (16 * j + k) * 6 % 8 = 6 * k % 8 := by omega
  simp only [denseGet, getField, hllBits, hbyte, hfb, add_assoc]
  rfl

/-- The unrolled reads are those of the macro. -/
theorem denseBlock_eq (p : Bytes) (j : Nat) :
    denseBlock p (12 * j) = (range 16).map fun k => denseGet p (16 * j + k) := by
  rw [show range 16 = [0, 1, 2, 3, 4, 5, 6, 7, 8, 9, 10, 11, 12, 13, 14, 15] from rfl]
  simp only [map_cons, map_nil, denseGet_block, denseBlock]
  norm_num [or_shiftLeft_and]

theorem map_range_mul {α : Type} (f : Nat → α) (a b : Nat) :
    (range (a * b)).map f =
      (range a).flatMap fun j => (range b).map fun k => f (b * j + k) := by
  induction a with
  | zero => simp
  | succ a ih =>
    rw [Nat.succ_mul, range_add, map_append, ih, range_succ, flatMap_append,
      map_map, flatMap_singleton, mul_comm a b]
    rfl

theorem hllDenseRegHisto_spec {s : Bytes} {r : List Nat} (h : DenseRep s r)
    (hlen : r.length = hllRegisters) (histo : List Nat) :
    hllDenseRegHisto s histo = r.foldl incr histo := by
  have hr : r = (range hllRegisters).map (denseGet s) := by
    refine ext_getElem (by rw [length_map, length_range, hlen]) fun i hi hi' => ?_
    rw [getElem_map, getElem_range, h.2 i (by omega), getD_eq_getElem _ _ hi]
  rw [hr, show hllRegisters = 1024 * 16 from rfl, map_range_mul, foldl_flatMap, hllDenseRegHisto]
  simp only [denseBlock_eq]

end Dense

section Raw

theorem flatMap_chunks (m : List Nat) (n k : Nat) :
    (range n).flatMap (fun j => (m.drop (k * j)).take k) = m.take (k * n) := by
  induction n with
  | zero => simp
  | succ n ih =>
    rw [range_succ, flatMap_append, flatMap_singleton, ih, Nat.mul_succ, take_add]

/-- The shortcut for a word of zeros counts the same. -/
theorem hllRawRegHisto_spec {m : List Nat} (hm : m.length = hllRegisters) (histo : List Nat) :
    hllRawRegHisto m histo = m.foldl incr histo := by
  have hall : m = (range (hllRegisters / 8)).flatMap fun j => (m.drop (8 * j)).take 8 := by
    rw [flatMap_chunks, take_of_length_le (by rw [hm]; decide)]
  rw [hllRawRegHisto]
  conv_rhs => rw [hall, foldl_flatMap]
  refine foldl_ext _ _ _ fun h j hj => ?_
  rw [mem_range, hllRegisters] at hj
  simp only
  split_ifs with hzero
  · have hlen : ((m.drop (8 * j)).take 8).length = 8 := by
      rw [length_take, length_drop, hm, hllRegisters]
      omega
    have hword : (m.drop (8 * j)).take 8 = replicate 8 0 := by
      rw [eq_replicate_iff]
      exact ⟨hlen, fun v hv => by simpa using all_eq_true.mp hzero v hv⟩
    rw [hword, foldl_incr_replicate]
  · rfl

end Raw

end Redis.HyperLogLog
