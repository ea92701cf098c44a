import Redis.HyperLogLog.Histogram

/-! How the functions that read a sparse object tell whether its opcodes cover the registers,
for any string: the index is an `int`, and only runs of values are held against the limit. -/
namespace Redis.HyperLogLog

open ByteBuffer Util List

variable {α : Type} {sum : Int → Int} {write : α → Nat → Nat → Nat → α} {ops : List Op}

theorem opcodes_valid (fuel : Nat) (s : Bytes) : ∀ op ∈ opcodes fuel s, op.Valid := by
  induction fuel generalizing s with
  | zero => exact fun _ h => absurd h not_mem_nil
  | succ fuel ih =>
    rw [opcodes]
    split_ifs
    · exact fun _ h => absurd h not_mem_nil
    · exact forall_mem_cons.mpr ⟨readOp_valid s, ih _⟩

/-- The opcodes behind `n` registers with which the limit is checked as it should be: a value
comes at an index that is not negative, without an overflow of the sum; one that goes too far does
not begin just behind the last register, where the loop would end as if all was well; and the sum
of all of them is not another number that is the same `int`. -/
def Sound : Nat → List Op → Prop
  | n, [] => cInt n = hllRegisters → n = hllRegisters
  | n, .val _ len :: ops =>
    0 ≤ cInt n ∧ cInt n + len < 2 ^ 31 ∧
      (cInt n + len > hllRegisters → cInt n ≠ hllRegisters) ∧
      (¬ cInt n + len > hllRegisters → Sound (n + len) ops)
  | n, op :: ops => Sound (n + op.runlen) ops

theorem sound_skip {op : Op} (h : ∀ v n, op ≠ .val v n) (n : Nat) :
    Sound n (op :: ops) ↔ Sound (n + op.runlen) ops := by
  rw [Sound]
  exact h

theorem Op.val_or_not (op : Op) : (∃ v len, op = .val v len) ∨ ∀ v len, op ≠ .val v len := by
  cases op <;> simp

/-- What is left in an `int` of an integer that needs one more bit. -/
theorem cInt_cases {x : Int} (hlo : -2 ^ 32 ≤ x) (hhi : x ≤ 2 ^ 32) :
    x < -2 ^ 31 ∧ cInt x = x + 2 ^ 32 ∨ (-2 ^ 31 ≤ x ∧ x < 2 ^ 31) ∧ cInt x = x ∨
      2 ^ 31 ≤ x ∧ cInt x = x - 2 ^ 32 := by
  rw [cInt, Int.bmod_eq_emod]
  split <;> omega

theorem cInt_range (x : Int) : -2 ^ 31 ≤ cInt x ∧ cInt x < 2 ^ 31 :=
  ⟨Int.le_bmod (m := 2 ^ 32) (by decide), Int.bmod_lt (m := 2 ^ 32) (by decide)⟩

/-- The index behind a value that fits. -/
theorem cInt_add_fits {n len : Nat} (hlo : 0 ≤ cInt n) (hfits : ¬ cInt n + len > hllRegisters) :
    cInt n + len = cInt (n + len : Nat) := by
  rw [hllRegisters] at hfits
  have hcases := @cInt_cases (cInt n + len) (by omega) (by omega)
  rw [← cInt_add]
  omega

/-- With sound opcodes the loop stays inside, and an index that is right at its end is the whole
sum. -/
theorem sparseLoop_sound (hsum : ∀ x, -2 ^ 31 ≤ x → x < 2 ^ 31 → sum x = x) {n : Nat}
    (h : Sound n ops) (a : α) : ∃ idx b, sparseLoop sum write ops (cInt n) a = sparseEnd idx b ∧
    (idx = hllRegisters → n + (expandOps ops).length = hllRegisters) := by
  induction ops generalizing n a with
  | nil => exact ⟨cInt n, a, rfl, h⟩
  | cons op ops ih =>
    rw [expandOps_cons, length_append, op.expand_length, ← add_assoc]
    obtain ⟨v, len, rfl⟩ | hskip := op.val_or_not
    · obtain ⟨hlo, hhi, hbehind, hrest⟩ := h
      rw [sparseLoop, hsum _ (by omega) (by omega), Int.add_comm]
      split_ifs with hover hout
      · exact ⟨cInt n, a, rfl, fun heq => absurd heq (hbehind hover)⟩
      · omega
      · rw [cInt_add_fits hlo hover]
        exact ih (hrest hover) _
    · rw [sparseLoop_skip hskip, cInt_add]
      exact ih ((sound_skip hskip n).mp h) a

/-- Otherwise the conversion writes outside, or takes opcodes that cover too much. -/
theorem sparseLoop_unsound (hvalid : ∀ op ∈ ops, op.Valid) {n : Nat} (h : ¬ Sound n ops) (a : α) :
    sparseLoop cInt write ops (cInt n) a = .outside ∨
      (∃ b, sparseLoop cInt write ops (cInt n) a = .ok b) ∧
        hllRegisters < n + (expandOps ops).length := by
  induction ops generalizing n a with
  | nil =>
    obtain ⟨hmod, hne⟩ := Classical.not_imp.mp h
    refine .inr ⟨⟨a, by rw [hmod]; rfl⟩, ?_⟩
    by_contra hle
    rw [hllRegisters, expandOps_nil, length_nil] at hle
    rw [cInt_of_lt (by omega)] at hmod
    omega
  | cons op ops ih =>
    obtain ⟨hop, hops⟩ := forall_mem_cons.mp hvalid
    rw [expandOps_cons, length_append, op.expand_length, ← add_assoc]
    obtain ⟨v, len, rfl⟩ | hskip := op.val_or_not
    · have hlen : 1 ≤ len ∧ len ≤ 4 := hop.2.2
      have hrange := cInt_range n
      have hsum := @cInt_cases (len + cInt n) (by omega) (by omega)
      rw [sparseLoop, Op.runlen]
      by_cases hin : 0 ≤ cInt n ∧ cInt n + len < 2 ^ 31
      · rw [show cInt (len + cInt n) = cInt n + len by omega]
        split_ifs with hover hout
        · -- the loop is left with the index that a whole object has
          have heq : cInt n = hllRegisters := by
            by_contra hne
            exact h ⟨hin.1, hin.2, fun _ => hne, fun hle => absurd hover hle⟩
          have hle : hllRegisters ≤ n := by
            by_contra hlt
            rw [cInt_of_lt (by omega)] at heq
            omega
          exact .inr ⟨⟨a, by rw [heq]; exact if_neg (not_not.mpr rfl)⟩, by omega⟩
        · omega
        · rw [cInt_add_fits hin.1 hover]
          exact ih hops (fun hrest => h ⟨hin.1, hin.2, fun h => absurd h hover, fun _ => hrest⟩) _
      · left
        rw [hllRegisters, if_neg (by omega), if_pos (by omega)]
    · rw [sparseLoop_skip hskip, cInt_add]
      exact ih hops (fun hrest => h ((sound_skip hskip n).mpr hrest)) a

variable {o : Hll} {m : List Nat}

def Hll.opcodes (o : Hll) : List Op := HyperLogLog.opcodes o.registers.length o.registers

/-- The registers of a sparse object, as its opcodes say. -/
def Hll.decoded (o : Hll) : List Nat := expandOps o.opcodes

/-- The registers that the histogram counts. -/
def Hll.counted (o : Hll) : List Nat := expandOps (histoOps o.registers)

theorem Hll.counted_eq (h : o.decoded.length = hllRegisters) : o.counted = o.decoded :=
  congrArg expandOps (histoOps_of_le (le_of_eq h))

theorem hllSparseToDense_eq (h : o.encoding = .sparse) :
    hllSparseToDense o = Converted.map (fun dense => { o with encoding := .dense, registers := dense })
      (sparseLoop cInt denseSetRun o.opcodes (cInt (0 : Nat))
        (replicate (hllDenseSize - hllHdrSize) 0)) := by
  rw [hllSparseToDense, h]
  rfl

theorem hllMerge_eq (h : o.encoding = .sparse) (m : List Nat) :
    hllMerge m o = sparseLoop id raiseRun o.opcodes (cInt (0 : Nat)) m := by
  rw [hllMerge, h]
  rfl

/-- What the three readers of a sparse object have to do. -/
structure Validated (o : Hll) (m : List Nat) : Prop where
  inside : hllSparseToDense o ≠ .outside ∧ hllMerge m o ≠ .outside
  toDense_ok : (∃ o', hllSparseToDense o = .ok o') ↔ o.decoded.length = hllRegisters
  merge_ok : (∃ m', hllMerge m o = .ok m') ↔ o.decoded.length = hllRegisters
  toDense : ∀ o', hllSparseToDense o = .ok o' →
    o'.encoding = .dense ∧ DenseRep o'.registers o.decoded
  merge : ∀ m', hllMerge m o = .ok m' → m' = List.zipWith max m o.decoded
  histo : ∀ histo, (hllSparseRegHisto o.registers histo).2 = true ↔ o.decoded.length ≠ hllRegisters

theorem hllSparseRegHisto_invalid (o : Hll) (histo : List Nat) :
    (hllSparseRegHisto o.registers histo).2 = true ↔ cInt o.counted.length ≠ hllRegisters := by
  rw [hllSparseRegHisto_eq, decide_eq_true_iff]
  rfl

theorem Validated.sound (hsparse : o.encoding = .sparse) (h : Validated o m) : Sound 0 o.opcodes := by
  have hdense := hllSparseToDense_eq hsparse
  by_contra hunsound
  rcases @sparseLoop_unsound _ denseSetRun o.opcodes (opcodes_valid _ _) 0 hunsound
    (replicate (hllDenseSize - hllHdrSize) 0) with hout | ⟨⟨d, hok⟩, hlt⟩
  · rw [hout] at hdense
    exact h.inside.1 hdense
  · rw [hok] at hdense
    have htotal := h.toDense_ok.mp ⟨_, hdense⟩
    rw [zero_add] at hlt
    exact absurd htotal (ne_of_gt hlt)

/-- The validation of a sparse object is exact just if the opcodes are sound, and those that begin
in the part of the string that the histogram reads do not cover all registers (modulo `2 ^ 32`)
unless all opcodes do. -/
theorem sparse_validation_iff (hsparse : o.encoding = .sparse) (hm : m.length = hllRegisters) :
    Validated o m ↔ Sound 0 o.opcodes ∧
      (cInt o.counted.length = hllRegisters → o.decoded.length = hllRegisters) := by
  have hvalid : ∀ op ∈ o.opcodes, op.Valid := opcodes_valid _ _
  have hdense := hllSparseToDense_eq hsparse
  have hmerge := hllMerge_eq hsparse m
  constructor
  · intro h
    refine ⟨h.sound hsparse, fun hmod => ?_⟩
    by_contra hne
    exact (hllSparseRegHisto_invalid o []).mp ((h.histo []).mpr hne) hmod
  · rintro ⟨hsound, hmod⟩
    have hhisto (histo : List Nat) : (hllSparseRegHisto o.registers histo).2 = true ↔
        o.decoded.length ≠ hllRegisters := by
      rw [hllSparseRegHisto_invalid]
      exact not_congr ⟨hmod, fun h => by rw [o.counted_eq h, h]; rfl⟩
    by_cases htotal : o.decoded.length = hllRegisters
    · obtain ⟨d, hloop, hd⟩ := sparseLoop_dense hvalid htotal
      replace hdense := hdense.trans (congrArg _ hloop)
      replace hmerge := hmerge.trans (sparseLoop_merge hvalid htotal hm)
      refine ⟨?_, iff_of_true ⟨_, hdense⟩ htotal, iff_of_true ⟨_, hmerge⟩ htotal, ?_, ?_, hhisto⟩
      · rw [hdense, hmerge]
        exact ⟨nofun, nofun⟩
      · rintro o' h
        cases hdense.symm.trans h
        exact ⟨rfl, hd⟩
      · rintro m' h
        cases hmerge.symm.trans h
        rfl
    · -- neither loop ends with the index of a whole object
      have herr {α : Type} {sum : Int → Int} (hsum : ∀ x, -2 ^ 31 ≤ x → x < 2 ^ 31 → sum x = x)
          (write : α → Nat → Nat → Nat → α) (a : α) :
          sparseLoop sum write o.opcodes (cInt (0 : Nat)) a = .err := by
        obtain ⟨idx, b, hloop, hidx⟩ := sparseLoop_sound hsum hsound a
        rw [Nat.zero_add] at hidx
        rw [hloop]
        exact if_pos fun h => htotal (hidx h)
      replace hdense := hdense.trans
        (congrArg _ (herr (fun x hlo hhi => by have := @cInt_cases x; omega) denseSetRun _))
      replace hmerge := hmerge.trans (herr (fun _ _ _ => rfl) raiseRun m)
      refine ⟨?_, iff_of_false ?_ htotal, iff_of_false ?_ htotal, ?_, ?_, hhisto⟩
      all_goals simp [hdense, hmerge, Converted.map]

/-- Four registers with the value 5 behind those that are zero. -/
def fourFives : Hll := { createHLLObject with registers := xzeroSet 16380 ++ valSet 5 4 }

theorem sparse_validation_fives : Validated fourFives (List.replicate hllRegisters 3) := by
  have hops : fourFives.opcodes = [.xzero 16380, .val 5 4] := by decide
  refine (sparse_validation_iff rfl length_replicate).mpr ⟨?_, fun _ => ?_⟩
  · rw [hops]
    exact ⟨by decide, by decide, by decide, fun _ _ => rfl⟩
  · simp [Hll.decoded, hops, Op.runlen]

/-- A new object with a value at its end, which covers one register too many. -/
def trailingValue : Hll := { createHLLObject with registers := xzeroSet hllRegisters ++ valSet 1 1 }

/-- It is converted as if it was whole, while the histogram finds that it is not. -/
theorem trailing_value_accepted : trailingValue.decoded.length = hllRegisters + 1 ∧
    (∃ o, hllSparseToDense trailingValue = .ok o) ∧
    (hllSparseRegHisto trailingValue.registers []).2 = true := by
  have hops : trailingValue.opcodes = [.xzero 16384, .val 1 1] := by decide
  have hlen : trailingValue.decoded.length = hllRegisters + 1 := by
    simp [Hll.decoded, hops, Op.runlen]
  refine ⟨hlen, ?_, ?_⟩
  · exact ⟨_, rfl⟩
  · decide

end Redis.HyperLogLog
