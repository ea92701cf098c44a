import Redis.HyperLogLog.Basic

/-! The sparse encoding as a list of opcodes that covers a row of registers: reading it,
replacing one opcode, and merging neighbours. -/
namespace Redis.HyperLogLog

open ByteBuffer List Bool

variable {ops : List Op} {count first index k len n v : Nat} {mk : Nat → Op} {op : Op}

/-- The lengths and values that the bits of an opcode can hold. -/
def Op.Valid : Op → Prop
  | .zero len => 1 ≤ len ∧ len ≤ 64
  | .xzero len => 1 ≤ len ∧ len ≤ 16384
  | .val v len => 1 ≤ v ∧ v ≤ 32 ∧ 1 ≤ len ∧ len ≤ 4

def Op.encode : Op → Bytes
  | .zero len => zeroSet len
  | .xzero len => xzeroSet len
  | .val v len => valSet v len

/-- The registers an opcode covers. -/
def Op.expand (op : Op) : List Nat := List.replicate op.runlen op.regval

def encodeOps (ops : List Op) : Bytes := ops.flatMap Op.encode

def expandOps (ops : List Op) : List Nat := ops.flatMap Op.expand

@[simp] theorem encodeOps_nil : encodeOps [] = [] := rfl

@[simp] theorem encodeOps_cons (op : Op) (ops : List Op) :
    encodeOps (op :: ops) = op.encode ++ encodeOps ops := flatMap_cons

@[simp] theorem encodeOps_append (a b : List Op) : encodeOps (a ++ b) = encodeOps a ++ encodeOps b :=
  flatMap_append

@[simp] theorem expandOps_nil : expandOps [] = [] := rfl

@[simp] theorem expandOps_cons (op : Op) (ops : List Op) :
    expandOps (op :: ops) = op.expand ++ expandOps ops := flatMap_cons

@[simp] theorem expandOps_append (a b : List Op) : expandOps (a ++ b) = expandOps a ++ expandOps b :=
  flatMap_append

@[simp] theorem Op.expand_length (op : Op) : op.expand.length = op.runlen := length_replicate

@[simp] theorem Op.encode_length (op : Op) : op.encode.length = op.size := by
  cases op <;> rfl

theorem Op.Valid.runlen_pos (h : op.Valid) : 1 ≤ op.runlen := by
  cases op with
  | zero len | xzero len => exact h.1
  | val v len => exact h.2.2.1

theorem Op.size_pos (op : Op) : 1 ≤ op.size := by
  cases op <;> simp [Op.size]

theorem Op.encode_ne_nil (op : Op) : op.encode ≠ [] := by
  cases op <;> simp [Op.encode, zeroSet, xzeroSet, valSet]

section Bits

theorem zeroSet_spec : ∀ len < 65, 1 ≤ len →
    isZero ((zeroSet len).getD 0 0) = true ∧ zeroLen ((zeroSet len).getD 0 0) = len := by decide

theorem valSet_spec (h : (Op.val v len).Valid) :
    isZero ((valSet v len).getD 0 0) = false ∧ isXzero ((valSet v len).getD 0 0) = false ∧
      isVal ((valSet v len).getD 0 0) = true ∧ valValue ((valSet v len).getD 0 0) = v ∧
      valLen ((valSet v len).getD 0 0) = len := by
  obtain ⟨hv, hv', hl, hl'⟩ := h
  obtain ⟨v, rfl⟩ := Nat.exists_eq_succ_of_ne_zero (Nat.one_le_iff_ne_zero.mp hv)
  obtain ⟨len, rfl⟩ := Nat.exists_eq_succ_of_ne_zero (Nat.one_le_iff_ne_zero.mp hl)
  clear hv hl
  rw [Nat.succ_le_iff] at hv' hl'
  revert hl' len hv' v
  decide

/-- The first byte of the long form, by the upper bits of the length. -/
theorem xzeroSet_first : ∀ hi < 64,
    isZero (UInt8.ofNat (hi ||| 0x40)) = false ∧ isXzero (UInt8.ofNat (hi ||| 0x40)) = true ∧
      isVal (UInt8.ofNat (hi ||| 0x40)) = false ∧
      (UInt8.ofNat (hi ||| 0x40) &&& 0x3f).toNat = hi := by decide

theorem isZero_not_isVal : ∀ len < 65, 1 ≤ len →
    isVal ((zeroSet len).getD 0 0) = false ∧ isXzero ((zeroSet len).getD 0 0) = false := by decide

theorem xzeroSet_spec (hpos : 1 ≤ len) (hlen : len ≤ 16384) :
    isZero ((xzeroSet len).getD 0 0) = false ∧ isXzero ((xzeroSet len).getD 0 0) = true ∧
      isVal ((xzeroSet len).getD 0 0) = false ∧
      xzeroLen ((xzeroSet len).getD 0 0) ((xzeroSet len).getD 1 0) = len := by
  have hhi : (len - 1) >>> 8 < 64 := by
    omega
  obtain ⟨hzero, hxzero, hval, hbits⟩ := xzeroSet_first _ hhi
  refine ⟨hzero, hxzero, hval, ?_⟩
  have hlo : ((UInt8.ofNat ((len - 1) &&& 0xff)).toNat) = (len - 1) % 2 ^ 8 := by
    rw [show (0xff : Nat) = 2 ^ 8 - 1 from rfl, Nat.and_two_pow_sub_one_eq_mod, UInt8.toNat_ofNat']
    omega
  have hrejoin : (((len - 1) >>> 8) <<< 8 ||| (len - 1) % 2 ^ 8) = len - 1 := by
    rw [← Nat.shiftLeft_add_eq_or_of_lt (Nat.mod_lt _ (by norm_num)), Nat.shiftLeft_eq,
      Nat.shiftRight_eq_div_pow]
    omega
  simp only [xzeroLen, xzeroSet, getD_cons_zero, getD_cons_succ, hbits, hlo, hrejoin]
  omega

end Bits

theorem getD_append_zero {a : Bytes} (ha : a ≠ []) (b : Bytes) : (a ++ b).getD 0 0 = a.getD 0 0 := by
  cases a with
  | nil => exact absurd rfl ha
  | cons x a => rfl

/-- An opcode is read back. -/
theorem readOp_encode (h : op.Valid) (rest : Bytes) : readOp (op.encode ++ rest) = op := by
  rw [readOp, getD_append_zero op.encode_ne_nil]
  cases op with
  | zero len =>
    obtain ⟨hzero, hlen⟩ := zeroSet_spec len (by have := h.2; omega) h.1
    simp only [Op.encode, hzero, hlen, if_true]
  | xzero len =>
    obtain ⟨hzero, hxzero, -, hlen⟩ := xzeroSet_spec h.1 h.2
    have hnext : (xzeroSet len ++ rest).getD 1 0 = (xzeroSet len).getD 1 0 := rfl
    simp only [Op.encode, hzero, hxzero, hnext, hlen, if_true, if_false, false_eq_true]
  | val v len =>
    obtain ⟨hzero, hxzero, -, hvalue, hlen⟩ := valSet_spec h
    simp only [Op.encode, hzero, hxzero, hvalue, hlen, if_false, false_eq_true]

theorem encodeOps_ne_nil : encodeOps (op :: ops) ≠ [] := by
  exact append_ne_nil_of_left_ne_nil op.encode_ne_nil _

/-- Where the search of `hllSparseSet` stops: at the opcode that covers the register,
with a position in front of it that is the start of an opcode. -/
theorem locate_spec (hvalid : ∀ op ∈ ops, op.Valid)
    (hlo : first ≤ index) (hhi : index < first + (expandOps ops).length) (p : Nat) (prev : Option Nat)
    {fuel : Nat} (hfuel : (encodeOps ops).length ≤ fuel) :
    ∃ a op b prev', ops = a ++ op :: b ∧
      locate index fuel (encodeOps ops) p prev first =
        some ⟨p + (encodeOps a).length, prev', first + (expandOps a).length, op⟩ ∧
      first + (expandOps a).length ≤ index ∧ index < first + (expandOps a).length + op.runlen ∧
      ((a = [] ∧ prev' = prev) ∨
        ∃ a' a'', a = a' ++ a'' ∧ prev' = some (p + (encodeOps a').length)) := by
  induction ops generalizing fuel p prev first with
  | nil =>
    simp only [expandOps_nil, length_nil] at hhi
    omega
  | cons op ops ih =>
    obtain ⟨hop, hops⟩ := forall_mem_cons.mp hvalid
    have hpos := hop.runlen_pos
    have hsize := op.size_pos
    rw [encodeOps_cons, length_append, op.encode_length] at hfuel
    obtain ⟨fuel, rfl⟩ : ∃ n, fuel = n + 1 := ⟨fuel - 1, by omega⟩
    rw [locate, if_neg encodeOps_ne_nil]
    simp only [encodeOps_cons, readOp_encode hop]
    rw [expandOps_cons, length_append, op.expand_length] at hhi
    split_ifs with hhere
    · exact ⟨[], op, ops, prev, rfl, rfl, hlo, by simp; omega, .inl ⟨rfl, rfl⟩⟩
    · rw [← op.encode_length, drop_left]
      have hlo' : first + op.runlen ≤ index := by omega
      have hhi' : index < first + op.runlen + (expandOps ops).length := by omega
      have hfuel' : (encodeOps ops).length ≤ fuel := by omega
      obtain ⟨a, op', b, prev', rfl, hlocate, hle, hlt, hprev⟩ :=
        ih hops hlo' hhi' (p + op.encode.length) (some p) hfuel'
      refine ⟨op :: a, op', b, prev', rfl, ?_, ?_, ?_, .inr ?_⟩
      · rw [hlocate]
        simp [add_assoc]
      · simpa [add_assoc] using hle
      · simpa [add_assoc] using hlt
      · rcases hprev with ⟨rfl, rfl⟩ | ⟨a', a'', rfl, rfl⟩
        · exact ⟨[], [op], rfl, rfl⟩
        · exact ⟨op :: a', a'', rfl, by simp [add_assoc]⟩

/-- The registers with one of them raised, as the three pieces of the run. -/
theorem replicate_set {c : Nat} (hk : k < n) :
    (replicate n v).set k c = replicate k v ++ [c] ++ replicate (n - 1 - k) v := by
  rw [set_eq_take_append_cons_drop, if_pos (by rwa [length_replicate]), take_replicate,
    drop_replicate, min_eq_left (le_of_lt hk), show n - (k + 1) = n - 1 - k by omega]
  simp

/-- The short or the long form of a run of zeros. -/
def zeroOp (len : Nat) : Op := if len > 64 then .xzero len else .zero len

theorem zeroOp_encode (len : Nat) : (zeroOp len).encode = zeroRun len := by
  rw [zeroOp, zeroRun]
  split_ifs <;> rfl

theorem zeroOp_spec (hpos : 1 ≤ len) (hlen : len ≤ 16384) :
    (zeroOp len).Valid ∧ (zeroOp len).expand = replicate len 0 := by
  rw [zeroOp]
  split_ifs with hlong
  · exact ⟨⟨hpos, hlen⟩, rfl⟩
  · exact ⟨⟨hpos, by omega⟩, rfl⟩

/-- An optional run in front of or behind the new value. -/
theorem piece_spec (hmk : 1 ≤ len → (mk len).Valid ∧ (mk len).expand = replicate len v) :
    ∃ ops : List Op, (∀ o ∈ ops, o.Valid) ∧
      encodeOps ops = (if len ≠ 0 then (mk len).encode else []) ∧
      expandOps ops = replicate len v := by
  rcases Nat.eq_zero_or_pos len with rfl | hpos
  · exact ⟨[], by simp, rfl, rfl⟩
  · obtain ⟨hvalid, hexpand⟩ := hmk hpos
    refine ⟨[mk len], by simpa using hvalid, ?_, ?_⟩
    · rw [if_pos (by omega), encodeOps_cons, encodeOps_nil, append_nil]
    · rw [expandOps_cons, hexpand, expandOps_nil, append_nil]

/-- A run that is split around one register. -/
theorem split_spec (hk : k < n)
    (hmk : ∀ len, 1 ≤ len → len ≤ n → (mk len).Valid ∧ (mk len).expand = replicate len v)
    (hcount : 1 ≤ count) (hmax : count ≤ 32) :
    ∃ ops : List Op, (∀ o ∈ ops, o.Valid) ∧
      encodeOps ops = (if k ≠ 0 then (mk k).encode else []) ++ valSet count 1 ++
        (if n - 1 - k ≠ 0 then (mk (n - 1 - k)).encode else []) ∧
      expandOps ops = (replicate n v).set k count := by
  obtain ⟨l, hl, hlencode, hlexpand⟩ := piece_spec fun hpos => hmk k hpos (by omega)
  obtain ⟨r, hr, hrencode, hrexpand⟩ := piece_spec fun hpos => hmk (n - 1 - k) hpos (by omega)
  refine ⟨l ++ .val count 1 :: r, ?_, ?_, ?_⟩
  · intro o ho
    rcases mem_append.mp ho with ho | ho
    · exact hl o ho
    · rcases mem_cons.mp ho with rfl | ho
      · exact ⟨hcount, hmax, by norm_num, by norm_num⟩
      · exact hr o ho
  · rw [encodeOps_append, encodeOps_cons, hlencode, hrencode, append_assoc]
    rfl
  · rw [expandOps_append, expandOps_cons, hlexpand, hrexpand, replicate_set hk, append_assoc]
    rfl

/-- The opcodes that replace the one that was found cover the same registers, with the
one that is set. -/
theorem splitSeq_spec (hop : op.Valid) (hlo : first ≤ index)
    (hhi : index < first + op.runlen) (hcount : 1 ≤ count) (hmax : count ≤ 32) :
    ∃ ops : List Op, (∀ o ∈ ops, o.Valid) ∧ splitSeq op first index count = encodeOps ops ∧
      expandOps ops = op.expand.set (index - first) count := by
  have hk : index - first < op.runlen := by omega
  have hleft : index ≠ first ↔ index - first ≠ 0 := by omega
  have hright : index ≠ first + op.runlen - 1 ↔ op.runlen - 1 - (index - first) ≠ 0 := by omega
  have hlast : first + op.runlen - 1 - index = op.runlen - 1 - (index - first) := by omega
  -- both forms of a run of zeros are split in the same way
  have hzeros (hlong : op.runlen ≤ 16384) :
      ∃ ops : List Op, (∀ o ∈ ops, o.Valid) ∧
        (if index ≠ first then zeroRun (index - first) else []) ++ valSet count 1 ++
          (if index ≠ first + op.runlen - 1 then zeroRun (first + op.runlen - 1 - index) else []) =
            encodeOps ops ∧
        expandOps ops = (replicate op.runlen 0).set (index - first) count := by
    obtain ⟨ops, hvalid, hencode, hexpand⟩ := split_spec hk
      (fun len hpos hle => zeroOp_spec hpos (le_trans hle hlong)) hcount hmax
    rw [zeroOp_encode, zeroOp_encode] at hencode
    refine ⟨ops, hvalid, ?_, hexpand⟩
    simp only [hleft, hright, hlast]
    exact hencode.symm
  cases op with
  | zero n => exact hzeros (le_trans hop.2 (by norm_num))
  | xzero n => exact hzeros hop.2
  | val v n =>
    have hmk (len : Nat) (hpos : 1 ≤ len) (hle : len ≤ n) :
        (Op.val v len).Valid ∧ (Op.val v len).expand = replicate len v :=
      ⟨⟨hop.1, hop.2.1, hpos, le_trans hle hop.2.2.2⟩, rfl⟩
    obtain ⟨ops, hvalid, hencode, hexpand⟩ := split_spec hk hmk hcount hmax
    refine ⟨ops, hvalid, ?_, hexpand⟩
    simp only [splitSeq, hleft, hright, hlast]
    exact hencode.symm

section Merge

theorem getD_at (a b : Bytes) (i : Nat) : (a ++ b).getD (a.length + i) 0 = b.getD i 0 := by
  rw [getD_append_right _ _ _ _ (Nat.le_add_right ..), Nat.add_sub_cancel_left]

/-- A byte that is tested as a value belongs to a value. -/
theorem Op.val_of_isVal (hop : op.Valid) (h : isVal (op.encode.getD 0 0) = true) :
    ∃ v len, op = .val v len := by
  cases op with
  | zero len =>
    rw [Op.encode, (isZero_not_isVal len (by have := hop.2; omega) hop.1).1] at h
    cases h
  | xzero len =>
    rw [Op.encode, (xzeroSet_spec hop.1 hop.2).2.2.1] at h
    cases h
  | val v len => exact ⟨v, len, rfl⟩

/-- Two values in a row, replaced by one. -/
theorem merged_eq (a b : List Op) (v v' w len len' l : Nat) :
    (encodeOps (a ++ .val v len :: .val v' len' :: b)).take (encodeOps a).length ++ valSet w l ++
        (encodeOps (a ++ .val v len :: .val v' len' :: b)).drop ((encodeOps a).length + 2) =
      encodeOps (a ++ .val w l :: b) := by
  have hsplit : encodeOps (a ++ .val v len :: .val v' len' :: b) =
      (encodeOps a ++ (valSet v len ++ valSet v' len')) ++ encodeOps b := by simp [Op.encode]
  have htwo : (encodeOps a).length + 2 = (encodeOps a ++ (valSet v len ++ valSet v' len')).length := by
    simp [valSet]
  rw [hsplit, htwo, drop_left, append_assoc (encodeOps a), take_left]
  simp [Op.encode]

/-- The scan stops at starts of opcodes only, and keeps what they cover. -/
theorem mergeScan_spec {a b : List Op} (ha : ∀ o ∈ a, o.Valid) (hb : ∀ o ∈ b, o.Valid) (scanlen : Nat) :
    ∃ ops : List Op, (∀ o ∈ ops, o.Valid) ∧
      mergeScan scanlen (encodeOps (a ++ b)) (encodeOps a).length = encodeOps ops ∧
      expandOps ops = expandOps (a ++ b) := by
  induction scanlen generalizing a b with
  | zero => exact ⟨a ++ b, forall_mem_append.mpr ⟨ha, hb⟩, rfl, rfl⟩
  | succ scanlen ih =>
    rw [mergeScan]
    cases b with
    | nil =>
      rw [append_nil, if_pos (le_refl _)]
      exact ⟨a, ha, rfl, rfl⟩
    | cons op b =>
      obtain ⟨hop, htail⟩ := forall_mem_cons.mp hb
      have hlen : ¬ (encodeOps (a ++ op :: b)).length ≤ (encodeOps a).length := by
        have hsize := op.size_pos
        simp only [encodeOps_append, encodeOps_cons, length_append, op.encode_length]
        omega
      have hbyte : (encodeOps (a ++ op :: b)).getD (encodeOps a).length 0 = op.encode.getD 0 0 := by
        rw [encodeOps_append, encodeOps_cons]
        exact (getD_at _ _ 0).trans (getD_append_zero op.encode_ne_nil _)
      -- the scan goes on behind the opcode
      have hstay : ∃ ops : List Op, (∀ o ∈ ops, o.Valid) ∧
          mergeScan scanlen (encodeOps (a ++ op :: b)) ((encodeOps a).length + op.size) =
            encodeOps ops ∧
          expandOps ops = expandOps (a ++ op :: b) := by
        have hnext := ih (a := a ++ [op])
          (forall_mem_append.mpr ⟨ha, by simpa using hop⟩) htail
        simpa [append_assoc] using hnext
      rw [if_neg hlen]
      simp only [hbyte]
      cases op with
      | zero len =>
        obtain ⟨-, hxzero⟩ := isZero_not_isVal len (by have := hop.2; omega) hop.1
        obtain ⟨hzero, -⟩ := zeroSet_spec len (by have := hop.2; omega) hop.1
        simp only [Op.encode, hxzero, hzero, if_true, if_false, false_eq_true]
        exact hstay
      | xzero len =>
        obtain ⟨-, hxzero, -⟩ := xzeroSet_spec hop.1 hop.2
        simp only [Op.encode, hxzero, if_true]
        exact hstay
      | val v len =>
        obtain ⟨hzero, hxzero, -, hvalue, hvlen⟩ := valSet_spec hop
        simp only [Op.encode, hzero, hxzero, hvalue, hvlen, if_false, false_eq_true]
        split_ifs with hmerge
        · obtain ⟨hin, hval, hsame, hfits⟩ := hmerge
          cases b with
          | nil => simp [Op.encode, valSet] at hin
          | cons op' b =>
            obtain ⟨hop', hrest⟩ := forall_mem_cons.mp htail
            have hbyte' : (encodeOps (a ++ .val v len :: op' :: b)).getD
                ((encodeOps a).length + 1) 0 = op'.encode.getD 0 0 := by
              rw [encodeOps_append, encodeOps_cons, encodeOps_cons, getD_at]
              exact getD_append_zero op'.encode_ne_nil _
            rw [hbyte'] at hval hsame hfits
            obtain ⟨v', len', rfl⟩ := Op.val_of_isVal hop' hval
            obtain ⟨-, -, -, hvalue', hvlen'⟩ := valSet_spec hop'
            rw [Op.encode, hvalue'] at hsame
            rw [Op.encode, hvlen'] at hfits
            subst hsame
            have hmerged : (Op.val v (len + len')).Valid :=
              ⟨hop.1, hop.2.1, Nat.le_add_right_of_le hop.2.2.1, hfits⟩
            obtain ⟨ops, hvalid, hscan, hexpand⟩ :=
              ih ha (forall_mem_cons.mpr ⟨hmerged, hrest⟩)
            refine ⟨ops, hvalid, ?_, hexpand.trans ?_⟩
            · rw [hbyte', Op.encode, hvlen', merged_eq]
              exact hscan
            · simp only [expandOps_append, expandOps_cons, Op.expand, Op.runlen, Op.regval,
                replicate_add, append_assoc]
        · exact hstay

end Merge

end Redis.HyperLogLog
