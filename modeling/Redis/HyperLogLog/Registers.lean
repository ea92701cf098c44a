import Redis.HyperLogLog.Sparse

/-! What an object of either encoding stands for: a list of 16384 registers. Setting a
register and merging act on that list, whatever the encoding and when it changes. -/
namespace Redis.HyperLogLog

open ByteBuffer PackedFields Util List

variable {r m : List Nat} {o : Hll} {s : Bytes} {i : Nat}
variable {ops : List Op} {count idx index n v : Nat} {op : Op}

/-- The string is a sequence of whole opcodes that cover exactly these registers. -/
def SparseRep (s : Bytes) (r : List Nat) : Prop :=
  ∃ ops : List Op, (∀ op ∈ ops, op.Valid) ∧ s = encodeOps ops ∧ expandOps ops = r

/-- The registers, packed into six bits each. -/
def DenseRep (s : Bytes) (r : List Nat) : Prop :=
  s.length = hllDenseSize - hllHdrSize ∧ ∀ i < hllRegisters, denseGet s i = r.getD i 0

/-- The object stands for these registers. -/
structure Rep (o : Hll) (r : List Nat) : Prop where
  length : r.length = hllRegisters
  lt : ∀ v ∈ r, v < 64
  data : match o.encoding with
    | .dense => DenseRep o.registers r
    | .sparse => SparseRep o.registers r

theorem getD_mem_or_zero (r : List Nat) (i : Nat) : r.getD i 0 ∈ r ∨ r.getD i 0 = 0 := by
  rcases lt_or_ge i r.length with hi | hi
  · left
    rw [getD_eq_getElem _ _ hi]
    exact getElem_mem hi
  · right
    exact getD_eq_default _ _ hi

theorem Rep.getD_lt (h : Rep o r) (i : Nat) : r.getD i 0 < 64 := by
  rcases getD_mem_or_zero r i with hmem | hzero
  · exact h.lt _ hmem
  · omega

theorem getD_set (r : List Nat) (hi : i < r.length) (v j : Nat) :
    (r.set i v).getD j 0 = if i = j then v else r.getD j 0 := by
  rw [getD_eq_getElem?_getD, getD_eq_getElem?_getD, getElem?_set, if_pos hi]
  split_ifs <;> rfl

section Dense

theorem denseGet_denseSet (hs : s.length = hllDenseSize - hllHdrSize) {i : Nat}
    (hi : i < hllRegisters) (hv : v < 64) (j : Nat) :
    denseGet (denseSet s i v) j = if i = j then v else denseGet s j :=
  getField_setField (by norm_num) (by norm_num) hv
    (by simp only [hllDenseSize, hllHdrSize, hllRegisters, hllBits] at hs hi ⊢; omega) j

@[simp] theorem denseSet_length (s : Bytes) (i v : Nat) : (denseSet s i v).length = s.length :=
  setField_length ..

theorem DenseRep.set (h : DenseRep s r) (hr : r.length = hllRegisters) {i : Nat}
    (hi : i < hllRegisters) (hv : v < 64) : DenseRep (denseSet s i v) (r.set i v) := by
  refine ⟨by rw [denseSet_length, h.1], fun j hj => ?_⟩
  rw [denseGet_denseSet h.1 hi hv, getD_set r (by omega)]
  split_ifs
  · rfl
  · exact h.2 j hj

theorem denseSetRun_length (s : Bytes) (idx v n : Nat) :
    (denseSetRun s idx v n).length = s.length := by
  induction n generalizing s idx with
  | zero => rfl
  | succ n ih => rw [denseSetRun, ih, denseSet_length]

theorem denseGet_denseSetRun (hs : s.length = hllDenseSize - hllHdrSize)
    (hn : idx + n ≤ hllRegisters) (hv : v < 64) (j : Nat) :
    denseGet (denseSetRun s idx v n) j =
      if idx ≤ j ∧ j < idx + n then v else denseGet s j := by
  induction n generalizing s idx with
  | zero =>
    rw [denseSetRun, if_neg (by omega)]
  | succ n ih =>
    rw [denseSetRun, ih (by rwa [denseSet_length]) (by omega),
      denseGet_denseSet hs (by omega) hv]
    split_ifs <;> first | rfl | omega

end Dense

section Convert

/-- A register behind an opcode. -/
theorem getD_expand (op : Op) (l : List Nat) (j : Nat) :
    (op.expand ++ l).getD j 0 = if j < op.runlen then op.regval else l.getD (j - op.runlen) 0 := by
  split_ifs with hj
  · rw [getD_append _ _ _ _ (by rwa [op.expand_length]), Op.expand, getD_replicate _ hj]
  · rw [getD_append_right _ _ _ _ (by rw [op.expand_length]; omega), op.expand_length]

theorem opcodes_encodeOps (hvalid : ∀ op ∈ ops, op.Valid) {fuel : Nat}
    (hfuel : (encodeOps ops).length ≤ fuel) : opcodes fuel (encodeOps ops) = ops := by
  induction ops generalizing fuel with
  | nil => cases fuel <;> rfl
  | cons op ops ih =>
    obtain ⟨hop, hops⟩ := forall_mem_cons.mp hvalid
    have hsize := op.size_pos
    rw [encodeOps_cons, length_append, op.encode_length] at hfuel
    obtain ⟨fuel, rfl⟩ : ∃ n, fuel = n + 1 := ⟨fuel - 1, by omega⟩
    rw [opcodes, if_neg encodeOps_ne_nil, encodeOps_cons, readOp_encode hop, ← op.encode_length,
      drop_left, ih hops (by omega)]

section Walk

variable {α : Type} {sum : Int → Int} {write : α → Nat → Nat → Nat → α} {get : α → Nat → Nat}
  {put : Nat → Nat → Nat} {Inv : α → Prop} {x : α}

/-- Writing a run keeps the invariant and puts the value to the registers of the run. -/
structure Writes (write : α → Nat → Nat → Nat → α) (get : α → Nat → Nat) (put : Nat → Nat → Nat)
    (Inv : α → Prop) : Prop where
  keeps : ∀ {x} idx v n, Inv x → Inv (write x idx v n)
  puts : ∀ {x idx v n}, Inv x → idx + n ≤ hllRegisters → v < 64 → ∀ j,
    get (write x idx v n) j = if idx ≤ j ∧ j < idx + n then put (get x j) v else get x j

/-- A value is put to a register, and a zero leaves it alone. -/
def putReg (put : Nat → Nat → Nat) (old v : Nat) : Nat := if v = 0 then old else put old v

theorem sparseLoop_skip (h : ∀ v n, op ≠ .val v n) (ops : List Op) (idx : Int) (x : α) :
    sparseLoop sum write (op :: ops) idx x =
      sparseLoop sum write ops (cInt (idx + op.runlen)) x := by
  rw [sparseLoop]
  exact h

/-- The loop over opcodes that cover the rest of the registers puts their values there. -/
theorem sparseLoop_spec (hsum : ∀ n : Nat, n ≤ hllRegisters → sum n = n)
    (hwrite : Writes write get put Inv) (hvalid : ∀ op ∈ ops, op.Valid)
    (htotal : idx + (expandOps ops).length = hllRegisters) (hx : Inv x) :
    ∃ y, sparseLoop sum write ops idx x = .ok y ∧ Inv y ∧ ∀ j, get y j =
      putReg put (get x j) (if j < idx then 0 else (expandOps ops).getD (j - idx) 0) := by
  induction ops generalizing idx x with
  | nil =>
    have hidx : idx = hllRegisters := htotal
    exact ⟨x, by simp [sparseLoop, sparseEnd, hidx], hx, fun j => by simp [putReg]⟩
  | cons op ops ih =>
    obtain ⟨hop, hops⟩ := forall_mem_cons.mp hvalid
    rw [expandOps_cons, length_append, op.expand_length, ← add_assoc] at htotal
    -- whatever the opcode, its value is put to its registers
    have hnext (y : α) (hy : Inv y) (hget : ∀ j, get y j =
        putReg put (get x j) (if idx ≤ j ∧ j < idx + op.runlen then op.regval else 0)) :
        ∃ z, sparseLoop sum write ops (idx + op.runlen : Nat) y = .ok z ∧ Inv z ∧ ∀ j, get z j =
          putReg put (get x j) (if j < idx then 0 else (expandOps (op :: ops)).getD (j - idx) 0) := by
      obtain ⟨z, hloop, hz, hgetz⟩ := ih hops htotal hy
      refine ⟨z, hloop, hz, fun j => ?_⟩
      rw [hgetz j, hget j, expandOps_cons, getD_expand, Nat.sub_sub]
      split_ifs <;> first | rfl | omega
    have hskip : cInt (idx + op.runlen) = (idx + op.runlen : Nat) :=
      cInt_of_lt (n := idx + op.runlen) (by rw [hllRegisters] at htotal; omega)
    cases op with
    | zero n | xzero n =>
      rw [sparseLoop_skip (by simp), hskip]
      exact hnext x hx fun j => by simp [Op.regval, putReg]
    | val v n =>
      have hn : idx + n + (expandOps ops).length = hllRegisters := htotal
      have hlimit := hsum (n + idx) (by omega)
      rw [Nat.cast_add] at hlimit
      rw [sparseLoop, hlimit, if_neg (by omega), if_neg (by omega), Int.toNat_natCast]
      refine hnext _ (hwrite.keeps idx v n hx) fun j => ?_
      rw [hwrite.puts hx (show idx + n ≤ hllRegisters by omega)
        (lt_of_le_of_lt hop.2.1 (by norm_num)) j]
      show _ = putReg put (get x j) (if idx ≤ j ∧ j < idx + n then v else 0)
      split_ifs
      · rw [putReg, if_neg (ne_of_gt hop.1)]
      · rw [putReg, if_pos rfl]

end Walk

theorem denseSetRun_writes : Writes denseSetRun denseGet (fun _ v => v)
    fun d => d.length = hllDenseSize - hllHdrSize :=
  ⟨fun idx v n hs => (denseSetRun_length _ idx v n).trans hs,
    fun hs hn hv => denseGet_denseSetRun hs hn hv⟩

theorem sparseLoop_dense (hvalid : ∀ op ∈ ops, op.Valid)
    (htotal : (expandOps ops).length = hllRegisters) :
    ∃ d, sparseLoop cInt denseSetRun ops 0 (replicate (hllDenseSize - hllHdrSize) 0) = .ok d ∧
      DenseRep d (expandOps ops) := by
  obtain ⟨d, hloop, hd, hget⟩ := sparseLoop_spec
    (fun n hn => cInt_of_lt (by rw [hllRegisters] at hn; omega)) denseSetRun_writes hvalid
    ((zero_add _).trans htotal) length_replicate
  refine ⟨d, hloop, hd, fun i _ => ?_⟩
  have hzero := getField_replicate hllBits (hllDenseSize - hllHdrSize) i
  rw [hget i, denseGet, hzero, putReg]
  split_ifs <;> simp_all

/-- The conversion keeps the registers and the header. -/
theorem hllSparseToDense_spec (h : Rep o r) :
    ∃ registers, hllSparseToDense o = .ok { o with encoding := .dense, registers } ∧
      DenseRep registers r := by
  obtain ⟨encoding, notused, card, registers⟩ := o
  obtain ⟨hlen, hlt, hdata⟩ := h
  cases encoding with
  | dense => exact ⟨registers, rfl, hdata⟩
  | sparse =>
    obtain ⟨ops, hvalid, rfl, rfl⟩ := hdata
    obtain ⟨d, hloop, hd⟩ := sparseLoop_dense hvalid hlen
    refine ⟨d, ?_, hd⟩
    simp only [hllSparseToDense, opcodes_encodeOps hvalid (le_refl _), hloop, Converted.map]

end Convert

section Set

/-- The result of raising a register that is below the count. -/
structure Raised (o : Hll) (r : List Nat) (index count : Nat) (o' : Hll) : Prop where
  rep : Rep o' (r.set index count)
  notused : o'.notused = o.notused
  card : o'.card.length = o.card.length

theorem Rep.set_lt (h : Rep o r) {i c : Nat} (hc : c < 64) : ∀ v ∈ r.set i c, v < 64 := by
  intro v hv
  rcases mem_or_eq_of_mem_set hv with hv | rfl
  · exact h.lt v hv
  · exact hc

/-- The promotion is only reached with a register to raise, so its assertion holds. -/
theorem promote_spec (h : Rep o r) (hindex : index < hllRegisters)
    (hcount : count < 64) (hraise : r.getD index 0 < count) :
    ∃ o', promote o index count = .changed o' ∧ Raised o r index count o' := by
  obtain ⟨registers, hconvert, hdense⟩ := hllSparseToDense_spec h
  have hset : hllDenseSet registers index count = (denseSet registers index count, true) := by
    rw [hllDenseSet, if_pos (by rw [hdense.2 index hindex]; exact hraise)]
  refine ⟨{ o with encoding := .dense, registers := denseSet registers index count }, ?_, ?_, rfl, rfl⟩
  · simp only [promote, hconvert, hset, if_true]
  · exact ⟨by rw [length_set, h.length], h.set_lt hcount, hdense.set h.length hindex hcount⟩

theorem invalidateCache_card_length (o : Hll) : o.invalidateCache.card.length = o.card.length := by
  rw [Hll.invalidateCache, length_modify]

/-- An update that replaces one opcode by others. -/
theorem updated_spec (h : Rep o r) (hsparse : o.encoding = .sparse) {a seq b : List Op}
    (hcount : count < 64) {prev : Option Nat} (hvalid : ∀ op ∈ a ++ seq ++ b, op.Valid)
    (hexpand : expandOps (a ++ seq ++ b) = r.set index count)
    (hprev : ∃ a' a'', a = a' ++ a'' ∧ prev.getD 0 = (encodeOps a').length) :
    ∃ o', updated o (encodeOps (a ++ seq ++ b)) prev = .changed o' ∧ Raised o r index count o' := by
  obtain ⟨a', a'', rfl, hprev⟩ := hprev
  have hsplit : a' ++ a'' ++ seq ++ b = a' ++ (a'' ++ seq ++ b) := by simp
  rw [hsplit] at hvalid hexpand ⊢
  obtain ⟨ha, hrest⟩ := forall_mem_append.mp hvalid
  obtain ⟨ops, hops, hscan, hsame⟩ := mergeScan_spec ha hrest 5
  rw [updated, hprev, hscan]
  refine ⟨_, rfl, ⟨by rw [length_set, h.length], h.set_lt hcount, ?_⟩, rfl,
    invalidateCache_card_length _⟩
  simp only [Hll.invalidateCache, hsparse]
  exact ⟨ops, hops, rfl, hsame.trans hexpand⟩

theorem replaced_eq (a seq b : List Op) (op : Op) :
    (encodeOps (a ++ op :: b)).take (encodeOps a).length ++ encodeOps seq ++
        (encodeOps (a ++ op :: b)).drop ((encodeOps a).length + op.size) =
      encodeOps (a ++ seq ++ b) := by
  simp

theorem regval_le (h : op.Valid) : op.regval ≤ 32 := by
  cases op with
  | zero n | xzero n => exact Nat.zero_le _
  | val v n => exact h.2.1

/-- The sparse update: refused exactly if the register holds as much already. -/
theorem hllSparseSet_spec (h : Rep o r) (hsparse : o.encoding = .sparse) (sparseMaxBytes : Nat)
    (hindex : index < hllRegisters) (hpos : 1 ≤ count) (hcount : count < 64) :
    (count ≤ r.getD index 0 ∧ hllSparseSet sparseMaxBytes o index count = .same o) ∨
      (r.getD index 0 < count ∧
        ∃ o', hllSparseSet sparseMaxBytes o index count = .changed o' ∧ Raised o r index count o') := by
  have hdata := h.data
  rw [hsparse] at hdata
  obtain ⟨ops, hvalid, hregisters, hr⟩ := hdata
  have hlen : (expandOps ops).length = hllRegisters := hr ▸ h.length
  obtain ⟨a, op, b, prev, rfl, hlocate, hlo, hhi, hprev⟩ := locate_spec hvalid (Nat.zero_le index)
    (by rw [hlen, zero_add]; exact hindex) 0 none (le_refl _)
  simp only [zero_add] at hlo hhi hlocate
  obtain ⟨hvala, htail⟩ := forall_mem_append.mp hvalid
  obtain ⟨hop, hvalb⟩ := forall_mem_cons.mp htail
  have hle := regval_le hop
  have hvalue : r.getD index 0 = op.regval := by
    rw [← hr, expandOps_append, expandOps_cons, getD_append_right _ _ _ _ hlo, getD_expand,
      if_pos (by omega)]
  have hset : r.set index count =
      expandOps a ++ op.expand.set (index - (expandOps a).length) count ++ expandOps b := by
    rw [← hr, expandOps_append, expandOps_cons, set_append_right _ _ hlo,
      set_append_left _ _ (by rw [op.expand_length]; omega), append_assoc]
  have hstart : ∃ a' a'', a = a' ++ a'' ∧ prev.getD 0 = (encodeOps a').length := by
    rcases hprev with ⟨rfl, rfl⟩ | ⟨a', a'', rfl, rfl⟩
    · exact ⟨[], [], rfl, rfl⟩
    · exact ⟨a', a'', rfl, zero_add _⟩
  -- what is put in place of the opcode
  have hreplace (seq : List Op) (hseq : ∀ o ∈ seq, o.Valid)
      (hexpand : expandOps seq = op.expand.set (index - (expandOps a).length) count) :
      ∃ o', updated o (o.registers.take (encodeOps a).length ++ encodeOps seq ++
        o.registers.drop ((encodeOps a).length + op.size)) prev = .changed o' ∧
          Raised o r index count o' := by
    rw [hregisters, replaced_eq]
    refine updated_spec h hsparse hcount ?_ ?_ hstart
    · exact forall_mem_append.mpr ⟨forall_mem_append.mpr ⟨hvala, hseq⟩, hvalb⟩
    · rw [hset, expandOps_append, expandOps_append, hexpand]
  rw [hvalue, hllSparseSet]
  split_ifs with hbig
  · exact .inr ⟨by omega, promote_spec h hindex hcount (by omega)⟩
  · rw [hregisters, hlocate]
    simp only
    rw [← hregisters]
    split_ifs with hsame hsingle hgrow
    · exact .inl ⟨hsame.2, rfl⟩
    all_goals refine .inr ⟨by omega, ?_⟩
    · refine hreplace [.val count 1] (by simpa using ⟨hpos, by omega⟩) ?_
      obtain ⟨hone, -⟩ := hsingle
      rw [show index - (expandOps a).length = 0 by omega, Op.expand, hone]
      rfl
    · exact promote_spec h hindex hcount (by omega)
    · obtain ⟨seq, hseq, hencode, hexpand⟩ := splitSeq_spec hop hlo hhi hpos (by omega)
      rw [hencode]
      exact hreplace seq hseq hexpand

/-- Setting a register of an object of either encoding. -/
theorem hllSet_spec (h : Rep o r) (sparseMaxBytes : Nat)
    (hindex : index < hllRegisters) (hpos : 1 ≤ count) (hcount : count < 64) :
    (count ≤ r.getD index 0 ∧ hllSet sparseMaxBytes o index count = .same o) ∨
      (r.getD index 0 < count ∧
        ∃ o', hllSet sparseMaxBytes o index count = .changed o' ∧ Raised o r index count o') := by
  cases henc : o.encoding with
  | sparse =>
    simp only [hllSet, henc]
    exact hllSparseSet_spec h henc sparseMaxBytes hindex hpos hcount
  | dense =>
    have hdata := h.data
    rw [henc] at hdata
    simp only [hllSet, henc, hllDenseSet, hdata.2 index hindex]
    by_cases hraise : count > r.getD index 0
    · rw [if_pos hraise]
      refine .inr ⟨hraise, _, rfl, ⟨by rw [length_set, h.length], h.set_lt hcount, ?_⟩, rfl, rfl⟩
      exact hdata.set h.length hindex hcount
    · rw [if_neg hraise]
      exact .inl ⟨by omega, rfl⟩

end Set

section Merge

theorem raiseRun_length (m : List Nat) (i v n : Nat) : (raiseRun m i v n).length = m.length := by
  induction n generalizing m i with
  | zero => rfl
  | succ n ih => rw [raiseRun, ih, length_modify]

theorem getD_modify_nat (hi : i < m.length) (f : Nat → Nat) (j : Nat) :
    (m.modify i f).getD j 0 = if i = j then f (m.getD j 0) else m.getD j 0 := by
  rw [getD_eq_getElem?_getD, getD_eq_getElem?_getD, getElem?_modify]
  split_ifs with hij
  · subst hij
    rw [getElem?_eq_getElem hi]
    rfl
  · cases m[j]? <;> rfl

theorem getD_raiseRun {i : Nat} (hn : i + n ≤ m.length) (v j : Nat) :
    (raiseRun m i v n).getD j 0 =
      if i ≤ j ∧ j < i + n then max (m.getD j 0) v else m.getD j 0 := by
  induction n generalizing m i with
  | zero => rw [raiseRun, if_neg (by omega)]
  | succ n ih =>
    rw [raiseRun, ih (by rw [length_modify]; omega), getD_modify_nat (by omega)]
    split_ifs <;> omega

theorem ext_getD {l m : List Nat} (hlen : l.length = m.length) (h : ∀ j, l.getD j 0 = m.getD j 0) :
    l = m := by
  refine ext_getElem hlen fun i hi hi' => ?_
  have hj := h i
  rwa [getD_eq_getElem _ _ hi, getD_eq_getElem _ _ hi'] at hj

theorem getD_zipWith_max {l m : List Nat} (hlen : l.length = m.length) (j : Nat) :
    (zipWith max l m).getD j 0 = max (l.getD j 0) (m.getD j 0) := by
  rcases lt_or_ge j l.length with hj | hj
  · rw [getD_eq_getElem _ _ (by rw [length_zipWith]; omega), getElem_zipWith,
      getD_eq_getElem _ _ hj, getD_eq_getElem _ _ (by omega)]
  · rw [getD_eq_default _ _ (by rw [length_zipWith]; omega), getD_eq_default _ _ hj,
      getD_eq_default _ _ (by omega), Nat.max_self]

theorem raiseRun_writes : Writes raiseRun (fun m j => m.getD j 0) max
    fun m => m.length = hllRegisters :=
  ⟨fun i v n hm => (raiseRun_length _ i v n).trans hm,
    fun hm hn _ j => getD_raiseRun (hm ▸ hn) _ j⟩

theorem sparseLoop_merge (hvalid : ∀ op ∈ ops, op.Valid)
    (htotal : (expandOps ops).length = hllRegisters) (hm : m.length = hllRegisters) :
    sparseLoop id raiseRun ops 0 m = .ok (zipWith max m (expandOps ops)) := by
  have hid : ∀ n : Nat, n ≤ hllRegisters → id (n : Int) = n := fun _ _ => rfl
  obtain ⟨m', hloop, hlen, hget⟩ := sparseLoop_spec hid raiseRun_writes hvalid
    ((zero_add _).trans htotal) hm
  rw [show (0 : Int) = (0 : Nat) from rfl, hloop]
  refine congrArg _ (ext_getD (by rw [length_zipWith]; omega) fun j => ?_)
  rw [hget j, getD_zipWith_max (by omega), putReg]
  split_ifs <;> simp_all

/-- Merging takes the larger one of every two registers. -/
theorem hllMerge_spec (h : Rep o r) (hm : m.length = hllRegisters) :
    hllMerge m o = .ok (zipWith max m r) := by
  have hlen : m.length = r.length := hm.trans h.length.symm
  have hzip : (zipWith max m r).length = m.length := by rw [length_zipWith]; omega
  have hdata := h.data
  cases henc : o.encoding with
  | dense =>
    rw [henc] at hdata
    simp only [hllMerge, henc]
    congr 1
    refine ext_getElem (by rw [length_mapIdx, hzip]) fun i hi hi' => ?_
    rw [length_mapIdx] at hi
    have hreg := hdata.2 i (hm ▸ hi)
    rw [getD_eq_getElem _ _ (by omega)] at hreg
    rw [getElem_mapIdx, getElem_zipWith, hreg]
    split_ifs <;> omega
  | sparse =>
    rw [henc] at hdata
    obtain ⟨ops, hvalid, hregisters, hr⟩ := hdata
    rw [hllMerge, henc, hregisters]
    rw [opcodes_encodeOps hvalid (le_refl _), ← hr]
    exact sparseLoop_merge hvalid (hr ▸ h.length) hm

end Merge

end Redis.HyperLogLog
