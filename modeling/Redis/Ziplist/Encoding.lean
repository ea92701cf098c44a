import Redis.Ziplist.Layout

/-! Encoding a string into an entry body and reading it back. -/
namespace Redis.Ziplist

open ByteBuffer Util List

variable {s : Bytes} {v : Int} {enc : Nat}

/-- The encoding `__ziplistInsert` uses, zero for a string. -/
def valueEncoding (s : Bytes) : Nat := ((zipTryEncoding s).map Prod.snd).getD 0

def valueHeader (s : Bytes) : Bytes := zipStoreEntryEncoding (valueEncoding s) s.length

def valueData (s : Bytes) : Bytes :=
  if zipIsStr (valueEncoding s) then s
  else zipSaveInteger (((zipTryEncoding s).map Prod.fst).getD 0) (valueEncoding s)

/-- The body of an entry that holds `s`. -/
def encodeBody (s : Bytes) : Bytes := valueHeader s ++ valueData s

/-- A signed word that fits reads back. -/
theorem loadInt_intBytes {n : Nat} (hlo : -(256 ^ n : Nat) ≤ v * 2) (hhi : v * 2 < (256 ^ n : Nat))
    (rest : Bytes) : loadInt n (intBytes n v ++ rest) = v := by
  have hpos : (0 : Int) < (256 ^ n : Nat) := by positivity
  have hcast : (((v % 256 ^ n).toNat % 256 ^ n : Nat) : Int) = v % (256 ^ n : Nat) := by
    have hnn : 0 ≤ v % (256 ^ n : Nat) := Int.emod_nonneg _ hpos.ne'
    have hlt : v % (256 ^ n : Nat) < (256 ^ n : Nat) := Int.emod_lt_of_pos _ hpos
    push_cast at hnn hlt ⊢
    rw [Int.toNat_of_nonneg hnn, Int.emod_eq_of_lt hnn hlt]
  rw [loadInt, intBytes, readLE_leBytes, hcast, Int.emod_bmod,
    Int.bmod_eq_of_le_mul_two hlo hhi]

theorem zipTryEncoding_some (h : zipTryEncoding s = some (v, enc)) :
    ll2string v = s ∧ -2 ^ 63 ≤ v ∧ v < 2 ^ 63 ∧ enc = zipIntEncoding v := by
  rw [zipTryEncoding] at h
  split_ifs at h
  obtain ⟨w, hw, hpair⟩ := Option.map_eq_some_iff.mp h
  obtain ⟨rfl, rfl⟩ := Prod.mk.inj hpair
  obtain ⟨htext, hlo, hhi⟩ := string2ll_ll2string hw
  exact ⟨htext, hlo, hhi, rfl⟩

/-- The three bytes of a 24-bit integer are the upper ones of a 32-bit word. -/
theorem zipInt24_bytes (v : Int) (rest : Bytes) :
    0 :: ((intBytes 4 (v * 256)).drop 1 ++ rest) = intBytes 4 (v * 256) ++ rest := by
  have hzero : UInt8.ofNat (v * 256 % 256 ^ 4).toNat = 0 := by
    apply UInt8.toNat_inj.mp
    simp
    omega
  rw [intBytes, leBytes, hzero]
  rfl

/-- The stored form of an integer: its encoding byte is an integer one, the
data has the size the encoding announces, and the value reads back. -/
theorem zipSaveInteger_spec (hlo : -2 ^ 63 ≤ v) (hhi : v < 2 ^ 63) (rest : Bytes) :
    0xc0 ≤ zipIntEncoding v ∧ zipIntEncoding v < 255 ∧
      zipIntSize (zipIntEncoding v) = some (zipSaveInteger v (zipIntEncoding v)).length ∧
      zipLoadInteger (zipSaveInteger v (zipIntEncoding v) ++ rest) (zipIntEncoding v) = v := by
  unfold zipIntEncoding
  split_ifs with h0 h8 h16 h24 h32
  · obtain ⟨hv, hv'⟩ := h0
    interval_cases v <;> exact ⟨by decide, by decide, by decide, by rfl⟩
  all_goals
    simp only [zipIntSize, zipLoadInteger, zipSaveInteger, zipInt8B, zipInt16B, zipInt32B,
      zipInt24B, zipInt64B, Nat.reduceEqDiff, if_true, if_false]
    refine ⟨by norm_num, by norm_num, by simp [intBytes], ?_⟩
  · exact loadInt_intBytes (by norm_num; omega) (by norm_num; omega) rest
  · exact loadInt_intBytes (by norm_num; omega) (by norm_num; omega) rest
  · rw [zipInt24_bytes, loadInt_intBytes (by norm_num; omega) (by norm_num; omega) rest]
    omega
  · exact loadInt_intBytes (by norm_num; omega) (by norm_num; omega) rest
  · exact loadInt_intBytes (by norm_num; omega) (by norm_num; omega) rest

set_option maxRecDepth 2000 in
theorem zipIsStr_of_ge (h : 0xc0 ≤ enc) (h' : enc < 256) : zipIsStr enc = false := by
  have hall : ∀ enc < 256, 0xc0 ≤ enc → zipIsStr enc = false := by decide
  exact hall enc h' h

set_option maxRecDepth 2000 in
theorem and_c0 {b : Nat} (h : b < 256) : b &&& 0xc0 = b / 64 * 64 := by
  have hall : ∀ b < 256, b &&& 0xc0 = b / 64 * 64 := by decide
  exact hall b h

theorem and_3f (b : Nat) : b &&& 0x3f = b % 64 := Nat.and_two_pow_sub_one_eq_mod b 6

theorem and_ff (b : Nat) : b &&& 0xff = b % 256 := Nat.and_two_pow_sub_one_eq_mod b 8

/-- Two neighbouring bytes of a word put together. -/
theorem or_bytes (hi k : Nat) {lo : Nat} (h : lo < 256) :
    (hi <<< (k + 8)) ||| (lo <<< k) = (hi * 256 + lo) <<< k := by
  have hlt : lo <<< k < 2 ^ (k + 8) := by
    rw [Nat.shiftLeft_eq, pow_add, mul_comm]
    exact Nat.mul_lt_mul_of_pos_left h (by positivity)
  rw [← Nat.shiftLeft_add_eq_or_of_lt hlt, Nat.shiftLeft_eq, Nat.shiftLeft_eq, Nat.shiftLeft_eq,
    pow_add]
  ring

/-- What each of the three string headers decodes to. -/
theorem zipDecodeLength_string (n : Nat) (hn : n < 2 ^ 32) (rest : Bytes) :
    ∃ enc, zipDecodeLength (zipStoreEntryEncoding 0 n ++ rest) =
      (enc, (zipStoreEntryEncoding 0 n).length, n) ∧ zipIsStr enc := by
  have hstr : zipIsStr 0 = true := by decide
  rw [zipStoreEntryEncoding, if_pos hstr]
  by_cases h6 : n ≤ 0x3f
  · have hbyte : (UInt8.ofNat n).toNat = n := by
      simp
      omega
    have henc : zipEntryEncoding (UInt8.ofNat n :: rest) = 0 := by
      rw [zipEntryEncoding, byteAt_cons_zero, hbyte, if_pos (by omega), and_c0 (by omega)]
      omega
    refine ⟨0, ?_, by decide⟩
    simp only [if_pos h6, singleton_append, zipDecodeLength, henc, byteAt_cons_zero, hbyte,
      and_3f, length_singleton]
    simp
    omega
  · by_cases h14 : n ≤ 0x3fff
    · have hb0 : (UInt8.ofNat (0x40 ||| ((n >>> 8) &&& 0x3f))).toNat = 64 + n / 256 := by
        have hor : 0x40 ||| (n / 256 % 64) = 64 + n / 256 % 64 :=
          (Nat.two_pow_add_eq_or_of_lt (i := 6) (Nat.mod_lt _ (by norm_num)) 1).symm
        rw [and_3f, Nat.shiftRight_eq_div_pow, hor]
        simp
        omega
      have hb1 : (UInt8.ofNat (n &&& 0xff)).toNat = n % 256 := by
        rw [and_ff]
        simp
      rw [if_neg h6, if_pos h14]
      generalize UInt8.ofNat (0x40 ||| ((n >>> 8) &&& 0x3f)) = b0 at hb0
      generalize UInt8.ofNat (n &&& 0xff) = b1 at hb1
      have henc : zipEntryEncoding (b0 :: b1 :: rest) = 0x40 := by
        rw [zipEntryEncoding, byteAt_cons_zero, hb0, if_pos (by omega), and_c0 (by omega)]
        omega
      have hlen : ((64 + n / 256) % 64) <<< 8 ||| n % 256 = n := by
        have hor := or_bytes ((64 + n / 256) % 64) 0 (Nat.mod_lt n (by norm_num : 0 < 256))
        rw [Nat.shiftLeft_zero, Nat.shiftLeft_zero, zero_add] at hor
        omega
      refine ⟨0x40, ?_, by decide⟩
      simp only [cons_append, nil_append, zipDecodeLength, henc, byteAt_cons_zero,
        byteAt_cons_succ, hb0, hb1, and_3f, hlen]
      simp
    · rw [if_neg h6, if_neg h14]
      have hbyte : ∀ k, (UInt8.ofNat ((n >>> k) &&& 0xff)).toNat = n / 2 ^ k % 256 := by
        intro k
        rw [and_ff, Nat.shiftRight_eq_div_pow]
        simp
      have hb4 : (UInt8.ofNat (n &&& 0xff)).toNat = n % 256 := by
        rw [and_ff]
        simp
      have henc : ∀ tl, zipEntryEncoding ((0x80 : UInt8) :: tl) = 0x80 := by
        intro tl
        simp [zipEntryEncoding]
      have hlen : (n / 2 ^ 24 % 256) <<< 24 ||| (n / 2 ^ 16 % 256) <<< 16 |||
          (n / 2 ^ 8 % 256) <<< 8 ||| n % 256 = n := by
        have hlast := or_bytes ((n / 2 ^ 24 % 256 * 256 + n / 2 ^ 16 % 256) * 256 + n / 2 ^ 8 % 256) 0
          (Nat.mod_lt n (by norm_num : 0 < 256))
        rw [Nat.shiftLeft_zero, Nat.shiftLeft_zero, zero_add] at hlast
        rw [or_bytes _ 16 (Nat.mod_lt _ (by norm_num)), or_bytes _ 8 (Nat.mod_lt _ (by norm_num)),
          hlast]
        omega
      refine ⟨0x80, ?_, by decide⟩
      simp only [zipDecodeLength, cons_append, nil_append, henc, byteAt_cons_zero,
        byteAt_cons_succ, hbyte, hb4, hlen]
      simp

theorem encodeBody_string (h : zipTryEncoding s = none) :
    encodeBody s = zipStoreEntryEncoding 0 s.length ++ s := by
  have henc : valueEncoding s = 0 := by rw [valueEncoding, h]; rfl
  rw [encodeBody, valueHeader, valueData, henc, if_pos (by decide)]

theorem encodeBody_int (h : zipTryEncoding s = some (v, enc)) :
    encodeBody s = UInt8.ofNat (zipIntEncoding v) :: zipSaveInteger v (zipIntEncoding v) := by
  obtain ⟨_, hlo, hhi, rfl⟩ := zipTryEncoding_some h
  obtain ⟨hge, hlt, _, _⟩ := zipSaveInteger_spec hlo hhi []
  have henc : valueEncoding s = zipIntEncoding v := by rw [valueEncoding, h]; rfl
  have hstr := zipIsStr_of_ge hge (by omega)
  rw [encodeBody, valueHeader, valueData, henc, h, zipStoreEntryEncoding, hstr]
  rfl

theorem zipDecodeLength_int (hge : 0xc0 ≤ enc) (hlt : enc < 256) (data : Bytes) :
    zipDecodeLength (UInt8.ofNat enc :: data) = (enc, 1, (zipIntSize enc).getD 0) := by
  have hbyte : (UInt8.ofNat enc).toNat = enc := by
    simp
    omega
  have henc : zipEntryEncoding (UInt8.ofNat enc :: data) = enc := by
    rw [zipEntryEncoding, byteAt_cons_zero, hbyte, if_neg (by omega)]
  simp only [zipDecodeLength, henc]
  rw [if_neg (by omega)]

/-- The length `__ziplistInsert` reserves for the data. -/
theorem valueData_length :
    (if (zipTryEncoding s).isSome then (zipIntSize (valueEncoding s)).getD 0 else s.length) =
      (valueData s).length := by
  cases h : zipTryEncoding s with
  | none =>
    have henc : valueEncoding s = 0 := by rw [valueEncoding, h]; rfl
    have hstr : zipIsStr 0 = true := by decide
    simp [valueData, henc, hstr]
  | some pair =>
    obtain ⟨v, enc⟩ := pair
    obtain ⟨_, hlo, hhi, rfl⟩ := zipTryEncoding_some h
    obtain ⟨hge, hlt, hsize, _⟩ := zipSaveInteger_spec hlo hhi []
    have henc : valueEncoding s = zipIntEncoding v := by rw [valueEncoding, h]; rfl
    rw [valueData, henc, h, zipIsStr_of_ge hge (by omega), hsize]
    rfl

/-- The value an encoded string reads back as. -/
def valueOf (s : Bytes) : Value :=
  match zipTryEncoding s with
  | some (v, _) => .int v
  | none => .str s

theorem valueOf_text (s : Bytes) : (valueOf s).text = s := by
  rw [valueOf]
  cases h : zipTryEncoding s with
  | none => rfl
  | some pair => exact (zipTryEncoding_some h).1

/-- An encoded string is a well-formed body, and holds the string. -/
theorem encodeBody_spec (hs : s.length < 2 ^ 32) :
    BodyOk (encodeBody s) ∧ bodyValue (encodeBody s) = valueOf s := by
  cases h : zipTryEncoding s with
  | none =>
    obtain ⟨enc, hdec, hstr⟩ := zipDecodeLength_string s.length hs s
    rw [encodeBody_string h]
    refine ⟨?_, ?_⟩
    · rw [BodyOk, hdec]
      exact ⟨by simp, .inl hstr⟩
    · rw [bodyValue, hdec, valueOf, h]
      simp [hstr]
  | some pair =>
    obtain ⟨v, enc⟩ := pair
    obtain ⟨_, hlo, hhi, rfl⟩ := zipTryEncoding_some h
    obtain ⟨hge, hlt, hsize, hload⟩ := zipSaveInteger_spec hlo hhi []
    rw [append_nil] at hload
    have hdec := zipDecodeLength_int hge (show zipIntEncoding v < 256 by omega)
      (zipSaveInteger v (zipIntEncoding v))
    rw [encodeBody_int h]
    refine ⟨?_, ?_⟩
    · rw [BodyOk, hdec, hsize]
      refine ⟨?_, .inr rfl⟩
      simp [add_comm]
    · rw [bodyValue, hdec, valueOf, h]
      simp [zipIsStr_of_ge hge (show zipIntEncoding v < 256 by omega), hload]

theorem encodeBody_length (s : Bytes) :
    (encodeBody s).length = (valueHeader s).length + (valueData s).length := by
  rw [encodeBody, length_append]

theorem valueData_length_le (s : Bytes) : s.length ≤ (encodeBody s).length ∨ s.length < 32 := by
  cases h : zipTryEncoding s with
  | none =>
    left
    rw [encodeBody_string h]
    simp
  | some pair =>
    right
    rw [zipTryEncoding] at h
    split_ifs at h with hlen
    omega

end Redis.Ziplist
