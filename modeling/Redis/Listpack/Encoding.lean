import Redis.Listpack.Basic

/-! The encodings of a single element, as a relation between the bytes and the
value they stand for, and how the code writes and reads them. -/
namespace Redis.Listpack

open ByteBuffer Util List

variable {ele x : Bytes} {v : Value}

/-- The first byte and the width of the multi-byte integers. -/
def intWidth (b : UInt8) : Option Nat :=
  if b = 0xf1 then some 2
  else if b = 0xf2 then some 3
  else if b = 0xf3 then some 4
  else if b = 0xf4 then some 8
  else none

/-- The bytes are an encoding of the value. Integers are in two's complement; a
length need not be written in the shortest form. -/
inductive Encoded : Bytes → Value → Prop
  | uint7 (b : UInt8) (h : b.toNat < 128) : Encoded [b] (.int b.toNat)
  | int13 (hi lo : UInt8) (h : 0xc0 ≤ hi.toNat ∧ hi.toNat < 0xe0) :
      Encoded [hi, lo] (.int (Int.bmod ((hi.toNat - 0xc0) * 256 + lo.toNat : Nat) (2 ^ 13)))
  | int (b : UInt8) (n : Nat) (w : Bytes) (h : intWidth b = some n) (hw : w.length = n) :
      Encoded (b :: w) (.int (Int.bmod (readLE n w) (256 ^ n)))
  | str6 (s : Bytes) (h : s.length < 64) : Encoded (UInt8.ofNat (0x80 + s.length) :: s) (.str s)
  | str12 (s : Bytes) (h : s.length < 4096) :
      Encoded (UInt8.ofNat (0xe0 + s.length / 256) :: UInt8.ofNat (s.length % 256) :: s) (.str s)
  | str32 (s : Bytes) (h : 5 + s.length < 2 ^ 32) :
      Encoded (0xf0 :: (leBytes 4 s.length ++ s)) (.str s)

section Reading

/-- What the masks say about a byte. -/
theorem lpEncodingIs_byte : ∀ b < 256,
    lpEncodingIs7BitUint b = decide (b < 128) ∧
    lpEncodingIs6BitStr b = decide (128 ≤ b ∧ b < 192) ∧
    lpEncodingIs13BitInt b = decide (192 ≤ b ∧ b < 224) ∧
    lpEncodingIs12BitStr b = decide (224 ≤ b ∧ b < 240) ∧
    lpEncodingIs16BitInt b = decide (b = 241) ∧
    lpEncodingIs24BitInt b = decide (b = 242) ∧
    lpEncodingIs32BitInt b = decide (b = 243) ∧
    lpEncodingIs64BitInt b = decide (b = 244) ∧
    lpEncodingIs32BitStr b = decide (b = 240) := by
  decide +kernel

theorem strLen12_cons (b c : UInt8) (p : Bytes) :
    lpEncoding12BitStrLen (b :: c :: p) = b.toNat % 16 * 256 + c.toNat := by
  have hlow : b.toNat &&& 0xf = b.toNat % 16 := Nat.and_two_pow_sub_one_eq_mod _ 4
  rw [lpEncoding12BitStrLen, byteAt_cons_zero, byteAt_cons_succ, byteAt_cons_zero, hlow,
    ← Nat.shiftLeft_add_eq_or_of_lt c.toNat_lt, Nat.shiftLeft_eq]

theorem strLen6_cons (b : UInt8) (p : Bytes) : lpEncoding6BitStrLen (b :: p) = b.toNat % 64 :=
  Nat.and_two_pow_sub_one_eq_mod _ 6

/-- The chain of tests of `lpCurrentEncodedSize`, by the range of the first byte. -/
theorem lpCurrentEncodedSize_cons (b : UInt8) (p : Bytes) :
    lpCurrentEncodedSize (b :: p) =
      if b.toNat < 128 then 1
      else if 128 ≤ b.toNat ∧ b.toNat < 192 then 1 + b.toNat % 64
      else if 192 ≤ b.toNat ∧ b.toNat < 224 then 2
      else if b.toNat = 241 then 3
      else if b.toNat = 242 then 4
      else if b.toNat = 243 then 5
      else if b.toNat = 244 then 9
      else if 224 ≤ b.toNat ∧ b.toNat < 240 then 2 + lpEncoding12BitStrLen (b :: p)
      else if b.toNat = 240 then (5 + readLE 4 p) % 2 ^ 32
      else if b.toNat = 255 then 1
      else 0 := by
  obtain ⟨h7, h6, h13, h12, h16, h24, h32, h64, hs⟩ := lpEncodingIs_byte _ b.toNat_lt
  simp only [lpCurrentEncodedSize, byteAt_cons_zero, h7, h6, h13, h12, h16, h24, h32, h64, hs,
    decide_eq_true_eq, strLen6_cons, lpEncoding32BitStrLen, drop_succ_cons, drop_zero,
    lpEof]
  rfl

/-- The chain of tests of `lpGet`, by the range of the first byte. -/
theorem lpGet_cons (b : UInt8) (p : Bytes) :
    lpGet (b :: p) =
      if b.toNat < 128 then .int (signedValue (b.toNat % 128) uint64Max 0)
      else if 128 ≤ b.toNat ∧ b.toNat < 192 then .str (p.take (b.toNat % 64))
      else if 192 ≤ b.toNat ∧ b.toNat < 224 then
        .int (signedValue (b.toNat % 32 * 256 + byteAt p 0) (2 ^ 12) 8191)
      else if b.toNat = 241 then .int (signedValue (readLE 2 p) (2 ^ 15) (2 ^ 16 - 1))
      else if b.toNat = 242 then .int (signedValue (readLE 3 p) (2 ^ 23) (2 ^ 24 - 1))
      else if b.toNat = 243 then .int (signedValue (readLE 4 p) (2 ^ 31) (2 ^ 32 - 1))
      else if b.toNat = 244 then .int (signedValue (readLE 8 p) (2 ^ 63) (2 ^ 64 - 1))
      else if 224 ≤ b.toNat ∧ b.toNat < 240 then
        .str ((p.drop 1).take (lpEncoding12BitStrLen (b :: p)))
      else if b.toNat = 240 then .str ((p.drop 4).take (readLE 4 p))
      else .int (signedValue (12345678900000000 + b.toNat) uint64Max 0) := by
  obtain ⟨h7, h6, h13, h12, h16, h24, h32, h64, hs⟩ := lpEncodingIs_byte _ b.toNat_lt
  have hlow7 : b.toNat &&& 0x7f = b.toNat % 128 := Nat.and_two_pow_sub_one_eq_mod _ 7
  have hlow5 : b.toNat &&& 0x1f = b.toNat % 32 := Nat.and_two_pow_sub_one_eq_mod _ 5
  have hbytes : ((b.toNat % 32) <<< 8) ||| byteAt p 0 = b.toNat % 32 * 256 + byteAt p 0 := by
    rw [← Nat.shiftLeft_add_eq_or_of_lt (byteAt_lt p 0), Nat.shiftLeft_eq]
  simp only [lpGet, byteAt_cons_zero, byteAt_cons_succ, h7, h6, h13, h12, h16, h24, h32, h64, hs,
    decide_eq_true_eq, strLen6_cons, lpEncoding32BitStrLen, drop_succ_cons, drop_zero,
    hlow7, hlow5, hbytes]

theorem intWidth_cases {b : UInt8} {n : Nat} (h : intWidth b = some n) :
    (b = 0xf1 ∧ n = 2) ∨ (b = 0xf2 ∧ n = 3) ∨ (b = 0xf3 ∧ n = 4) ∨ (b = 0xf4 ∧ n = 8) := by
  unfold intWidth at h
  split_ifs at h <;> simp_all

/-- The conversion of `lpGet` is two's complement. -/
theorem signedValue_bmod {u m : Nat} (hm : m % 2 = 0) (hu : u < m) :
    signedValue u (m / 2) (m - 1) = Int.bmod u m := by
  rw [signedValue, Int.bmod_def, Int.emod_eq_of_lt (by omega) (by omega)]
  split_ifs <;> omega

/-- The code measures an element by its encoding. -/
theorem Encoded.size (h : Encoded x v) (rest : Bytes) :
    lpCurrentEncodedSize (x ++ rest) = x.length := by
  cases h with
  | uint7 b hb =>
    rw [singleton_append, lpCurrentEncodedSize_cons, if_pos hb]
    rfl
  | int13 hi lo hb =>
    rw [cons_append, lpCurrentEncodedSize_cons]
    simp (disch := omega) only [if_neg, if_pos]
    rfl
  | int b n w hb hw =>
    rw [cons_append, lpCurrentEncodedSize_cons, length_cons, hw]
    rcases intWidth_cases hb with ⟨rfl, rfl⟩ | ⟨rfl, rfl⟩ | ⟨rfl, rfl⟩ | ⟨rfl, rfl⟩ <;> rfl
  | str6 s hs =>
    have hb : (UInt8.ofNat (0x80 + s.length)).toNat = 128 + s.length := by
      simp
      omega
    rw [cons_append, lpCurrentEncodedSize_cons, hb, length_cons]
    simp (disch := omega) only [if_neg, if_pos]
    omega
  | str12 s hs =>
    have hb : (UInt8.ofNat (0xe0 + s.length / 256)).toNat = 224 + s.length / 256 := by
      simp
      omega
    have hc : (UInt8.ofNat (s.length % 256)).toNat = s.length % 256 := by simp
    rw [cons_append, cons_append, lpCurrentEncodedSize_cons, strLen12_cons, hb, hc,
      length_cons, length_cons]
    simp (disch := omega) only [if_neg, if_pos]
    omega
  | str32 s hs =>
    rw [cons_append, append_assoc, lpCurrentEncodedSize_cons,
      readLE_leBytes_of_lt (by omega)]
    simp
    omega

/-- The code reads the value that is encoded. -/
theorem Encoded.get (h : Encoded x v) (rest : Bytes) : lpGet (x ++ rest) = v := by
  cases h with
  | uint7 b hb =>
    rw [singleton_append, lpGet_cons, if_pos hb, signedValue, if_neg, Nat.mod_eq_of_lt hb]
    rw [uint64Max]
    omega
  | int13 hi lo hb =>
    rw [cons_append, singleton_append, lpGet_cons]
    simp (disch := omega) only [if_neg, if_pos]
    have hmod : hi.toNat % 32 = hi.toNat - 192 := by omega
    have hlo := lo.toNat_lt
    have hsigned := signedValue_bmod (u := (hi.toNat - 192) * 256 + lo.toNat) (m := 2 ^ 13)
      (by norm_num) (by omega)
    rw [byteAt_cons_zero, hmod, ← hsigned]
    norm_num
  | int b n w hb hw =>
    have hread := readLE_append (le_of_eq hw.symm) rest
    have hlt := readLE_lt n w
    have heven : 256 ^ n % 2 = 0 := by
      rcases intWidth_cases hb with ⟨-, rfl⟩ | ⟨-, rfl⟩ | ⟨-, rfl⟩ | ⟨-, rfl⟩ <;> norm_num
    rw [cons_append, lpGet_cons, ← signedValue_bmod heven hlt, ← hread]
    rcases intWidth_cases hb with ⟨rfl, rfl⟩ | ⟨rfl, rfl⟩ | ⟨rfl, rfl⟩ | ⟨rfl, rfl⟩ <;> simp
  | str6 s hs =>
    have hb : (UInt8.ofNat (0x80 + s.length)).toNat = 128 + s.length := by
      simp
      omega
    rw [cons_append, lpGet_cons, hb]
    simp (disch := omega) only [if_neg, if_pos]
    rw [show (128 + s.length) % 64 = s.length by omega, take_left]
  | str12 s hs =>
    have hb : (UInt8.ofNat (0xe0 + s.length / 256)).toNat = 224 + s.length / 256 := by
      simp
      omega
    have hc : (UInt8.ofNat (s.length % 256)).toNat = s.length % 256 := by simp
    have hlen : (224 + s.length / 256) % 16 * 256 + s.length % 256 = s.length := by omega
    rw [cons_append, cons_append, lpGet_cons, strLen12_cons, hb, hc, hlen]
    simp (disch := omega) only [if_neg, if_pos]
    rw [drop_succ_cons, drop_zero, take_left]
  | str32 s hs =>
    rw [cons_append, append_assoc, lpGet_cons, readLE_leBytes_of_lt (by omega),
      drop_left' (leBytes_length 4 s.length), take_left]
    rfl

theorem Encoded.head_ne_eof (h : Encoded x v) (rest : Bytes) : byteAt (x ++ rest) 0 ≠ lpEof := by
  rw [lpEof]
  cases h with
  | uint7 b hb | int13 hi lo hb =>
    simp
    omega
  | int b n w hb hw =>
    rcases intWidth_cases hb with ⟨rfl, rfl⟩ | ⟨rfl, rfl⟩ | ⟨rfl, rfl⟩ | ⟨rfl, rfl⟩ <;> simp
  | str6 s hs | str12 s hs =>
    simp
    omega
  | str32 s hs => simp

end Reading

section Writing

/-- The encoded element `lpInsert` stores. -/
def encodeElement (ele : Bytes) : Bytes :=
  match lpStringToInt64 ele with
  | some v => lpEncodeInt v
  | none => lpEncodeString ele

/-- The value an encoded string reads back as. -/
def valueOf (ele : Bytes) : Value :=
  match lpStringToInt64 ele with
  | some v => .int v
  | none => .str ele

theorem valueOf_text (ele : Bytes) : (valueOf ele).text = ele := by
  rw [valueOf]
  cases h : lpStringToInt64 ele with
  | none => rfl
  | some v => exact (string2ll_ll2string h).1

/-- The unsigned form of a signed word, and back. -/
theorem unsignedWord_spec (bits : Nat) {v : Int} (hlo : -2 ^ bits ≤ v) (hhi : v < 2 ^ bits) :
    unsignedWord (bits + 1) v < 2 ^ (bits + 1) ∧
      Int.bmod (unsignedWord (bits + 1) v) (2 ^ (bits + 1)) = v := by
  have hpow : (2 : Int) ^ (bits + 1) = 2 * 2 ^ bits := by ring
  have hcast : ((2 ^ (bits + 1) : Nat) : Int) = 2 * 2 ^ bits := by push_cast; exact hpow
  have hword : (unsignedWord (bits + 1) v : Int) = if v < 0 then 2 * 2 ^ bits + v else v := by
    rw [unsignedWord, hpow, Int.toNat_of_nonneg]
    split_ifs <;> omega
  refine ⟨?_, ?_⟩
  · split_ifs at hword <;> omega
  · rw [Int.bmod_def, hword, hcast]
    by_cases hneg : v < 0
    · rw [if_pos hneg, Int.emod_eq_of_lt (by omega) (by omega), if_neg (by omega)]
      omega
    · rw [if_neg hneg, Int.emod_eq_of_lt (by omega) (by omega), if_pos (by omega)]

/-- The encodings with a whole number of bytes. -/
theorem word_encoded {b : UInt8} {n bits : Nat} {v : Int} (hb : intWidth b = some n)
    (hn : 2 ^ (bits + 1) = 256 ^ n) (hlo : -2 ^ bits ≤ v) (hhi : v < 2 ^ bits) :
    Encoded (b :: leBytes n (unsignedWord (bits + 1) v)) (.int v) := by
  obtain ⟨hlt, hval⟩ := unsignedWord_spec _ hlo hhi
  rw [hn] at hlt hval
  have hread := readLE_leBytes_of_lt hlt []
  rw [append_nil] at hread
  have h := Encoded.int b n _ hb (leBytes_length n (unsignedWord (bits + 1) v))
  rwa [hread, hval] at h

theorem lpEncodeInt_encoded {v : Int} (hlo : -2 ^ 63 ≤ v) (hhi : v < 2 ^ 63) :
    Encoded (lpEncodeInt v) (.int v) := by
  unfold lpEncodeInt
  split_ifs with h7 h13 h16 h24 h32
  · have hb : (UInt8.ofNat v.toNat).toNat = v.toNat := by
      simp
      omega
    have h := Encoded.uint7 (UInt8.ofNat v.toNat) (by omega)
    rwa [hb, Int.toNat_of_nonneg h7.1] at h
  · obtain ⟨hlt, hval⟩ := unsignedWord_spec 12 (v := v) (by omega) (by omega)
    generalize unsignedWord (12 + 1) v = u at hlt hval ⊢
    have hor : (u >>> 8) ||| 0xc0 = 192 + u / 256 := by
      rw [Nat.shiftRight_eq_div_pow, Nat.or_comm]
      exact (Nat.two_pow_add_eq_or_of_lt (i := 6) (by omega) 3).symm
    have hb0 : (UInt8.ofNat ((u >>> 8) ||| 0xc0)).toNat = 192 + u / 256 := by
      rw [hor]
      simp
      omega
    have hb1 : (UInt8.ofNat (u &&& 0xff)).toNat = u % 256 := by
      rw [show u &&& 0xff = u % 256 from Nat.and_two_pow_sub_one_eq_mod u 8]
      simp
    have h := Encoded.int13 (UInt8.ofNat ((u >>> 8) ||| 0xc0)) (UInt8.ofNat (u &&& 0xff))
      (by omega)
    rwa [hb0, hb1, show (192 + u / 256 - 192) * 256 + u % 256 = u by omega, hval] at h
  · exact word_encoded rfl (by norm_num) (by omega) (by omega)
  · exact word_encoded rfl (by norm_num) (by omega) (by omega)
  · exact word_encoded rfl (by norm_num) (by omega) (by omega)
  · exact word_encoded rfl (by norm_num) (by omega) (by omega)

theorem lpEncodeString_encoded {s : Bytes} (hs : 5 + s.length < 2 ^ 32) :
    Encoded (lpEncodeString s) (.str s) := by
  unfold lpEncodeString
  split_ifs with h6 h12
  · have hor : s.length ||| 0x80 = 0x80 + s.length := by
      rw [Nat.or_comm]
      exact (Nat.two_pow_add_eq_or_of_lt (i := 7) (by omega) 1).symm
    rw [hor]
    exact Encoded.str6 s h6
  · have hor : (s.length >>> 8) ||| 0xe0 = 0xe0 + s.length / 256 := by
      rw [Nat.shiftRight_eq_div_pow, Nat.or_comm]
      exact (Nat.two_pow_add_eq_or_of_lt (i := 5) (by omega) 7).symm
    rw [hor, show s.length &&& 0xff = s.length % 256 from Nat.and_two_pow_sub_one_eq_mod _ 8]
    exact Encoded.str12 s h12
  · exact Encoded.str32 s hs

theorem lpEncodeString_length (s : Bytes) :
    (lpEncodeString s).length =
      if s.length < 64 then 1 + s.length else if s.length < 4096 then 2 + s.length
      else 5 + s.length := by
  unfold lpEncodeString
  split_ifs <;> simp <;> omega

theorem encodeElement_encoded (hele : 5 + ele.length < 2 ^ 32) :
    Encoded (encodeElement ele) (valueOf ele) := by
  rw [encodeElement, valueOf]
  cases h : lpStringToInt64 ele with
  | none => exact lpEncodeString_encoded hele
  | some v =>
    obtain ⟨_, hlo, hhi⟩ := string2ll_ll2string h
    exact lpEncodeInt_encoded hlo hhi

theorem encodeElement_length_le (ele : Bytes) : (encodeElement ele).length ≤ 9 + ele.length := by
  rw [encodeElement]
  cases lpStringToInt64 ele with
  | none =>
    simp only [lpEncodeString_length]
    split_ifs <;> omega
  | some v =>
    simp only [lpEncodeInt]
    split_ifs <;> simp <;> omega

/-- `enclen` is the length of what is stored, unless the 32-bit sum wraps. -/
theorem lpEncodeGetType_eq (hele : 5 + ele.length < 2 ^ 32) :
    (lpEncodeGetType ele).1.getD (lpEncodeString ele) = encodeElement ele ∧
      (lpEncodeGetType ele).2 = (encodeElement ele).length := by
  rw [lpEncodeGetType, encodeElement]
  cases lpStringToInt64 ele with
  | some v => exact ⟨rfl, rfl⟩
  | none =>
    simp only [lpEncodeString_length]
    split_ifs
    · exact ⟨rfl, rfl⟩
    · exact ⟨rfl, rfl⟩
    · exact ⟨rfl, Nat.mod_eq_of_lt hele⟩

/-- A length that makes the 32-bit sum wrap. -/
theorem lpEncodeGetType_wraps (hele : 2 ^ 32 ≤ 5 + ele.length) :
    (lpEncodeGetType ele).2 = (5 + ele.length) % 2 ^ 32 := by
  rw [lpEncodeGetType]
  cases h : lpStringToInt64 ele with
  | some v =>
    have hlen := string2ll_length h
    omega
  | none =>
    rw [if_neg (by omega), if_neg (by omega)]

end Writing

end Redis.Listpack
