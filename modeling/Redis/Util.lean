import Redis.Library.ByteBuffer

/-! The conversions of `util.c` between integers and their decimal strings, and
the values that the packed encodings share. -/
namespace Redis.Util

open ByteBuffer List

variable {v : Nat} {s : Bytes}

def ullongMax : Nat := 2 ^ 64 - 1

def llongMax : Nat := 2 ^ 63 - 1

/-- An `int` that is assigned this number. -/
def cInt (n : Int) : Int := n.bmod (2 ^ 32)

def toLower (c : UInt8) : UInt8 := if 65 ≤ c.toNat ∧ c.toNat ≤ 90 then c + 32 else c

def isDigit (c : UInt8) : Bool := 48 ≤ c.toNat && c.toNat ≤ 57

def isspace (c : UInt8) : Bool := c.toNat = 32 || (9 ≤ c.toNat && c.toNat ≤ 13)

/-- The characters of a C string: those in front of the first zero byte. -/
def cString (o : Bytes) : Bytes := o.takeWhile (· ≠ 0)

/-- `strcasecmp` with a lower case name. -/
def isName (o name : Bytes) : Bool := (cString o).map toLower = name

def word (s : String) : Bytes := s.toList.map fun c => UInt8.ofNat c.toNat

/-- `strcasecmp` of an argument with an option's name. -/
def named (o : Bytes) (name : String) : Bool := isName o (word name)

def hexDigit (n : Nat) : UInt8 := UInt8.ofNat (if n < 10 then 48 + n else 87 + n)

/-- The value of the digits at the front of a string. -/
def strtolDigits : Bytes → Nat → Nat
  | [], v => v
  | c :: rest, v => if isDigit c then strtolDigits rest (v * 10 + (c.toNat - 48)) else v

/-- `strtol` in base ten: blanks and a sign, then digits; the value saturates. -/
def strtol (s : Bytes) : Int :=
  match s.dropWhile isspace with
  | 45 :: rest => max (-2 ^ 63) (-(strtolDigits rest 0 : Int))
  | 43 :: rest => min (2 ^ 63 - 1) (strtolDigits rest 0 : Int)
  | rest => min (2 ^ 63 - 1) (strtolDigits rest 0 : Int)

/-- `atoi` keeps the low 32 bits. -/
def atoi (s : Bytes) : Int := cInt (strtol s)

/-- The digit loop of `string2ll`: every remaining byte has to be a digit and
the value must stay in an unsigned 64-bit word. -/
def string2llLoop : Bytes → Nat → Option Nat
  | [], v => some v
  | c :: rest, v =>
    if isDigit c then
      if v > ullongMax / 10 then none
      else if v * 10 > ullongMax - (c.toNat - 48) then none
      else string2llLoop rest (v * 10 + (c.toNat - 48))
    else none

/-- The part of `string2ll` after the sign. -/
def string2llDigits : Bytes → Option Nat
  | [] => none
  | c :: rest => if 49 ≤ c.toNat ∧ c.toNat ≤ 57 then string2llLoop rest (c.toNat - 48) else none

def string2ll (s : Bytes) : Option Int :=
  match s with
  | [] => none
  | [48] => some 0
  | 45 :: rest =>
    match string2llDigits rest with
    | none => none
    | some v => if v > llongMax + 1 then none else some (-(v : Int))
  | s =>
    match string2llDigits s with
    | none => none
    | some v => if v > llongMax then none else some v

/-- One decimal digit as a character. -/
def digitChar (d : Nat) : UInt8 := UInt8.ofNat (48 + d)

/-- The loop of `ll2string`, which writes two digits a round from the end of
the buffer; the pair comes from a table of the hundred two-digit strings. -/
def ll2stringLoop : Nat → Nat → Bytes → Bytes
  | 0, _, dst => dst
  | fuel + 1, value, dst =>
    if value ≥ 100 then
      ll2stringLoop fuel (value / 100)
        (digitChar (value % 100 / 10) :: digitChar (value % 100 % 10) :: dst)
    else if value < 10 then digitChar value :: dst
    else digitChar (value / 10) :: digitChar (value % 10) :: dst

/-- `ll2string` with a buffer that is large enough; ten rounds suffice for a
64-bit word. -/
def ll2string (svalue : Int) : Bytes :=
  if svalue < 0 then 45 :: ll2stringLoop 11 svalue.natAbs [] else ll2stringLoop 11 svalue.natAbs []

/-- What the packed encodings hand out for an entry: a string, or an integer. -/
inductive Value where
  | str (s : Bytes)
  | int (v : Int)
deriving DecidableEq, Repr

/-- The string a value stands for; callers print integers in decimal. -/
def Value.text : Value → Bytes
  | .str s => s
  | .int v => ll2string v

/-- The digits of a number, by the comparisons of the source; two rounds suffice. -/
def digits10 : Nat → Nat → Nat
  | 0, _ => 0
  | fuel + 1, v =>
    if v < 10 then 1
    else if v < 100 then 2
    else if v < 1000 then 3
    else if v < 1000000000000 then
      if v < 100000000 then
        if v < 1000000 then
          if v < 10000 then 4 else 5 + (if v ≥ 100000 then 1 else 0)
        else 7 + (if v ≥ 10000000 then 1 else 0)
      else if v < 10000000000 then 9 + (if v ≥ 1000000000 then 1 else 0)
      else 11 + (if v ≥ 100000000000 then 1 else 0)
    else 12 + digits10 fuel (v / 1000000000000)

def sdigits10 (v : Int) : Nat :=
  if v < 0 then digits10 2 v.natAbs + 1 else digits10 2 v.natAbs

/-- The check for overflow with the bounds of a `long long`. -/
def incrementOverflows (oldvalue incr : Int) : Bool :=
  (incr < 0 && oldvalue < 0 && incr < -2 ^ 63 - oldvalue) ||
    (incr > 0 && oldvalue > 0 && incr > 2 ^ 63 - 1 - oldvalue)

/-- The decimal digits of a number, most significant first. -/
def decimal (v : Nat) : Bytes :=
  if v = 0 then [48] else (Nat.digits 10 v).reverse.map digitChar

theorem decimal_step {v d : Nat} (hv : 0 < v) (hd : d < 10) :
    decimal (v * 10 + d) = decimal v ++ [digitChar d] := by
  have hne : v * 10 + d ≠ 0 := by omega
  have hdigits : Nat.digits 10 (v * 10 + d) = d :: Nat.digits 10 v := by
    rw [add_comm, mul_comm]
    exact Nat.digits_add 10 (by norm_num) d v hd (.inr (by omega))
  rw [decimal, if_neg hne, hdigits, decimal, if_neg (by omega)]
  simp

theorem decimal_lt_ten (hv : v < 10) : decimal v = [digitChar v] := by
  interval_cases v <;> simp [decimal, digitChar]

theorem decimal_lt_hundred (hlo : 10 ≤ v) (hv : v < 100) :
    decimal v = [digitChar (v / 10), digitChar (v % 10)] := by
  have hsplit : v = v / 10 * 10 + v % 10 := by omega
  conv_lhs => rw [hsplit]
  rw [decimal_step (by omega) (by omega), decimal_lt_ten (by omega), singleton_append]

theorem decimal_pair (hv : 100 ≤ v) :
    decimal v = decimal (v / 100) ++ [digitChar (v % 100 / 10), digitChar (v % 100 % 10)] := by
  have hsplit : v = (v / 100 * 10 + v % 100 / 10) * 10 + v % 100 % 10 := by omega
  conv_lhs => rw [hsplit]
  rw [decimal_step (by omega) (by omega), decimal_step (by omega) (by omega), append_assoc,
    singleton_append]

/-- The last one or two digits. -/
theorem ll2stringLoop_last (hv : v < 100) (fuel : Nat) (dst : Bytes) :
    ll2stringLoop (fuel + 1) v dst = decimal v ++ dst := by
  rw [ll2stringLoop, if_neg (by omega)]
  split_ifs with hsmall
  · rw [decimal_lt_ten hsmall, singleton_append]
  · rw [decimal_lt_hundred (by omega) hv, cons_append, singleton_append]

/-- The loop writes the decimal digits in front of what is there already. -/
theorem ll2stringLoop_eq {fuel v : Nat} (hfuel : v < 100 ^ (fuel + 1)) (dst : Bytes) :
    ll2stringLoop (fuel + 1) v dst = decimal v ++ dst := by
  induction fuel generalizing v dst with
  | zero => exact ll2stringLoop_last (by simpa using hfuel) 0 dst
  | succ fuel ih =>
    by_cases hbig : v < 100
    · exact ll2stringLoop_last hbig _ dst
    · have hdiv : v / 100 < 100 ^ (fuel + 1) := by
        rw [Nat.div_lt_iff_lt_mul (by norm_num), ← pow_succ]
        exact hfuel
      rw [ll2stringLoop, if_pos (by omega), ih hdiv, decimal_pair (Nat.le_of_not_lt hbig),
        append_assoc, cons_append, singleton_append]

theorem digitChar_of_digit {c : UInt8} (h : isDigit c) : digitChar (c.toNat - 48) = c := by
  have hc : 48 ≤ c.toNat ∧ c.toNat ≤ 57 := by simpa [isDigit] using h
  rw [digitChar, show 48 + (c.toNat - 48) = c.toNat by omega]
  simp

/-- What the digit loop accepts is the decimal form of its value. -/
theorem string2llLoop_decimal {v w : Nat} (hv : 0 < v) (h : string2llLoop s v = some w) :
    0 < w ∧ decimal w = decimal v ++ s := by
  induction s generalizing v with
  | nil =>
    obtain rfl : v = w := by simpa [string2llLoop] using h
    exact ⟨hv, by simp⟩
  | cons c rest ih =>
    rw [string2llLoop] at h
    split_ifs at h with hdigit hover hover'
    have hc : 48 ≤ c.toNat ∧ c.toNat ≤ 57 := by simpa [isDigit] using hdigit
    obtain ⟨hw, hdec⟩ := ih (by omega) h
    refine ⟨hw, ?_⟩
    rw [hdec, decimal_step hv (by omega), digitChar_of_digit hdigit]
    simp

theorem string2llDigits_decimal {w : Nat} (h : string2llDigits s = some w) :
    0 < w ∧ decimal w = s := by
  cases s with
  | nil => simp [string2llDigits] at h
  | cons c rest =>
    rw [string2llDigits] at h
    split_ifs at h with hc
    obtain ⟨hw, hdec⟩ := string2llLoop_decimal (by omega) h
    have hdigit : isDigit c := by
      simp only [isDigit, Bool.and_eq_true, decide_eq_true_eq]
      omega
    rw [decimal_lt_ten (v := c.toNat - 48) (by omega), digitChar_of_digit hdigit] at hdec
    exact ⟨hw, hdec⟩

theorem ll2string_nonneg (hv : v < 100 ^ 11) : ll2string (v : Int) = decimal v := by
  rw [ll2string, if_neg (by omega), Int.natAbs_natCast, ll2stringLoop_eq hv, append_nil]

theorem ll2string_neg (hpos : 0 < v) (hv : v < 100 ^ 11) :
    ll2string (-(v : Int)) = 45 :: decimal v := by
  rw [ll2string, if_pos (by omega), Int.natAbs_neg, Int.natAbs_natCast, ll2stringLoop_eq hv,
    append_nil]

/-- A string that parses as an integer is the one the integer prints as, and
the integer fits a signed 64-bit word. -/
theorem string2ll_ll2string {v : Int} (h : string2ll s = some v) :
    ll2string v = s ∧ -2 ^ 63 ≤ v ∧ v < 2 ^ 63 := by
  unfold string2ll at h
  split at h
  · simp at h
  · obtain rfl : 0 = v := by simpa using h
    exact ⟨by decide, by norm_num, by norm_num⟩
  · next rest =>
      split at h
      · simp at h
      · next w hw =>
          obtain ⟨hpos, hdec⟩ := string2llDigits_decimal hw
          split_ifs at h with hover
          obtain rfl : -(w : Int) = v := by simpa using h
          have hle : w ≤ 2 ^ 63 := by
            rw [llongMax] at hover
            omega
          refine ⟨?_, by omega, by omega⟩
          rw [ll2string_neg hpos (by omega), hdec]
  · split at h
    · simp at h
    · next w hw =>
        obtain ⟨hpos, hdec⟩ := string2llDigits_decimal hw
        split_ifs at h with hover
        obtain rfl : (w : Int) = v := by simpa using h
        have hle : w < 2 ^ 63 := by
          rw [llongMax] at hover
          omega
        refine ⟨?_, by omega, by omega⟩
        rw [ll2string_nonneg (by omega), hdec]

/-- A sum may be wrapped around before a natural number is added. -/
theorem cInt_add (n k : Nat) : cInt (cInt n + k) = cInt (n + k : Nat) := by
  rw [cInt, cInt, Int.bmod_add_bmod, Nat.cast_add]
  rfl

theorem cInt_of_lt {n : Nat} (hn : n < 2 ^ 31) : cInt n = n :=
  Int.bmod_eq_of_le (by norm_num) (by omega)

/-- A `long long` that goes up by `m` and one more is seen to grow as long as this is not `2 ^ 63`. -/
theorem moved_pos_iff (first : Int64) {m : Nat} (hm : m < 2 ^ 63) :
    first + Int64.ofNat m + 1 - first > 0 ↔ m + 1 < 2 ^ 63 := by
  have hdiff : first + Int64.ofNat m + 1 - first = Int64.ofNat (m + 1) := by
    rw [Int64.ofNat_add, Int64.add_assoc, Int64.add_comm, Int64.add_sub_cancel]
    rfl
  rw [hdiff, gt_iff_lt, Int64.lt_iff_toInt_lt]
  rcases Nat.lt_or_ge (m + 1) (2 ^ 63) with hlt | hge
  · rw [Int64.toInt_ofNat_of_lt hlt]
    exact iff_of_true (Int.natCast_pos.mpr m.succ_pos) hlt
  · obtain rfl : m = 2 ^ 63 - 1 := by omega
    decide

theorem decimal_length_le {v k : Nat} (hk : 0 < k) (hv : v < 10 ^ k) : (decimal v).length ≤ k := by
  rw [decimal]
  split_ifs
  · exact hk
  · rw [length_map, length_reverse]
    exact (Nat.digits_length_le_iff (by norm_num) v).mpr hv

/-- The longest integer has nineteen digits and a sign. -/
theorem string2ll_length {v : Int} (h : string2ll s = some v) : s.length ≤ 20 := by
  obtain ⟨hs, hlo, hhi⟩ := string2ll_ll2string h
  rw [← hs]
  have hdec : (decimal v.natAbs).length ≤ 19 := decimal_length_le (by norm_num) (by omega)
  rcases Int.lt_or_le v 0 with hneg | hnonneg
  · have hprint := ll2string_neg (v := v.natAbs) (by omega) (by omega)
    rw [show -((v.natAbs : Nat) : Int) = v by omega] at hprint
    rw [hprint, length_cons]
    omega
  · have hprint := ll2string_nonneg (v := v.natAbs) (by omega)
    rw [show ((v.natAbs : Nat) : Int) = v by omega] at hprint
    rw [hprint]
    omega

theorem isDigit_digitChar {d : Nat} (hd : d < 10) :
    isDigit (digitChar d) ∧ (digitChar d).toNat = 48 + d := by
  interval_cases d <;> simp [digitChar, isDigit]

theorem isDigit_of_mem_decimal {b : UInt8} (hb : b ∈ decimal v) : isDigit b := by
  rw [decimal] at hb
  split_ifs at hb
  · rw [mem_singleton.mp hb]
    rfl
  · obtain ⟨d, hd, rfl⟩ := mem_map.mp hb
    exact (isDigit_digitChar (Nat.digits_lt_base (by norm_num) (mem_reverse.mp hd))).1

theorem decimal_ne_nil (v : Nat) : decimal v ≠ [] := by
  rw [decimal]
  split_ifs with hzero
  · simp
  · simp [Nat.digits_eq_nil_iff_eq_zero, hzero]

theorem string2llLoop_append (s t : Bytes) (v : Nat) :
    string2llLoop (s ++ t) v = (string2llLoop s v).bind (string2llLoop t) := by
  induction s generalizing v with
  | nil => rfl
  | cons c rest ih =>
    rw [cons_append, string2llLoop, string2llLoop]
    split_ifs with hdigit hover hover'
    · rfl
    · rfl
    · exact ih _
    · rfl

/-- The digits of a positive number parse to it. -/
theorem string2llDigits_of_decimal (hpos : 0 < v) (hv : v ≤ ullongMax) :
    string2llDigits (decimal v) = some v := by
  induction v using Nat.strongRecOn with
  | ind v ih =>
    by_cases hsmall : v < 10
    · obtain ⟨_, hnat⟩ := isDigit_digitChar hsmall
      rw [decimal_lt_ten hsmall, string2llDigits, if_pos (by omega), string2llLoop, hnat]
      congr 1
      omega
    · have hq := ih (v / 10) (by omega) (by omega) (by omega)
      have hsplit : v = v / 10 * 10 + v % 10 := by omega
      obtain ⟨hdigit, hnat⟩ := isDigit_digitChar (d := v % 10) (by omega)
      have hlast : string2llLoop [digitChar (v % 10)] (v / 10) = some v := by
        rw [string2llLoop, if_pos hdigit, hnat, if_neg (by omega), if_neg (by omega), string2llLoop]
        congr 1
        omega
      have hdec : decimal v = decimal (v / 10) ++ [digitChar (v % 10)] := by
        conv_lhs => rw [hsplit]
        exact decimal_step (by omega) (by omega)
      rw [hdec]
      cases hhead : decimal (v / 10) with
      | nil => exact absurd hhead (decimal_ne_nil _)
      | cons c rest =>
        rw [hhead, string2llDigits] at hq
        rw [cons_append, string2llDigits]
        split_ifs at hq ⊢ with hc
        rw [string2llLoop_append, hq]
        exact hlast

/-- What is printed parses. -/
theorem string2ll_decimal (hv : v ≤ llongMax) : string2ll (decimal v) = some (v : Int) := by
  have hbound : llongMax ≤ ullongMax := by decide
  rcases Nat.eq_zero_or_pos v with rfl | hpos
  · rfl
  · have hdigits := string2llDigits_of_decimal hpos (by omega)
    have hall : ∀ b ∈ decimal v, isDigit b := fun b hb => isDigit_of_mem_decimal hb
    generalize decimal v = s at *
    unfold string2ll
    split
    · simp [string2llDigits] at hdigits
    · simp [string2llDigits] at hdigits
    · exact absurd (hall 45 (mem_cons_self ..)) (by decide)
    · rw [hdigits]
      exact if_neg (by omega)

/-- The same for every 64-bit signed number. -/
theorem string2ll_of_ll2string {v : Int} (hlo : -2 ^ 63 ≤ v) (hhi : v < 2 ^ 63) :
    string2ll (ll2string v) = some v := by
  rcases lt_or_ge v 0 with hneg | hnonneg
  · obtain ⟨n, rfl⟩ : ∃ n : Nat, v = -(n : Int) := ⟨v.natAbs, by omega⟩
    have hpos : 0 < n := by omega
    rw [ll2string_neg hpos (by omega)]
    simp only [string2ll, string2llDigits_of_decimal hpos (by rw [ullongMax]; omega)]
    exact if_neg (by rw [llongMax]; omega)
  · obtain ⟨n, rfl⟩ := Int.eq_ofNat_of_zero_le hnonneg
    rw [ll2string_nonneg (by omega)]
    exact string2ll_decimal (by rw [llongMax]; omega)

section Libc

variable {t : Bytes} {w : Nat} {c : UInt8}

theorem cString_eq_self {s : Bytes} (h : (0 : UInt8) ∉ s) : cString s = s := by
  rw [cString, takeWhile_eq_self_iff]
  intro c hc
  have hne : c ≠ 0 := by
    rintro rfl
    exact h hc
  simpa using hne

/-- Where `string2ll` reads a number, so does `strtol`, and it stops behind the digits. -/
theorem strtolDigits_of_string2llLoop (h : string2llLoop s v = some w)
    (ht : strtolDigits t w = w) : strtolDigits (s ++ t) v = w := by
  induction s generalizing v with
  | nil =>
    rw [string2llLoop, Option.some.injEq] at h
    rwa [nil_append, h]
  | cons c s ih =>
    rw [string2llLoop] at h
    split_ifs at h with hdigit
    rw [cons_append, strtolDigits, if_pos hdigit]
    exact ih h

theorem isDigit_of_string2llDigits (h : string2llDigits (c :: s) = some w) :
    isDigit c := by
  rw [string2llDigits] at h
  split_ifs at h with hc
  simp only [isDigit, Bool.and_eq_true, decide_eq_true_eq]
  omega

theorem strtolDigits_of_string2llDigits (h : string2llDigits s = some w)
    (ht : strtolDigits t w = w) : strtolDigits (s ++ t) 0 = w := by
  cases s with
  | nil => cases h
  | cons c rest =>
    have hdigit := isDigit_of_string2llDigits h
    rw [string2llDigits] at h
    split_ifs at h with hc
    rw [cons_append, strtolDigits, if_pos hdigit, Nat.zero_mul, zero_add]
    exact strtolDigits_of_string2llLoop h ht

theorem strtol_of_digit (hc : isDigit c) (rest : Bytes) :
    strtol (c :: rest) = min (2 ^ 63 - 1) (strtolDigits (c :: rest) 0 : Int) := by
  have hbound : 48 ≤ c.toNat ∧ c.toNat ≤ 57 := by simpa [isDigit] using hc
  have hspace : isspace c = false := by
    simp only [isspace, Bool.or_eq_false_iff, Bool.and_eq_false_iff, decide_eq_false_iff_not]
    omega
  rw [strtol, dropWhile_cons_of_neg (by simp [hspace])]
  split
  · next h =>
      cases h
      exact absurd hbound (by decide)
  · next h =>
      cases h
      exact absurd hbound (by decide)
  · rfl

theorem strtol_of_string2ll {s : Bytes} {v : Int} (h : string2ll s = some v) : strtol s = v := by
  have hdigits : ∀ {t : Bytes} {w : Nat}, string2llDigits t = some w → strtolDigits t 0 = w := by
    intro t w hw
    simpa using strtolDigits_of_string2llDigits (t := []) hw rfl
  unfold string2ll at h
  split at h
  · cases h
  · cases h
    rfl
  · next rest =>
      split at h
      · cases h
      · next w hw =>
          split_ifs at h with hbig
          cases h
          rw [llongMax] at hbig
          rw [strtol, dropWhile_cons_of_neg (by decide)]
          simp only [hdigits hw]
          omega
  · split at h
    · cases h
    · next w hw =>
        split_ifs at h with hbig
        cases h
        rw [llongMax] at hbig
        have hvalue := hdigits hw
        cases s with
        | nil => cases hw
        | cons c rest =>
          rw [strtol_of_digit (isDigit_of_string2llDigits hw), hvalue]
          omega

/-- The bytes of a number: digits, and a minus sign. -/
theorem bytes_of_string2ll {v : Int} (h : string2ll s = some v) :
    ∀ b ∈ s, 45 ≤ b.toNat ∧ b.toNat < 58 := by
  obtain ⟨rfl, hlo, hhi⟩ := string2ll_ll2string h
  have hdecimal : ∀ n, ∀ b ∈ decimal n, 45 ≤ b.toNat ∧ b.toNat < 58 := fun n b hb => by
    have hdigit := isDigit_of_mem_decimal hb
    simp only [isDigit, Bool.and_eq_true, decide_eq_true_eq] at hdigit
    omega
  rcases Int.lt_or_le v 0 with hneg | hnonneg
  · obtain ⟨n, rfl⟩ : ∃ n : Nat, v = -(n : Int) := ⟨v.natAbs, by omega⟩
    rw [ll2string_neg (by omega) (by omega), forall_mem_cons]
    exact ⟨by decide, hdecimal n⟩
  · obtain ⟨n, rfl⟩ : ∃ n : Nat, v = n := ⟨v.natAbs, by omega⟩
    rw [ll2string_nonneg (by omega)]
    exact hdecimal n

theorem cString_of_string2ll {v : Int} (h : string2ll s = some v) : cString s = s :=
  cString_eq_self fun hzero => absurd (bytes_of_string2ll h 0 hzero).1 (by decide)

/-- A number has no name that begins with a letter. -/
theorem not_isName_of_string2ll {v : Int} (h : string2ll s = some v) {rest : Bytes}
    (hc : 58 ≤ c.toNat) : isName s (c :: rest) = false := by
  by_contra hname
  rw [Bool.not_eq_false, isName, decide_eq_true_eq, cString_of_string2ll h] at hname
  have hmem : c ∈ s.map toLower := hname ▸ mem_cons_self ..
  obtain ⟨b, hb, hlower⟩ := mem_map.mp hmem
  have hlt := (bytes_of_string2ll h b hb).2
  rw [toLower, if_neg (by omega)] at hlower
  rw [hlower] at hlt
  omega

end Libc

theorem digits10_bounds {fuel v : Nat} (hv : 0 < v) (hfuel : v < 10 ^ (12 * fuel)) :
    v < 10 ^ digits10 fuel v ∧ 10 ^ digits10 fuel v ≤ v * 10 := by
  induction fuel generalizing v with
  | zero => omega
  | succ fuel ih =>
    rw [digits10]
    by_cases hbig : v < 1000000000000
    · split_ifs <;> constructor <;> norm_num <;> omega
    · rw [Nat.mul_succ, pow_add] at hfuel
      have hquot := ih (v := v / 1000000000000) (by omega) (by omega)
      simp (disch := omega) only [if_neg, pow_add]
      omega

theorem digits10_eq (hv : v < 10 ^ 24) : digits10 2 v = (decimal v).length := by
  rcases Nat.eq_zero_or_pos v with rfl | hpos
  · rfl
  · obtain ⟨hhi, hlo⟩ := @digits10_bounds 2 v hpos hv
    rw [decimal, if_neg hpos.ne', length_map, length_reverse,
      Nat.length_digits 10 v (by norm_num) hpos.ne', ← Nat.log_mul_base (by norm_num) hpos.ne']
    exact (Nat.log_eq_of_pow_le_of_lt_pow hlo (by rw [pow_succ]; omega)).symm

theorem sdigits10_eq {v : Int} (hlo : -2 ^ 63 ≤ v) (hhi : v < 2 ^ 63) :
    sdigits10 v = (ll2string v).length := by
  have habs : v.natAbs < 10 ^ 24 := by omega
  rw [sdigits10, digits10_eq habs]
  split_ifs with hneg
  · have hprint := ll2string_neg (v := v.natAbs) (by omega) (by omega)
    rw [show -((v.natAbs : Nat) : Int) = v by omega] at hprint
    rw [hprint, length_cons]
  · have hprint := ll2string_nonneg (v := v.natAbs) (by omega)
    rw [show ((v.natAbs : Nat) : Int) = v by omega] at hprint
    rw [hprint]

theorem incrementOverflows_eq {v incr : Int} (hlo : -2 ^ 63 ≤ v) (hhi : v < 2 ^ 63)
    (hincrlo : -2 ^ 63 ≤ incr) (hincrhi : incr < 2 ^ 63) :
    incrementOverflows v incr = decide (¬ (-2 ^ 63 ≤ v + incr ∧ v + incr < 2 ^ 63)) := by
  rw [incrementOverflows, Bool.eq_iff_iff]
  simp only [Bool.or_eq_true, Bool.and_eq_true, decide_eq_true_eq]
  omega

end Redis.Util
