import Mathlib

/-! Words ordered by their reversed bits. Counting in this order changes the
high-order end of a low-bit mask last, so that the words agreeing on their low
bits form an interval whatever the width of the mask is. -/
namespace BitReversal

open BitVec

variable {w : Nat}
variable {j k : Nat}

/-- Position of a word in the order of the reversed words. -/
def rank (x : BitVec w) : Nat := x.reverse.toNat

/-- The mask of the `k` low bits. -/
def lowMask (w k : Nat) : BitVec w := BitVec.ofNat w (2 ^ k - 1)

/-- The low `k` bits of a word, read in reverse. -/
def group (k : Nat) (x : BitVec w) : Nat := rank x / 2 ^ (w - k)

theorem rank_lt (x : BitVec w) : rank x < 2 ^ w := x.reverse.isLt

theorem rank_reverse (x : BitVec w) : rank x.reverse = x.toNat := by
  rw [rank, reverse_reverse_eq]

@[simp] theorem rank_zero : rank (0#w) = 0 := by
  have hz : (0#w).reverse = 0#w := by
    apply eq_of_getLsbD_eq
    intro i _
    simp [getLsbD_reverse, getMsbD]
  simp [rank, hz]

theorem getLsbD_lowMask {i : Nat} (hi : i < w) : (lowMask w k).getLsbD i = decide (i < k) := by
  rw [lowMask, getLsbD_ofNat, Nat.testBit_two_pow_sub_one]
  simp [hi]

theorem testBit_rank (x : BitVec w) (i : Nat) : (rank x).testBit i = x.getMsbD i := by
  rw [rank, testBit_toNat, getLsbD_reverse]

theorem testBit_group (hk : k ≤ w) (x : BitVec w) (j : Nat) :
    (group k x).testBit j = (decide (j < k) && x.getLsbD (k - 1 - j)) := by
  rw [group, Nat.testBit_div_two_pow, testBit_rank, getMsbD]
  by_cases hj : j < k
  · have hlt : j + (w - k) < w := by omega
    have hidx : w - 1 - (j + (w - k)) = k - 1 - j := by omega
    simp only [hlt, hidx, hj]
  · have hlt : ¬ j + (w - k) < w := by omega
    simp only [hlt, hj, decide_false, Bool.false_and]

/-- Words in one group are the words with the same low bits. -/
theorem group_eq_iff (hk : k ≤ w) (x y : BitVec w) :
    group k x = group k y ↔ x &&& lowMask w k = y &&& lowMask w k := by
  constructor
  · intro h
    apply eq_of_getLsbD_eq
    intro i hi
    rw [getLsbD_and, getLsbD_and, getLsbD_lowMask hi]
    by_cases hik : i < k
    · have hbit := congrArg (fun n => n.testBit (k - 1 - i)) h
      simp only [testBit_group hk] at hbit
      rw [show k - 1 - (k - 1 - i) = i by omega] at hbit
      have hlt : k - 1 - i < k := by omega
      simpa [hlt, hik] using hbit
    · simp [hik]
  · intro h
    apply Nat.eq_of_testBit_eq
    intro j
    rw [testBit_group hk, testBit_group hk]
    by_cases hj : j < k
    · have hlt : k - 1 - j < w := by omega
      have hbit := congrArg (fun z => z.getLsbD (k - 1 - j)) h
      simp only [getLsbD_and, getLsbD_lowMask hlt] at hbit
      have hlt' : k - 1 - j < k := by omega
      simpa [hj, hlt'] using hbit
    · simp [hj]

/-- A coarser group is an interval of finer ones. -/
theorem group_group (hjk : j ≤ k) (hk : k ≤ w) (x : BitVec w) :
    group j x = group k x / 2 ^ (k - j) := by
  rw [group, group, Nat.div_div_eq_div_mul, ← pow_add]
  congr 2
  omega

theorem group_lt (hk : k ≤ w) (x : BitVec w) : group k x < 2 ^ k := by
  rw [group, Nat.div_lt_iff_lt_mul (by positivity), ← pow_add]
  rw [show k + (w - k) = w by omega]
  exact rank_lt x

theorem rank_fill (hk : k ≤ w) (x : BitVec w) :
    rank (x ||| ~~~lowMask w k) = group k x * 2 ^ (w - k) + (2 ^ (w - k) - 1) := by
  have hor : group k x * 2 ^ (w - k) + (2 ^ (w - k) - 1) =
      2 ^ (w - k) * group k x ||| (2 ^ (w - k) - 1) := by
    rw [← Nat.two_pow_add_eq_or_of_lt (Nat.sub_lt (by positivity) (by norm_num)), mul_comm]
  rw [hor]
  apply Nat.eq_of_testBit_eq
  intro i
  rw [testBit_rank, Nat.testBit_or, Nat.testBit_two_pow_sub_one, Nat.testBit_two_pow_mul,
    getMsbD]
  by_cases hi : i < w
  · have hlt : w - 1 - i < w := by omega
    rw [getLsbD_or, getLsbD_not, getLsbD_lowMask hlt, testBit_group hk]
    by_cases hik : i < w - k
    · have hmask : ¬ w - 1 - i < k := by omega
      simp [hi, hik, hmask]
      omega
    · have hmask : w - 1 - i < k := by omega
      have hjk : i - (w - k) < k := by omega
      have hidx : k - 1 - (i - (w - k)) = w - 1 - i := by omega
      have hge : w - k ≤ i := by omega
      simp [hi, hik, hmask, hjk, hidx, hge]
  · have hik : ¬ i < w - k := by omega
    have hjk : ¬ i - (w - k) < k := by omega
    simp [hi, hik, testBit_group hk, hjk]

/-- Filling the bits above the mask and adding one to the reversed word goes
to the first word of the next group. -/
theorem rank_next (hk : k ≤ w) (x : BitVec w) :
    rank ((x ||| ~~~lowMask w k).reverse + 1).reverse =
      (group k x + 1) * 2 ^ (w - k) % 2 ^ w := by
  have hpos : 0 < 2 ^ (w - k) := by positivity
  have hfill := rank_fill hk x
  rw [rank] at hfill
  rw [rank_reverse, BitVec.toNat_add, hfill, show (1 : BitVec w) = BitVec.ofNat w 1 from rfl,
    BitVec.toNat_ofNat, Nat.add_mod_mod, Nat.add_mul]
  congr 1
  omega

/-- The bits between two masks are zero at the first word of a coarse group. -/
theorem and_masks_eq_zero_iff (hjk : j ≤ k) (hk : k ≤ w) (x : BitVec w) :
    x &&& (lowMask w j ^^^ lowMask w k) = 0#w ↔ group k x % 2 ^ (k - j) = 0 := by
  constructor
  · intro h
    apply Nat.eq_of_testBit_eq
    intro i
    rw [Nat.testBit_mod_two_pow, testBit_group hk, Nat.zero_testBit]
    by_cases hi : i < k - j
    · have hlt : k - 1 - i < w := by omega
      have hbit := congrArg (fun z => z.getLsbD (k - 1 - i)) h
      simp only [getLsbD_and, getLsbD_xor, getLsbD_lowMask hlt] at hbit
      have h1 : ¬ k - 1 - i < j := by omega
      have h2 : k - 1 - i < k := by omega
      simp only [h1, h2] at hbit
      have h3 : i < k := by omega
      simpa [hi, h3] using hbit
    · simp [hi]
  · intro h
    apply eq_of_getLsbD_eq
    intro i hi
    rw [getLsbD_and, getLsbD_xor, getLsbD_lowMask hi, getLsbD_lowMask hi]
    by_cases hij : i < j
    · have hik : i < k := by omega
      simp [hij, hik]
    · by_cases hik : i < k
      · have hbit := congrArg (fun n => n.testBit (k - 1 - i)) h
        simp only [Nat.testBit_mod_two_pow, testBit_group hk, Nat.zero_testBit] at hbit
        rw [show k - 1 - (k - 1 - i) = i by omega] at hbit
        have h1 : k - 1 - i < k - j := by omega
        have h2 : k - 1 - i < k := by omega
        simp only [h1, h2] at hbit
        simpa [hij, hik] using hbit
      · simp [hij, hik]

end BitReversal
