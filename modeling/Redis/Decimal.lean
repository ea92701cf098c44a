import Redis.Util

/-! `ll2string` writes into a buffer, from its end on, after a count of the digits. What it
writes is what `string2ll` reads. -/
namespace Redis.Util

open ByteBuffer List

/-- The loop of `ll2string` on its buffer; ten rounds suffice for a 64-bit word. -/
def writeDigits : Nat → Bytes → Nat → Nat → Bytes
  | 0, dst, _, _ => dst
  | fuel + 1, dst, next, value =>
    if value ≥ 100 then
      let dst := dst.set next (digitChar (value % 100 % 10))
      let dst := dst.set (next - 1) (digitChar (value % 100 / 10))
      writeDigits fuel dst (next - 2) (value / 100)
    else if value < 10 then dst.set next (digitChar value)
    else
      let dst := dst.set next (digitChar (value % 10))
      dst.set (next - 1) (digitChar (value / 10))

/-- `ll2string` with its buffer, and the length it returns. -/
def ll2stringInto (dst : Bytes) (dstlen : Nat) (svalue : Int) : Nat × Bytes :=
  let negative := if svalue < 0 then 1 else 0
  let value := svalue.natAbs
  let length := digits10 2 value + negative
  if length ≥ dstlen then (0, dst)
  else
    let dst := dst.set length 0
    let dst := writeDigits 11 dst (length - 1) value
    (length, if svalue < 0 then dst.set 0 45 else dst)

/-- The string in the buffer after a call, by the length it returned. -/
def written (r : Nat × Bytes) : Bytes := r.2.take r.1

variable {v : Nat} {dst : Bytes} {dstlen : Nat}

/-- The loop fills a gap of as many bytes as the number has digits. -/
theorem writeDigits_eq {fuel : Nat} (hfuel : v < 100 ^ fuel) (a : Bytes) {gap : Bytes}
    (dst : Bytes) (hgap : gap.length = (decimal v).length) :
    writeDigits (fuel + 1) (a ++ gap ++ dst) (a.length + gap.length - 1) v =
      a ++ decimal v ++ dst := by
  induction fuel generalizing v gap dst with
  | zero =>
    obtain rfl : v = 0 := by simpa using hfuel
    obtain ⟨c, rfl⟩ := length_eq_one_iff.mp hgap
    simp [writeDigits, decimal, digitChar]
  | succ fuel ih =>
    rw [writeDigits]
    split_ifs with hbig hsmall
    · have hdiv : v / 100 < 100 ^ fuel := by
        rw [Nat.div_lt_iff_lt_mul (by norm_num), ← pow_succ]
        exact hfuel
      rw [decimal_pair hbig, length_append] at hgap
      obtain ⟨gap, c₁, c₂, rfl⟩ : ∃ gap' c₁ c₂, gap = gap' ++ [c₁, c₂] := by
        obtain ⟨c₁, c₂, hpair⟩ := length_eq_two.mp
          (show (gap.drop (decimal (v / 100)).length).length = 2 by simp [hgap])
        exact ⟨_, c₁, c₂, by rw [← hpair, take_append_drop]⟩
      have hlen : gap.length = (decimal (v / 100)).length := by simpa using hgap
      have hrec := ih hdiv (digitChar (v % 100 / 10) :: digitChar (v % 100 % 10) :: dst) hlen
      have hset : ((a ++ (gap ++ [c₁, c₂]) ++ dst).set (a.length + gap.length + 1)
          (digitChar (v % 100 % 10))).set (a.length + gap.length) (digitChar (v % 100 / 10)) =
          a ++ gap ++ digitChar (v % 100 / 10) :: digitChar (v % 100 % 10) :: dst := by
        simp [add_assoc]
      have hnext : a.length + (gap ++ [c₁, c₂]).length - 1 = a.length + gap.length + 1 := by
        simp [add_assoc]
      dsimp only
      rw [hnext, Nat.add_sub_cancel, Nat.add_sub_add_right _ 1 1, hset, hrec, decimal_pair hbig]
      simp
    · rw [decimal_lt_ten hsmall] at hgap ⊢
      obtain ⟨c, rfl⟩ := length_eq_one_iff.mp hgap
      simp
    · rw [decimal_lt_hundred (by omega) (by omega)] at hgap ⊢
      obtain ⟨c₁, c₂, rfl⟩ := length_eq_two.mp hgap
      simp

theorem writeDigits_set (hv : v < 100 ^ 10) (a : Bytes) {rest : Bytes}
    (hroom : (decimal v).length < rest.length) :
    writeDigits 11 ((a ++ rest).set (a.length + (decimal v).length) 0)
      (a.length + (decimal v).length - 1) v =
        a ++ decimal v ++ 0 :: rest.drop ((decimal v).length + 1) := by
  have hgap : (rest.take (decimal v).length).length = (decimal v).length :=
    length_take_of_le hroom.le
  have hset : (a ++ rest).set (a.length + (decimal v).length) 0 =
      a ++ rest.take (decimal v).length ++ 0 :: rest.drop ((decimal v).length + 1) := by
    rw [set_append_right _ _ (Nat.le_add_right _ _), Nat.add_sub_cancel_left,
      set_eq_take_append_cons_drop, if_pos hroom, append_assoc]
  have hfill := writeDigits_eq hv a (0 :: rest.drop ((decimal v).length + 1)) hgap
  rwa [hgap, ← hset] at hfill

/-- With room for the longest number the buffer starts with the string, and a final `NUL`. -/
theorem ll2stringInto_eq {svalue : Int} (hlo : -2 ^ 63 ≤ svalue) (hhi : svalue < 2 ^ 63)
    (hlen : 20 < dstlen) (hdst : dstlen ≤ dst.length) :
    ll2stringInto dst dstlen svalue = ((ll2string svalue).length,
      ll2string svalue ++ 0 :: dst.drop ((ll2string svalue).length + 1)) := by
  obtain ⟨n, hn⟩ : ∃ n : Nat, svalue.natAbs = n := ⟨_, rfl⟩
  have hsmall : n < 10 ^ 19 := by omega
  have hdigits := decimal_length_le (by norm_num) hsmall
  rw [ll2stringInto, hn, digits10_eq (hsmall.trans (by norm_num))]
  rcases lt_or_ge svalue 0 with hneg | hnonneg
  · obtain rfl : svalue = -(n : Int) := by omega
    obtain ⟨c, rest, rfl⟩ := exists_cons_of_length_pos (show 0 < dst.length by omega)
    rw [length_cons] at hdst
    have hfill := writeDigits_set (hsmall.trans (by norm_num)) [c] (by omega : _ < rest.length)
    rw [length_singleton, add_comm 1, singleton_append] at hfill
    simp only [if_pos hneg]
    rw [if_neg (by omega), hfill, ll2string_neg (by omega) (hsmall.trans (by norm_num))]
    rfl
  · obtain rfl : svalue = n := by omega
    have hfill := writeDigits_set (hsmall.trans (by norm_num)) [] (by omega : _ < dst.length)
    rw [length_nil, zero_add] at hfill
    simp only [if_neg (not_lt.mpr hnonneg)]
    rw [if_neg (by omega), add_zero, ll2string_nonneg (hsmall.trans (by norm_num))]
    exact congrArg _ hfill

/-- The parser accepts exactly what the printer writes into a buffer with room for every 64-bit
number, and reads the number back. -/
theorem string2ll_iff_ll2string (hlen : 20 < dstlen) (hdst : dstlen ≤ dst.length) :
    (∀ (s : Bytes) (v : Int), string2ll s = some v ↔
      (-2 ^ 63 ≤ v ∧ v < 2 ^ 63) ∧ s = written (ll2stringInto dst dstlen v)) ∧
    (∀ v : Int, -2 ^ 63 ≤ v → v < 2 ^ 63 →
      string2ll (written (ll2stringInto dst dstlen v)) = some v) ∧
    ∀ s, (∀ v : Int, -2 ^ 63 ≤ v → v < 2 ^ 63 → s ≠ written (ll2stringInto dst dstlen v)) →
      string2ll s = none := by
  have hiff : ∀ (s : Bytes) (v : Int), string2ll s = some v ↔
      (-2 ^ 63 ≤ v ∧ v < 2 ^ 63) ∧ s = written (ll2stringInto dst dstlen v) := by
    intro s v
    constructor
    · intro h
      obtain ⟨rfl, hlo, hhi⟩ := string2ll_ll2string h
      rw [ll2stringInto_eq hlo hhi hlen hdst]
      exact ⟨⟨hlo, hhi⟩, take_left.symm⟩
    · rintro ⟨⟨hlo, hhi⟩, rfl⟩
      rw [ll2stringInto_eq hlo hhi hlen hdst, written, take_left]
      exact string2ll_of_ll2string hlo hhi
  refine ⟨hiff, fun v hlo hhi => (hiff _ v).mpr ⟨⟨hlo, hhi⟩, rfl⟩, fun s hs => ?_⟩
  refine Option.eq_none_iff_forall_ne_some.mpr fun v hv => ?_
  obtain ⟨⟨hlo, hhi⟩, heq⟩ := (hiff s v).mp hv
  exact hs v hlo hhi heq

theorem string2ll_iff_ll2string_min :
    string2ll (written (ll2stringInto (replicate 21 0) 21 (-2 ^ 63))) = some (-2 ^ 63) :=
  (string2ll_iff_ll2string (by decide) (by decide)).2.1 _ (by decide) (by decide)

end Redis.Util
