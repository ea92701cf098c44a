import Redis.Library.BitReversal
import Redis.Dictionary.Refinement

/-! The stateless cursor of `dictScan`. The cursor counts in the order of the
reversed words, in which the hashes of one bucket are an interval for every
power-of-two table size. Whatever was emitted so far is exactly a lower part of
that order, and this survives any resizing between two calls. -/
namespace Redis.Dictionary

open Simulation BitReversal List BitVec

variable {K V : Type}
variable {d : Dict K V} {t1 : DictHt K V} {k j : Nat}

/-- One round of the parallel bit reversal: swap neighbouring groups of `s` bits. -/
def revRound (s : Nat) (mask v : BitVec 64) : BitVec 64 :=
  ((v >>> s) &&& mask) ||| ((v <<< s) &&& ~~~mask)

/-- The loop of `rev`; the shift is halved until it is zero. -/
def revLoop : Nat → Nat → BitVec 64 → BitVec 64 → BitVec 64
  | 0, _, _, v => v
  | fuel + 1, s, mask, v =>
    let s := s / 2
    if s > 0 then
      let mask := mask ^^^ (mask <<< s)
      revLoop fuel s mask (revRound s mask v)
    else v

def rev (v : BitVec 64) : BitVec 64 := revLoop 64 64 (BitVec.allOnes 64) v

/-- `v |= ~mask; v = rev(v); v++; v = rev(v)`. -/
def nextCursor (mask v : BitVec 64) : BitVec 64 := rev (rev (v ||| ~~~mask) + 1)

/-- The bucket the cursor points to, all of whose links go to the callback. -/
def DictHt.emit (ht : DictHt K V) (v : BitVec 64) : List (DictEntry K V) :=
  ht.bucket (v &&& BitVec.ofNat 64 ht.sizemask).toNat

/-- The loop of `dictScan` over the buckets of the larger table that expand
the bucket of the smaller one. -/
def scanLoop (t1 : DictHt K V) (m0 m1 : BitVec 64) :
    Nat → BitVec 64 → List (DictEntry K V) × BitVec 64
  | 0, v => ([], v)
  | fuel + 1, v =>
    let v' := nextCursor m1 v
    if v' &&& (m0 ^^^ m1) ≠ 0 then
      let later := scanLoop t1 m0 m1 fuel v'
      (t1.emit v ++ later.1, later.2)
    else (t1.emit v, v')

/-- `dictScan`: the entries handed to the callback and the next cursor. -/
def dictScan (d : Dict K V) (v : BitVec 64) : List (DictEntry K V) × BitVec 64 :=
  if d.dictSize = 0 then ([], 0)
  else if !d.isRehashing then
    (d.ht0.emit v, nextCursor (BitVec.ofNat 64 d.ht0.sizemask) v)
  else
    let t0 := if d.ht0.size > d.ht1.size then d.ht1 else d.ht0
    let t1 := if d.ht0.size > d.ht1.size then d.ht0 else d.ht1
    let m0 := BitVec.ofNat 64 t0.sizemask
    let m1 := BitVec.ofNat 64 t1.sizemask
    -- at most every bucket of the larger table is visited
    let later := scanLoop t1 m0 m1 t1.size v
    (t0.emit v ++ later.1, later.2)

section Reversal

/-- Where a round takes the bit of position `i` from. -/
def swapIndex (s i : Nat) : Nat := if i / s % 2 = 0 then i + s else i - s

theorem revRound_bit {s : Nat} {mask : BitVec 64}
    (hmask : ∀ i < 64, mask.getLsbD i = decide (i / s % 2 = 0)) (v : BitVec 64) {i : Nat}
    (hi : i < 64) : (revRound s mask v).getLsbD i = v.getLsbD (swapIndex s i) := by
  rw [revRound, getLsbD_or, getLsbD_and, getLsbD_and, getLsbD_not,
    getLsbD_ushiftRight, getLsbD_shiftLeft, hmask i hi, swapIndex]
  by_cases hp : i / s % 2 = 0
  · simp [hp, add_comm]
  · have hle : s ≤ i := by
      by_contra hlt
      rw [Nat.div_eq_of_lt (by omega)] at hp
      exact hp rfl
    have hnlt : ¬ i < s := by omega
    simp [hp, hi, hnlt]

/-- The parallel algorithm reverses the word. -/
theorem rev_eq_reverse (v : BitVec 64) : rev v = v.reverse := by
  apply eq_of_getLsbD_eq
  intro i hi
  have hswap : ∀ i < 64, swapIndex 1 i < 64 ∧ swapIndex 2 i < 64 ∧ swapIndex 4 i < 64 ∧
      swapIndex 8 i < 64 ∧ swapIndex 16 i < 64 := by decide
  have hall : ∀ i < 64, swapIndex 32 (swapIndex 16 (swapIndex 8 (swapIndex 4
      (swapIndex 2 (swapIndex 1 i))))) = 63 - i := by decide
  have h1 := (hswap i hi).1
  have h2 := (hswap _ h1).2.1
  have h4 := (hswap _ h2).2.2.1
  have h8 := (hswap _ h4).2.2.2.1
  have h16 := (hswap _ h8).2.2.2.2
  show (revRound 1 _ (revRound 2 _ (revRound 4 _ (revRound 8 _ (revRound 16 _
    (revRound 32 _ v)))))).getLsbD i = _
  rw [revRound_bit (by decide) _ hi,
    revRound_bit (by decide) _ h1, revRound_bit (by decide) _ h2,
    revRound_bit (by decide) _ h4, revRound_bit (by decide) _ h8,
    revRound_bit (by decide) _ h16, hall i hi, getLsbD_reverse,
    getMsbD]
  simp [hi]

theorem rank_nextCursor (hk : k ≤ 64) (v : BitVec 64) :
    rank (nextCursor (lowMask 64 k) v) = (group k v + 1) * 2 ^ (64 - k) % 2 ^ 64 := by
  rw [nextCursor, rev_eq_reverse, rev_eq_reverse]
  exact rank_next hk v

theorem group_nextCursor (hk : k ≤ 64) (v : BitVec 64) :
    group k (nextCursor (lowMask 64 k) v) = (group k v + 1) % 2 ^ k := by
  have hpow : 2 ^ 64 = 2 ^ k * 2 ^ (64 - k) := by
    rw [← pow_add, show k + (64 - k) = 64 by omega]
  rw [group, rank_nextCursor hk, hpow, Nat.mul_mod_mul_right]
  exact Nat.mul_div_cancel _ (by positivity)

end Reversal

section Coverage

variable {hash : K → BitVec 64}

/-- The interval of ranks that the bucket at the cursor stands for. -/
theorem rank_mem_group (v : BitVec 64) :
    group j v * 2 ^ (64 - j) ≤ rank v ∧ rank v < (group j v + 1) * 2 ^ (64 - j) :=
  ⟨Nat.div_mul_le_self _ _, Nat.lt_mul_of_div_lt (Nat.lt_succ_self _) (by positivity)⟩

theorem HtWf.mem_emit {ht : DictHt K V} (h : HtWf hash ht) (hk : k ≤ 63) (hsize : ht.size = 2 ^ k)
    {e : DictEntry K V} (he : e ∈ ht.entries) {v : BitVec 64}
    (hgroup : group k (hash e.key) = group k v) : e ∈ ht.emit v := by
  have hmask : BitVec.ofNat 64 ht.sizemask = lowMask 64 k := by rw [h.mask, hsize, lowMask]
  have hlt : ht.sizemask < 2 ^ 64 := by
    have hp : 2 ^ k ≤ 2 ^ 63 := Nat.pow_le_pow_right (by norm_num) hk
    rw [h.mask, hsize]
    omega
  have hidx : (v &&& BitVec.ofNat 64 ht.sizemask).toNat = ht.index hash e.key := by
    rw [hmask, ← (group_eq_iff (by omega) _ _).mp hgroup, ← hmask, BitVec.toNat_and,
      BitVec.toNat_ofNat, Nat.mod_eq_of_lt hlt, DictHt.index]
  rw [DictHt.emit, hidx]
  exact (h.mem_bucket_iff e).mpr he

theorem group_in_coarse (hjk : j ≤ k) (hk : k ≤ 64) (v : BitVec 64) :
    group j v * 2 ^ (k - j) ≤ group k v ∧ group k v < (group j v + 1) * 2 ^ (k - j) := by
  rw [group_group hjk hk]
  exact ⟨Nat.div_mul_le_self _ _, Nat.lt_mul_of_div_lt (Nat.lt_succ_self _) (by positivity)⟩

theorem bucket_end_le (hjk : j ≤ k) (hk : k ≤ 64) (v : BitVec 64) :
    (group j v + 1) * 2 ^ (k - j) ≤ 2 ^ k := by
  calc (group j v + 1) * 2 ^ (k - j) ≤ 2 ^ j * 2 ^ (k - j) :=
        Nat.mul_le_mul_right _ (group_lt (hjk.trans hk) v)
    _ = 2 ^ k := by rw [← pow_add, Nat.add_sub_cancel' hjk]

/-- Advancing in the finer table either stays in the coarse bucket or leaves
it at its end, and the test on the bits between the masks tells which. -/
theorem nextCursor_cases (hjk : j ≤ k) (hk : k ≤ 64) (v : BitVec 64) :
    (group k v + 1 < (group j v + 1) * 2 ^ (k - j) ∧
      nextCursor (lowMask 64 k) v &&& (lowMask 64 j ^^^ lowMask 64 k) ≠ 0#64 ∧
      group k (nextCursor (lowMask 64 k) v) = group k v + 1 ∧
      group j (nextCursor (lowMask 64 k) v) = group j v) ∨
    (group k v + 1 = (group j v + 1) * 2 ^ (k - j) ∧
      nextCursor (lowMask 64 k) v &&& (lowMask 64 j ^^^ lowMask 64 k) = 0#64 ∧
      rank (nextCursor (lowMask 64 k) v) = (group j v + 1) * 2 ^ (64 - j) % 2 ^ 64) := by
  obtain ⟨hlow, hhigh⟩ := group_in_coarse hjk hk v
  have hsplit : 2 ^ k = 2 ^ j * 2 ^ (k - j) := by
    rw [← pow_add, show j + (k - j) = k by omega]
  have htop := bucket_end_le hjk hk v
  have hnext := group_nextCursor hk v
  have hcoarse := group_group hjk hk (nextCursor (lowMask 64 k) v)
  rw [Ne, and_masks_eq_zero_iff hjk hk]
  rcases lt_or_ge (group k v + 1) ((group j v + 1) * 2 ^ (k - j)) with hlt | hge
  · left
    rw [Nat.mod_eq_of_lt (by omega)] at hnext
    have hdiv : (group k v + 1) / 2 ^ (k - j) = group j v :=
      Nat.div_eq_of_lt_le (by omega) hlt
    refine ⟨hlt, ?_, hnext, by rw [hcoarse, hnext, hdiv]⟩
    intro hzero
    rw [hnext] at hzero
    have hmod := Nat.div_add_mod (group k v + 1) (2 ^ (k - j))
    rw [hdiv, hzero, mul_comm] at hmod
    omega
  · right
    have heq : group k v + 1 = (group j v + 1) * 2 ^ (k - j) := by omega
    refine ⟨heq, ?_, ?_⟩
    · rw [hnext, heq, hsplit, Nat.mul_mod_mul_right, Nat.mul_mod_left]
    · rw [rank_nextCursor hk, heq, mul_assoc, ← pow_add,
        show k - j + (64 - k) = 64 - j by omega]

theorem scanLoop_stop {m0 m1 v : BitVec 64} (fuel : Nat)
    (hbits : nextCursor m1 v &&& (m0 ^^^ m1) = 0#64) :
    scanLoop t1 m0 m1 (fuel + 1) v = (t1.emit v, nextCursor m1 v) :=
  if_neg (not_not.mpr hbits)

/-- The loop ends at the first cursor outside the coarse bucket, having
emitted every fine bucket from the cursor up to there. -/
theorem scanLoop_spec (h : HtWf hash t1) (hjk : j ≤ k) (hk : k ≤ 63)
    (hsize : t1.size = 2 ^ k) (fuel : Nat) (v : BitVec 64)
    (hfuel : (group j v + 1) * 2 ^ (k - j) ≤ group k v + fuel) :
    rank (scanLoop t1 (lowMask 64 j) (lowMask 64 k) fuel v).2 =
        (group j v + 1) * 2 ^ (64 - j) % 2 ^ 64 ∧
      ∀ e ∈ t1.entries, group k v ≤ group k (hash e.key) →
        group k (hash e.key) < (group j v + 1) * 2 ^ (k - j) →
        e ∈ (scanLoop t1 (lowMask 64 j) (lowMask 64 k) fuel v).1 := by
  induction fuel generalizing v with
  | zero =>
    have hhigh := (group_in_coarse hjk (by omega) v).2
    omega
  | succ fuel ih =>
    rcases nextCursor_cases hjk (by omega) v with ⟨_, hbits, hk', hj'⟩ | ⟨hend, hbits, hrank⟩
    · obtain ⟨hlast, hlater⟩ := ih (nextCursor (lowMask 64 k) v) (by rw [hk', hj']; omega)
      rw [hj'] at hlast hlater
      rw [hk'] at hlater
      rw [scanLoop]
      rw [if_pos (by exact hbits)]
      refine ⟨hlast, ?_⟩
      intro e he hle hlt
      rcases Nat.eq_or_lt_of_le hle with heq | hgt
      · exact mem_append_left _ (h.mem_emit hk hsize he heq.symm)
      · exact mem_append_right _ (hlater e he hgt hlt)
    · rw [scanLoop_stop fuel hbits]
      refine ⟨hrank, ?_⟩
      intro e he hle hlt
      exact h.mem_emit hk hsize he (by omega)

/-- What one call of `dictScan` achieves: it emits every entry whose hash
ranks from the cursor up to a bound, and returns a cursor at that bound. -/
def Covers (hash : K → BitVec 64) (d : Dict K V) (v : BitVec 64)
    (result : List (DictEntry K V) × BitVec 64) : Prop :=
  ∃ bound, rank v < bound ∧ bound ≤ 2 ^ 64 ∧ rank result.2 = bound % 2 ^ 64 ∧
    ∀ e ∈ d.entries, rank v ≤ rank (hash e.key) → rank (hash e.key) < bound → e ∈ result.1

theorem group_eq_of_rank {v h : BitVec 64} (hle : rank v ≤ rank h)
    (hlt : rank h < (group j v + 1) * 2 ^ (64 - j)) : group j h = group j v := by
  apply Nat.div_eq_of_lt_le
  · exact (rank_mem_group v).1.trans hle
  · exact hlt

/-- Two tables at once, the smaller one first. -/
theorem scanTables_spec {t0 : DictHt K V} (h0 : HtWf hash t0) (h1 : HtWf hash t1)
    (hjk : j ≤ k) (hk : k ≤ 63) (hsize0 : t0.size = 2 ^ j) (hsize1 : t1.size = 2 ^ k)
    (hmem : ∀ e ∈ d.entries, e ∈ t0.entries ∨ e ∈ t1.entries) (v : BitVec 64) :
    Covers hash d v
      (t0.emit v ++ (scanLoop t1 (lowMask 64 j) (lowMask 64 k) t1.size v).1,
        (scanLoop t1 (lowMask 64 j) (lowMask 64 k) t1.size v).2) := by
  have hfuel : (group j v + 1) * 2 ^ (k - j) ≤ group k v + t1.size := by
    have hle := bucket_end_le hjk (by omega) v
    omega
  obtain ⟨hrank, hemit⟩ := scanLoop_spec h1 hjk hk hsize1 t1.size v hfuel
  refine ⟨_, (rank_mem_group v).2, bucket_end_le (show j ≤ 64 by omega) le_rfl v, hrank, ?_⟩
  intro e he hle hlt
  have hcoarse := group_eq_of_rank hle hlt
  rcases hmem e he with hmem0 | hmem1
  · exact mem_append_left _ (h0.mem_emit (by omega) hsize0 hmem0 hcoarse)
  · apply mem_append_right
    apply hemit e hmem1
    · exact Nat.div_le_div_right hle
    · rw [← hcoarse]
      exact (group_in_coarse hjk (by omega) _).2

theorem HtWf.size_pow {ht : DictHt K V} (h : HtWf hash ht) (hs : ht.table.isSome) :
    ∃ k ≤ 63, ht.size = 2 ^ k ∧ BitVec.ofNat 64 ht.sizemask = lowMask 64 k := by
  rcases h.pow with ⟨hn, _⟩ | ⟨_, k, hk, hp⟩
  · simp [hn] at hs
  · exact ⟨k, hk, hp, by rw [h.mask, hp, lowMask]⟩

theorem dictScan_covers (h : Wf hash d) (hne : d.entries ≠ []) (v : BitVec 64) :
    Covers hash d v (dictScan d v) := by
  have hsize : d.dictSize ≠ 0 := by
    have h0 := h.wf0.count
    have h1 := h.wf1.count
    have hpos := length_pos_iff.mpr hne
    rw [Dict.entries, length_append] at hpos
    rw [Dict.dictSize]
    omega
  rw [dictScan, if_neg hsize]
  by_cases hr : d.isRehashing
  · obtain ⟨hs0, hs1⟩ := h.busy hr
    obtain ⟨j, hj, hsize0, hmask0⟩ := h.wf0.size_pow hs0
    obtain ⟨k, hk, hsize1, hmask1⟩ := h.wf1.size_pow hs1
    rw [if_neg (by simp [hr])]
    by_cases hswap : d.ht0.size > d.ht1.size
    · have hkj : k ≤ j := by
        rw [hsize0, hsize1] at hswap
        exact ((Nat.pow_lt_pow_iff_right (by norm_num)).mp hswap).le
      simp only [if_pos hswap, hmask0, hmask1]
      refine scanTables_spec h.wf1 h.wf0 hkj hj hsize1 hsize0 ?_ v
      exact fun e he => (mem_append.mp he).symm
    · have hjk : j ≤ k := by
        rw [hsize0, hsize1, gt_iff_lt, not_lt] at hswap
        exact (Nat.pow_le_pow_iff_right (by norm_num)).mp hswap
      simp only [if_neg hswap, hmask0, hmask1]
      refine scanTables_spec h.wf0 h.wf1 hjk hk hsize0 hsize1 ?_ v
      exact fun e he => mem_append.mp he
  · have hnone : d.rehashidx = none := by simpa [Dict.isRehashing] using hr
    have hentries : d.entries = d.ht0.entries := by simp [Dict.entries, h.idle hnone]
    have hs : d.ht0.table.isSome := by
      by_contra hnull
      rw [hentries, HtWf.entries_of_null (by simpa using hnull)] at hne
      exact hne rfl
    obtain ⟨k, hk, hsize0, hmask0⟩ := h.wf0.size_pow hs
    rw [if_pos (by simpa using hr), hmask0]
    refine ⟨_, (rank_mem_group v).2, bucket_end_le (show k ≤ 64 by omega) le_rfl v,
      rank_nextCursor (by omega) v, ?_⟩
    intro e he hle hlt
    rw [hentries] at he
    exact h.wf0.mem_emit hk hsize0 he (group_eq_of_rank hle hlt)

end Coverage

section Scans

variable [DecidableEq K] {hash : K → BitVec 64}

/-- Every call of the interface keeps the shape of the tables. -/
theorem Wf.step (h : Wf hash d) (call : Bool × DictOp K V) : Wf hash (dictStep hash d call).1 := by
  obtain ⟨canResize, op⟩ := call
  cases op with
  | add k raw v =>
    have hadd := h.addRaw canResize k raw
    simp only [dictStep, dictAdd]
    split <;> rename_i heq <;> rw [heq] at hadd
    · exact hadd
    · exact hadd.setVal k v
  | addRaw k raw => exact h.addRaw canResize k raw
  | replace k raw v =>
    have hadd := h.addRaw canResize k raw
    simp only [dictStep, dictReplace]
    split <;> next heq =>
      rw [heq] at hadd
      exact hadd.setVal k v
  | addOrFind k raw =>
    have hadd := h.addRaw canResize k raw
    simp only [dictStep, dictAddOrFind]
    split <;> next heq =>
      rw [heq] at hadd
      exact hadd
  | delete k =>
    have hdel := h.genericDelete k
    simp only [dictStep, dictDelete]
    split <;> next heq =>
      rw [heq] at hdel
      exact hdel
  | unlink k => exact h.genericDelete k
  | find k => exact h.find k
  | expand size => exact h.expand size
  | resize =>
    simp only [dictStep, dictResize]
    split_ifs
    · exact h
    · exact h.expand _
  | rehash n => exact h.rehash n
  | empty => exact Inv.create.toWf

theorem Wf.run (h : Wf hash d) (calls : List (Bool × DictOp K V)) :
    Wf hash (run (dictStep hash) d calls).1 :=
  run_invariant (fun _ call hd => hd.step call) h calls

/-- A full scan from cursor `v` on: calls of `dictScan`, each with the cursor
the previous one returned, until zero comes back. Any run of other calls may
lie between two of them. The list `visited` holds the dict at each of the
scan calls and `emitted` what they handed to the callback. -/
inductive FullScan (hash : K → BitVec 64) :
    Dict K V → BitVec 64 → List (Dict K V) → List (DictEntry K V) → Prop where
  | last {d : Dict K V} {v : BitVec 64} (hzero : (dictScan d v).2 = 0) :
      FullScan hash d v [d] (dictScan d v).1
  | next {d : Dict K V} {v : BitVec 64} (hcursor : (dictScan d v).2 ≠ 0)
      (calls : List (Bool × DictOp K V)) {visited : List (Dict K V)}
      {emitted : List (DictEntry K V)}
      (later : FullScan hash (Simulation.run (dictStep hash) d calls).1 (dictScan d v).2
        visited emitted) :
      FullScan hash d v (d :: visited) ((dictScan d v).1 ++ emitted)

/-- From cursor `v` on, a scan emits every stable key whose hash ranks at or
above the cursor. -/
theorem FullScan.emits {v : BitVec 64} {visited : List (Dict K V)} {emitted : List (DictEntry K V)}
    (scan : FullScan hash d v visited emitted) (h : Wf hash d) {k : K}
    (hstable : ∀ s ∈ visited, (s.toMap k).isSome) (hrank : rank v ≤ rank (hash k)) :
    ∃ e ∈ emitted, e.key = k := by
  have present : ∀ s : Dict K V, (s.toMap k).isSome → ∃ e ∈ s.entries, e.key = k := by
    intro s hs
    obtain ⟨w, hw⟩ := Option.isSome_iff_exists.mp hs
    exact ⟨_, lookup_some (mapOf_some.mp hw)⟩
  induction scan with
  | @last d v hzero =>
    obtain ⟨e, he, rfl⟩ := present d (hstable d (by simp))
    obtain ⟨bound, hlt, hle, hnext, hemit⟩ := dictScan_covers h (ne_nil_of_mem he) v
    -- the cursor only returns to zero past the last hash
    have hbound : bound = 2 ^ 64 := by
      have hmod : bound % 2 ^ 64 = 0 := by
        rw [← hnext, hzero]
        exact rank_zero
      omega
    exact ⟨e, hemit e he hrank (hbound ▸ rank_lt _), rfl⟩
  | @next d v hcursor calls visited emitted later ih =>
    obtain ⟨e, he, rfl⟩ := present d (hstable d (by simp))
    obtain ⟨bound, hlt, hle, hnext, hemit⟩ := dictScan_covers h (ne_nil_of_mem he) v
    rcases lt_or_ge (rank (hash e.key)) bound with hin | hout
    · exact ⟨e, mem_append_left _ (hemit e he hrank hin), rfl⟩
    · obtain ⟨e', he', hk⟩ := ih (h.run calls)
        (fun s hs => hstable s (mem_cons_of_mem _ hs)) (by omega)
      exact ⟨e', mem_append_right _ he', hk⟩

/-- A scan from cursor 0 misses no key that stays in the dict, whatever calls
built the dict and whatever calls come between the calls of the scan. -/
theorem dictScan_misses_no_stable_key (hash : K → BitVec 64)
    (calls : List (Bool × DictOp K V)) {visited : List (Dict K V)} {emitted : List (DictEntry K V)}
    (scan : FullScan hash (run (dictStep hash) dictCreate calls).1 0 visited emitted) {k : K}
    (hstable : ∀ s ∈ visited, (s.toMap k).isSome) : ∃ e ∈ emitted, e.key = k :=
  scan.emits (Inv.create.toWf.run calls) hstable (by simp)

/-- A scan of a table of four buckets that starts to grow after the first call. -/
theorem dictScan_misses_no_stable_key_growing :
    ∃ visited emitted,
      FullScan (BitVec.ofNat 64)
        (run (dictStep (BitVec.ofNat 64)) (dictCreate : Dict Nat Nat)
          [(true, .add 0 0 10), (true, .add 1 0 11), (true, .add 6 0 16)]).1 0 visited emitted ∧
      (∀ s ∈ visited, (s.toMap 1).isSome) ∧ ∃ e ∈ emitted, e.key = 1 := by
  have scan : FullScan (BitVec.ofNat 64)
      (run (dictStep (BitVec.ofNat 64)) (dictCreate : Dict Nat Nat)
        [(true, .add 0 0 10), (true, .add 1 0 11), (true, .add 6 0 16)]).1 0 _ _ :=
    .next (by decide) [(true, .expand 8), (true, .rehash 1)]
      (.next (by decide) [] (.next (by decide) [(true, .delete 6)] (.last (by decide))))
  refine ⟨_, _, scan, ?_, dictScan_misses_no_stable_key _ _ scan ?_⟩ <;> decide

end Scans

end Redis.Dictionary
