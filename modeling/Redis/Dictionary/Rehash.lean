import Redis.Dictionary.Table

/-! Growing, shrinking and moving buckets between the two tables. Each
operation is shown once to keep the shape of the tables, and, as long as the
allocations do not wrap, to keep the linked entries up to their order. -/
namespace Redis.Dictionary

open List Option

variable {K V : Type} {hash : K → BitVec 64}
variable {d : Dict K V} {ht : DictHt K V}

/-- The entries of both tables together. -/
def Dict.entries (d : Dict K V) : List (DictEntry K V) := d.ht0.entries ++ d.ht1.entries

/-- Shape of a reachable dict, whatever was allocated. -/
structure Wf (hash : K → BitVec 64) (d : Dict K V) : Prop where
  wf0 : HtWf hash d.ht0
  wf1 : HtWf hash d.ht1
  idle : d.rehashidx = none → d.ht1 = dictReset
  busy : d.rehashidx.isSome → d.ht0.table.isSome ∧ d.ht1.table.isSome

/-- The representation invariant of a dict whose tables are fully allocated. -/
structure Inv (hash : K → BitVec 64) (d : Dict K V) : Prop extends Wf hash d where
  exact0 : HtExact d.ht0
  exact1 : HtExact d.ht1
  nodup : (d.entries.map DictEntry.key).Nodup
  moved : ∀ i, d.rehashidx = some i → ∀ j < i, d.ht0.bucket j = []

theorem Inv.create : Inv hash (dictCreate : Dict K V) where
  wf0 := HtWf.reset
  wf1 := HtWf.reset
  idle := fun _ => rfl
  busy := by simp [dictCreate]
  exact0 := HtExact.reset
  exact1 := HtExact.reset
  nodup := by simp [Dict.entries, dictCreate]
  moved := by simp [dictCreate]

/-! Calls that change one of the two tables. -/

theorem Wf.setHt0 (h : Wf hash d) (hwf : HtWf hash ht)
    (hsome : ht.table.isSome = d.ht0.table.isSome) : Wf hash { d with ht0 := ht } :=
  ⟨hwf, h.wf1, h.idle, fun hb => ⟨hsome ▸ (h.busy hb).1, (h.busy hb).2⟩⟩

theorem Wf.setHt1 (h : Wf hash d) (hwf : HtWf hash ht)
    (hsome : ht.table.isSome = d.ht1.table.isSome) (hr : d.isRehashing) :
    Wf hash { d with ht1 := ht } := by
  refine ⟨h.wf0, hwf, fun hn => ?_, fun hb => ⟨(h.busy hb).1, hsome ▸ (h.busy hb).2⟩⟩
  rw [Dict.isRehashing, show d.rehashidx = none from hn] at hr
  cases hr

section

variable (h : Inv hash d)
include h

theorem Inv.setHt0 (hwf : HtWf hash ht) (hexact : HtExact ht)
    (hsome : ht.table.isSome = d.ht0.table.isSome)
    (hnodup : ((ht.entries ++ d.ht1.entries).map DictEntry.key).Nodup)
    (hmoved : d.isRehashing → ∀ j, d.ht0.bucket j = [] → ht.bucket j = []) :
    Inv hash { d with ht0 := ht } := by
  refine ⟨h.toWf.setHt0 hwf hsome, hexact, h.exact1, hnodup, fun i hi j hj => ?_⟩
  exact hmoved (isSome_iff_exists.mpr ⟨i, hi⟩) j (h.moved i hi j hj)

theorem Inv.setHt1 (hwf : HtWf hash ht) (hexact : HtExact ht)
    (hsome : ht.table.isSome = d.ht1.table.isSome)
    (hnodup : ((d.ht0.entries ++ ht.entries).map DictEntry.key).Nodup) (hr : d.isRehashing) :
    Inv hash { d with ht1 := ht } :=
  ⟨h.toWf.setHt1 hwf hsome hr, h.exact0, hexact, hnodup, h.moved⟩

theorem Inv.nodup_rest {e : DictEntry K V} {c : List (DictEntry K V)}
    (hperm : d.entries.Perm (e :: c)) : (c.map DictEntry.key).Nodup :=
  (nodup_cons.mp ((hperm.map DictEntry.key).nodup_iff.mp h.nodup)).2

theorem Inv.nodup0 : (d.ht0.entries.map DictEntry.key).Nodup := by
  have hn := h.nodup
  rw [Dict.entries, map_append] at hn
  exact hn.of_append_left

theorem Inv.nodup1 : (d.ht1.entries.map DictEntry.key).Nodup := by
  have hn := h.nodup
  rw [Dict.entries, map_append] at hn
  exact hn.of_append_right

theorem Inv.dictSize_eq : d.dictSize = d.entries.length := by
  rw [Dict.dictSize, h.exact0.used, h.exact1.used, Dict.entries, length_append]

end

/-- The doubling loop stops at the least power of two that is large enough. -/
theorem nextPowerLoop_spec (size : Nat) : ∀ fuel j, ∃ k, j ≤ k ∧
    nextPowerLoop size fuel (2 ^ j) = 2 ^ k ∧ (∀ m, size ≤ 2 ^ m → j ≤ m → k ≤ m) ∧
    (size ≤ 2 ^ (j + fuel) → size ≤ 2 ^ k) := by
  intro fuel
  induction fuel with
  | zero => exact fun j => ⟨j, le_refl _, rfl, fun m _ hm => hm, fun h => h⟩
  | succ fuel ih =>
    intro j
    by_cases h : 2 ^ j ≥ size
    · exact ⟨j, le_refl _, by simp [nextPowerLoop, h], fun m _ hm => hm, fun _ => h⟩
    · obtain ⟨k, hjk, hloop, hmin, hle⟩ := ih (j + 1)
      refine ⟨k, by omega, ?_, ?_, ?_⟩
      · rw [nextPowerLoop, if_neg h, ← pow_succ]
        exact hloop
      · intro m hm hjm
        have hne : j ≠ m := by
          rintro rfl
          exact h hm
        exact hmin m hm (by omega)
      · intro hs
        exact hle (by rwa [show j + 1 + fuel = j + (fuel + 1) by omega])

theorem dictNextPower_spec (size : Nat) : ∃ k, 2 ≤ k ∧ k ≤ 63 ∧ dictNextPower size = 2 ^ k ∧
    (∀ m, size ≤ 2 ^ m → 2 ≤ m → m < 63 → k ≤ m) ∧ (size ≤ 2 ^ 63 → size ≤ 2 ^ k) := by
  by_cases h : size ≥ longMax
  · refine ⟨63, by norm_num, le_refl _, ?_, ?_, fun hs => hs⟩
    · rw [dictNextPower, if_pos h]
      norm_num [longMax]
    · intro m hm _ hlt
      have hp : 2 ^ m ≤ 2 ^ 62 := Nat.pow_le_pow_right (by norm_num) (by omega)
      have hl : longMax = 2 ^ 63 - 1 := rfl
      omega
  · obtain ⟨k, hjk, hloop, hmin, hle⟩ := nextPowerLoop_spec size 64 2
    have hl : longMax = 2 ^ 63 - 1 := rfl
    refine ⟨k, hjk, hmin 63 (by omega) (by norm_num), ?_, fun m hm h2 _ => hmin m hm h2, ?_⟩
    · rw [dictNextPower, if_neg h]
      exact hloop
    · exact fun hs => hle (hs.trans (Nat.pow_le_pow_right (by norm_num) (by norm_num)))

theorem newTable_wf (size : Nat) : HtWf hash (newTable (dictNextPower size) : DictHt K V) where
  mask := rfl
  pow := by
    obtain ⟨k, _, hk, hp, _⟩ := dictNextPower_spec size
    exact .inr ⟨rfl, k, hk, hp⟩
  placed := by
    intro i e he
    simp [DictHt.bucket, DictHt.buckets, newTable, zcallocBuckets, getD_eq_getElem?_getD,
      getElem?_replicate] at he
    split_ifs at he <;> simp at he
  count := by simp [DictHt.entries, DictHt.buckets, newTable, zcallocBuckets]

@[simp] theorem newTable_entries (n : Nat) : (newTable n : DictHt K V).entries = [] := by
  simp [DictHt.entries, DictHt.buckets, newTable, zcallocBuckets]

theorem newTable_exact {size : Nat} (h : size ≤ 2 ^ 60) :
    HtExact (newTable (dictNextPower size) : DictHt K V) where
  full := by
    obtain ⟨k, _, _, hp, hmin, _⟩ := dictNextPower_spec size
    have hk : 2 ^ k ≤ 2 ^ 60 :=
      Nat.pow_le_pow_right (by norm_num) (hmin 60 h (by norm_num) (by norm_num))
    simp only [DictHt.buckets, newTable, zcallocBuckets, hp, getD_some,
      length_replicate]
    omega
  used := by rw [newTable_entries]; rfl

/-- Everything `dictExpand` can do. -/
theorem dictExpand_cases (d : Dict K V) (size : Nat) :
    dictExpand d size = (d, .err) ∧
      (d.rehashidx.isSome ∨ d.ht0.used > size ∨ dictNextPower size = d.ht0.size) ∨
    (d.rehashidx = none ∧ d.ht0.table = none ∧
      dictExpand d size = ({ d with ht0 := newTable (dictNextPower size) }, .ok)) ∨
    (d.rehashidx = none ∧ d.ht0.table.isSome ∧
      dictExpand d size =
        ({ d with ht1 := newTable (dictNextPower size), rehashidx := some 0 }, .ok)) := by
  unfold dictExpand
  by_cases hbad : d.isRehashing ∨ d.ht0.used > size
  · left
    refine ⟨by simp [hbad], ?_⟩
    rcases hbad with hr | hu
    · exact .inl hr
    · exact .inr (.inl hu)
  · rw [if_neg hbad]
    by_cases hsame : dictNextPower size = d.ht0.size
    · exact .inl ⟨by simp [hsame], .inr (.inr hsame)⟩
    · right
      have hidle : d.rehashidx = none := by
        simpa [Dict.isRehashing] using (not_or.mp hbad).1
      cases ht : d.ht0.table with
      | none => exact .inl ⟨hidle, rfl, by simp [hsame]⟩
      | some t => exact .inr ⟨hidle, rfl, by simp [hsame]⟩

theorem Wf.expand (h : Wf hash d) (size : Nat) : Wf hash (dictExpand d size).1 := by
  obtain ⟨he, _⟩ | ⟨hi, _, he⟩ | ⟨_, ht, he⟩ := dictExpand_cases d size
  · rwa [he]
  · rw [he]
    exact ⟨newTable_wf size, h.wf1, h.idle, by simp [hi]⟩
  · rw [he]
    exact ⟨h.wf0, newTable_wf size, by simp, fun _ => ⟨ht, rfl⟩⟩

/-- A table that was never allocated links nothing. -/
theorem HtWf.entries_of_null (hn : ht.table = none) : ht.entries = [] := by
  simp [DictHt.entries, DictHt.buckets, hn]

theorem dictExpand_entries (h : Wf hash d) (size : Nat) :
    (dictExpand d size).1.entries = d.entries := by
  obtain ⟨he, _⟩ | ⟨hi, hn, he⟩ | ⟨hi, ht, he⟩ := dictExpand_cases d size
  · rw [he]
  · rw [he]
    simp [Dict.entries, HtWf.entries_of_null hn]
  · rw [he]
    simp [Dict.entries, h.idle hi]

theorem Inv.expand (h : Inv hash d) {size : Nat} (hs : size ≤ 2 ^ 60) :
    Inv hash (dictExpand d size).1 := by
  have hwf := h.toWf.expand size
  have hnodup : ((dictExpand d size).1.entries.map DictEntry.key).Nodup := by
    rw [dictExpand_entries h.toWf size]
    exact h.nodup
  obtain ⟨he, _⟩ | ⟨hi, _, he⟩ | ⟨hi, _, he⟩ := dictExpand_cases d size
  · rwa [he]
  · rw [he] at hwf hnodup ⊢
    exact ⟨hwf, newTable_exact hs, h.exact1, hnodup, by simp [hi]⟩
  · rw [he] at hwf hnodup ⊢
    exact ⟨hwf, h.exact0, newTable_exact hs, hnodup, by simp⟩

/-- The new table after the links of one chain were pushed one by one. -/
def pushAll (hash : K → BitVec 64) (c : Chain K V) (ht : DictHt K V) : DictHt K V :=
  c.foldl (fun ht de => ht.push (ht.index hash de.key) de) ht

theorem moveEntries_eq (c : Chain K V) (h0 h1 : DictHt K V) :
    moveEntries hash c h0 h1 = (h0.setUsed (h0.used - c.length), pushAll hash c h1) := by
  induction c generalizing h0 h1 with
  | nil => rfl
  | cons de c ih =>
    rw [moveEntries, ih]
    simp only [pushAll, foldl_cons, length_cons, setUsed_used]
    rw [show h0.used - 1 - c.length = h0.used - (c.length + 1) by omega]
    rfl

@[simp] theorem push_isSome (ht : DictHt K V) (i : Nat) (e : DictEntry K V) :
    (ht.push i e).table.isSome = ht.table.isSome := by
  simp [DictHt.push, DictHt.setUsed]

theorem pushAll_isSome (c : Chain K V) (ht : DictHt K V) :
    (pushAll hash c ht).table.isSome = ht.table.isSome := by
  induction c generalizing ht with
  | nil => rfl
  | cons de c ih => exact (ih _).trans (push_isSome ht _ de)

theorem HtWf.pushes (h : HtWf hash ht) (c : Chain K V) : HtWf hash (pushAll hash c ht) := by
  induction c generalizing ht with
  | nil => exact h
  | cons de c ih => exact ih (h.push de)

/-- In a full table no pushed link is lost. -/
theorem HtExact.pushes (h : HtExact ht) (hw : HtWf hash ht) (hs : ht.table.isSome) (c : Chain K V) :
    HtExact (pushAll hash c ht) ∧ (pushAll hash c ht).entries.Perm (c ++ ht.entries) := by
  induction c generalizing ht with
  | nil => exact ⟨h, List.Perm.refl _⟩
  | cons de c ih =>
    have hi := hw.index_lt hs de.key
    obtain ⟨hex, hperm⟩ := ih (h.push hi de) (hw.push de) (by simpa using hs)
    refine ⟨hex, hperm.trans ?_⟩
    have hpush := entries_push_perm (by rw [h.full]; exact hi) de
    exact (hpush.append_left c).trans perm_middle

/-- The empty buckets `skipEmpty` walks over, and where it stops. -/
theorem skipEmpty_spec (l : List (Chain K V)) (idx : Nat) (emptyVisits : Int) :
    ∃ n, (skipEmpty l idx emptyVisits).1 = idx + n ∧ ∀ j < n, l.getD j [] = [] := by
  induction l generalizing idx emptyVisits with
  | nil => exact ⟨0, rfl, by simp⟩
  | cons c l ih =>
    cases c with
    | cons e c => exact ⟨0, rfl, by simp⟩
    | nil =>
      rw [skipEmpty]
      split_ifs with hv
      · refine ⟨1, rfl, fun j hj => ?_⟩
        obtain rfl : j = 0 := by omega
        rfl
      · obtain ⟨n, hn, hempty⟩ := ih (idx + 1) (emptyVisits - 1)
        refine ⟨n + 1, by rw [hn]; omega, fun j hj => ?_⟩
        cases j with
        | zero => rfl
        | succ j => exact hempty j (by omega)

theorem getD_drop_buckets (ht : DictHt K V) (idx j : Nat) :
    (ht.buckets.drop idx).getD j [] = ht.bucket (idx + j) := by
  simp [DictHt.bucket, getD_eq_getElem?_getD]

/-- Clearing one bucket takes exactly its links out of the table. -/
theorem entries_clear_perm (ht : DictHt K V) (i : Nat) :
    (ht.bucket i ++ (ht.setBucket i []).entries).Perm ht.entries := by
  by_cases hi : i < ht.buckets.length
  · exact entries_setBucket_perm hi []
  · have hl := Nat.le_of_not_lt hi
    rw [entries_setBucket_lost hl]
    simp [DictHt.bucket, getD_eq_getElem?_getD, hl]

/-- One round of the outer loop of `dictRehash` at a chosen bucket. -/
def moveBucket (hash : K → BitVec 64) (d : Dict K V) (i : Nat) : Dict K V :=
  { d with
    ht0 := (d.ht0.setBucket i []).setUsed (d.ht0.used - (d.ht0.bucket i).length)
    ht1 := pushAll hash (d.ht0.bucket i) d.ht1
    rehashidx := some (i + 1) }

section

variable {P : Dict K V → Prop}
variable (h : Wf hash d)
include h

theorem Wf.move (hr : d.rehashidx.isSome) (i : Nat) : Wf hash (moveBucket hash d i) where
  wf0 := by
    have hl := (entries_clear_perm d.ht0 i).length_eq
    have hc := h.wf0.count
    rw [length_append] at hl
    exact h.wf0.write (by simp) (by omega)
  wf1 := h.wf1.pushes _
  idle := by simp [moveBucket]
  busy := by
    intro _
    have hb := h.busy hr
    exact ⟨by simpa [moveBucket, DictHt.setUsed] using hb.1, by
      simpa [moveBucket, pushAll_isSome] using hb.2⟩

theorem Wf.setRehashidx (hr : d.rehashidx.isSome) (i : Nat) :
    Wf hash { d with rehashidx := some i } :=
  ⟨h.wf0, h.wf1, by simp, fun _ => h.busy hr⟩

theorem Wf.finish : Wf hash (rehashFinish d).1 := by
  unfold rehashFinish
  split_ifs with hu
  · exact ⟨h.wf1, HtWf.reset, fun _ => rfl, by simp⟩
  · exact h

omit h in
/-- What skipping empty buckets, moving a bucket and the last part keep, `dictRehash` keeps. -/
theorem rehash_rule
    (hskip : ∀ d idx m, P d → d.rehashidx = some idx → (∀ j < m, d.ht0.bucket (idx + j) = []) →
      P { d with rehashidx := some (idx + m) })
    (hmove : ∀ d idx m, P d → d.rehashidx = some idx → (∀ j < m, d.ht0.bucket (idx + j) = []) →
      P (moveBucket hash d (idx + m)))
    (hfinish : ∀ d, P d → P (rehashFinish d).1) (h : P d) (n : Int) :
    P (dictRehash hash d n).1 := by
  have hloop : ∀ n emptyVisits d, d.rehashidx.isSome → P d →
      P (rehashLoop hash n emptyVisits d).1 := by
    intro n
    induction n with
    | zero => exact fun _ _ _ h => h
    | succ n ih =>
      intro emptyVisits d hr h
      rw [rehashLoop]
      simp only [moveEntries_eq]
      obtain ⟨idx, hidx⟩ := isSome_iff_exists.mp hr
      -- every bucket below the one where the scan stops is empty
      obtain ⟨m, hm, hempty⟩ := skipEmpty_spec (d.ht0.buckets.drop idx) idx emptyVisits
      simp only [getD_drop_buckets] at hempty
      split_ifs with hu
      · exact h
      · simp only [hidx, getD_some]
        split
        · next i heq =>
            obtain rfl : i = idx + m := by rw [← hm, heq]
            exact hskip d idx m h hidx hempty
        · next i visits heq =>
            obtain rfl : i = idx + m := by rw [← hm, heq]
            exact ih visits _ rfl (hmove d idx m h hidx hempty)
  unfold dictRehash
  by_cases hr : d.isRehashing
  · have hrun := hloop (n % 2 ^ 32).toNat (n * 10) d hr h
    simp only [hr, Bool.not_true, Bool.false_eq_true, if_false]
    split
    · next heq => rwa [heq] at hrun
    · next heq =>
        rw [heq] at hrun
        exact hfinish _ hrun
  · simpa [hr] using h

omit h in
/-- The optional rehashing step every lookup and update begins with. -/
theorem maybeStep_rule (hrehash : ∀ d, P d → P (dictRehash hash d 1).1)
    (h : P d) : P (if d.isRehashing then dictRehashStep hash d else d) := by
  unfold dictRehashStep
  split_ifs
  · exact hrehash d h
  · exact h
  · exact h

theorem Wf.rehash (n : Int) : Wf hash (dictRehash hash d n).1 :=
  rehash_rule (fun _ _ _ h hidx _ => h.setRehashidx (by simp [hidx]) _)
    (fun _ _ _ h hidx _ => h.move (by simp [hidx]) _) (fun _ h => h.finish) h n

theorem Wf.maybeStep : Wf hash (if d.isRehashing then dictRehashStep hash d else d) :=
  maybeStep_rule (fun _ h => h.rehash 1) h

theorem Wf.expandIfNeeded (canResize : Bool) : Wf hash (dictExpandIfNeeded canResize d).1 := by
  unfold dictExpandIfNeeded
  split_ifs
  · exact h
  · exact h.expand _
  · exact h.expand _
  · exact h

end

variable (h : Inv hash d)
include h

/-- Moving one bucket only reorders the linked entries. -/
theorem Inv.move (hr : d.rehashidx.isSome) {i : Nat} (hi : ∀ j < i, d.ht0.bucket j = []) :
    Inv hash (moveBucket hash d i) ∧ (moveBucket hash d i).entries.Perm d.entries := by
  have hclear := entries_clear_perm d.ht0 i
  obtain ⟨hex1, hpush⟩ := h.exact1.pushes h.wf1 (h.busy hr).2 (d.ht0.bucket i)
  have hperm : (moveBucket hash d i).entries.Perm d.entries := by
    calc (moveBucket hash d i).entries
        = (d.ht0.setBucket i []).entries ++ (pushAll hash (d.ht0.bucket i) d.ht1).entries := rfl
      _ |>.Perm ((d.ht0.setBucket i []).entries ++ (d.ht0.bucket i ++ d.ht1.entries)) :=
          hpush.append_left _
      _ |>.Perm ((d.ht0.bucket i ++ (d.ht0.setBucket i []).entries) ++ d.ht1.entries) := by
          rw [← append_assoc]
          exact perm_append_comm.append_right _
      _ |>.Perm d.entries := hclear.append_right _
  refine ⟨⟨h.toWf.move hr i, ⟨?_, ?_⟩, hex1, ?_, ?_⟩, hperm⟩
  · simpa [moveBucket] using h.exact0.full
  · have hl := hclear.length_eq
    have hu := h.exact0.used
    rw [length_append] at hl
    change d.ht0.used - (d.ht0.bucket i).length = (d.ht0.setBucket i []).entries.length
    omega
  · exact ((hperm.map DictEntry.key).nodup_iff).mpr h.nodup
  · intro m hm j hj
    obtain rfl : i + 1 = m := by simpa [moveBucket] using hm
    change ((d.ht0.setBucket i []).setUsed _).bucket j = []
    rw [bucket_setUsed, bucket_setBucket]
    rcases eq_or_ne i j with rfl | hij
    · by_cases hlen : i < d.ht0.buckets.length
      · simp [hlen]
      · simp [DictHt.bucket, getD_eq_getElem?_getD, Nat.le_of_not_lt hlen]
    · simp only [hij, false_and, if_false]
      exact hi j (by omega)

theorem Inv.below {idx m : Nat} (hidx : d.rehashidx = some idx)
    (hempty : ∀ j < m, d.ht0.bucket (idx + j) = []) : ∀ j < idx + m, d.ht0.bucket j = [] := by
  intro j hj
  by_cases hlt : j < idx
  · exact h.moved idx hidx j hlt
  · obtain ⟨k, rfl⟩ := Nat.exists_eq_add_of_le (Nat.le_of_not_lt hlt)
    exact hempty k (by omega)

theorem Inv.finish : Inv hash (rehashFinish d).1 ∧ (rehashFinish d).1.entries = d.entries := by
  have hwf := h.toWf.finish
  unfold rehashFinish at hwf ⊢
  split_ifs at hwf ⊢ with hu
  · have hnil : d.ht0.entries = [] := by
      have hused := h.exact0.used
      rw [hu] at hused
      exact length_eq_zero_iff.mp hused.symm
    have hentries : d.ht1.entries ++ [] = d.entries := by simp [Dict.entries, hnil]
    refine ⟨⟨hwf, h.exact1, HtExact.reset, ?_, by simp⟩, hentries⟩
    change (List.map DictEntry.key (d.ht1.entries ++ [])).Nodup
    rw [hentries]
    exact h.nodup
  · exact ⟨h, rfl⟩

/-- `dictRehash` keeps the invariant and the linked entries. -/
theorem Inv.rehash (n : Int) :
    Inv hash (dictRehash hash d n).1 ∧ (dictRehash hash d n).1.entries.Perm d.entries := by
  refine rehash_rule (P := fun d' => Inv hash d' ∧ d'.entries.Perm d.entries) ?_ ?_ ?_
    ⟨h, Perm.refl _⟩ n
  · rintro d' idx m ⟨h, hperm⟩ hidx hempty
    refine ⟨⟨h.toWf.setRehashidx (by simp [hidx]) _, h.exact0, h.exact1, h.nodup, ?_⟩, hperm⟩
    intro i hi
    obtain rfl : idx + m = i := by simpa using hi
    exact h.below hidx hempty
  · rintro d' idx m ⟨h, hperm⟩ hidx hempty
    obtain ⟨hinv, hmoved⟩ := h.move (by simp [hidx]) (h.below hidx hempty)
    exact ⟨hinv, hmoved.trans hperm⟩
  · rintro d' ⟨h, hperm⟩
    obtain ⟨hinv, hentries⟩ := h.finish
    exact ⟨hinv, hentries ▸ hperm⟩

theorem Inv.maybeStep : Inv hash (if d.isRehashing then dictRehashStep hash d else d) ∧
    (if d.isRehashing then dictRehashStep hash d else d).entries.Perm d.entries :=
  maybeStep_rule (P := fun d' => Inv hash d' ∧ d'.entries.Perm d.entries)
    (fun _ h => ⟨(h.1.rehash 1).1, (h.1.rehash 1).2.trans h.2⟩) ⟨h, Perm.refl _⟩

/-- Under the bound on the number of entries the table never fails to grow,
and afterwards the table that takes new keys is allocated. -/
theorem dictExpandIfNeeded_spec (canResize : Bool) (hs : d.entries.length ≤ 2 ^ 59) :
    Inv hash (dictExpandIfNeeded canResize d).1 ∧
      (dictExpandIfNeeded canResize d).1.entries = d.entries ∧
      (dictExpandIfNeeded canResize d).2 = .ok ∧
      (dictExpandIfNeeded canResize d).1.ht0.table.isSome := by
  have hlen : d.ht0.used = d.ht0.entries.length := h.exact0.used
  have hle : d.ht0.entries.length ≤ d.entries.length := by simp [Dict.entries]
  have grow : ∀ size, ¬ d.isRehashing → size ≤ 2 ^ 60 → d.ht0.used ≤ size →
      dictNextPower size ≠ d.ht0.size → Inv hash (dictExpand d size).1 ∧
        (dictExpand d size).1.entries = d.entries ∧ (dictExpand d size).2 = .ok ∧
        (dictExpand d size).1.ht0.table.isSome := by
    intro size hr hsize hused hne
    refine ⟨h.expand hsize, dictExpand_entries h.toWf size, ?_⟩
    obtain ⟨_, hbad⟩ | ⟨_, _, he⟩ | ⟨_, ht, he⟩ := dictExpand_cases d size
    · rcases hbad with hb | hb | hb
      · exact absurd hb hr
      · omega
      · exact absurd hb hne
    · rw [he]
      exact ⟨rfl, rfl⟩
    · rw [he]
      exact ⟨rfl, ht⟩
  unfold dictExpandIfNeeded
  split_ifs with hr hz hgrow
  · exact ⟨h, rfl, rfl, (h.busy hr).1⟩
  · have hnull : d.ht0.table = none := by
      rcases h.wf0.pow with ⟨hn, _⟩ | ⟨_, k, _, hp⟩
      · exact hn
      · rw [hz] at hp
        exact absurd hp (by positivity)
    refine grow dictHtInitialSize hr (by norm_num [dictHtInitialSize]) ?_ ?_
    · rw [hlen, HtWf.entries_of_null hnull]
      exact Nat.zero_le _
    · obtain ⟨k, _, _, hp, _⟩ := dictNextPower_spec dictHtInitialSize
      rw [hp, hz]
      positivity
  · refine grow _ hr (by omega) (by omega) ?_
    obtain ⟨k, _, _, hp, _, hle⟩ := dictNextPower_spec (d.ht0.used * 2)
    have := hle (by omega)
    omega
  · refine ⟨h, rfl, rfl, ?_⟩
    rcases h.wf0.pow with ⟨_, hn⟩ | ⟨ht, _⟩
    · exact absurd hn hz
    · exact ht

end Redis.Dictionary
