import Redis.Dictionary.Rehash

/-! One specification for each lookup and update of `dict.c`, stated on the
entries linked in the two tables. The order of the entries is immaterial, so
every statement is up to permutation. -/
namespace Redis.Dictionary

open List Option

variable {K V : Type} [DecidableEq K] {hash : K → BitVec 64}
variable {k : K} {e : DictEntry K V} {d : Dict K V} {ht : DictHt K V} {c : Chain K V} {v : V}

section Chains

theorem lookup_some {c : List (DictEntry K V)} (h : Chain.lookup k c = some e) :
    e ∈ c ∧ e.key = k := by
  refine ⟨mem_of_find?_eq_some h, ?_⟩
  simpa using find?_some h

theorem lookup_none_iff {c : List (DictEntry K V)} :
    Chain.lookup k c = none ↔ ∀ e ∈ c, e.key ≠ k := by
  simp [Chain.lookup]

theorem lookup_append (k : K) (c c' : List (DictEntry K V)) :
    Chain.lookup k (c ++ c') = (Chain.lookup k c).or (Chain.lookup k c') := by
  simp [Chain.lookup, find?_append]

/-- Without repeated keys a lookup finds the one entry with its key. -/
theorem lookup_eq_some_iff {c : List (DictEntry K V)} (hn : (c.map DictEntry.key).Nodup) :
    Chain.lookup k c = some e ↔ e ∈ c ∧ e.key = k := by
  constructor
  · exact lookup_some
  · rintro ⟨he, rfl⟩
    cases hl : Chain.lookup e.key c with
    | none => exact absurd rfl (lookup_none_iff.mp hl e he)
    | some e' =>
      obtain ⟨he', hk⟩ := lookup_some hl
      rw [inj_on_of_nodup_map hn he' he hk]

theorem lookup_perm {c c' : List (DictEntry K V)} (hn : (c.map DictEntry.key).Nodup)
    (hp : c.Perm c') : Chain.lookup k c = Chain.lookup k c' := by
  have hn' : (c'.map DictEntry.key).Nodup := (hp.map _).nodup_iff.mp hn
  apply ext
  intro e
  rw [lookup_eq_some_iff hn, lookup_eq_some_iff hn', hp.mem_iff]

section

variable (h : Chain.lookup k c = some e)
include h

/-- A found entry splits off; deleting keeps the rest and storing a value
only changes the entry itself. -/
theorem lookup_split : ∃ s t, c = s ++ e :: t ∧ Chain.unlink k c = s ++ t ∧
      ∀ v, Chain.setVal k v c = s ++ { key := k, val := v } :: t := by
  induction c with
  | nil => simp [Chain.lookup] at h
  | cons a c ih =>
    by_cases ha : a.key = k
    · obtain rfl : a = e := by simpa [Chain.lookup, ha] using h
      exact ⟨[], c, rfl, by simp [Chain.unlink, ha], fun v => by simp [Chain.setVal, ha]⟩
    · obtain ⟨s, t, rfl, hu, hv⟩ := ih (by simpa [Chain.lookup, ha] using h)
      refine ⟨a :: s, t, rfl, by simpa [Chain.unlink, ha] using hu, fun v => ?_⟩
      rw [Chain.setVal, if_neg ha, hv, cons_append]

theorem unlink_perm : c.Perm (e :: Chain.unlink k c) := by
  obtain ⟨s, t, rfl, hu, -⟩ := lookup_split h
  exact hu ▸ perm_middle

theorem setVal_perm : (Chain.setVal k v c).Perm ({ key := k, val := v } :: Chain.unlink k c) := by
  obtain ⟨s, t, rfl, hu, hv⟩ := lookup_split h
  rw [hu, hv]
  exact perm_middle

end

theorem mem_unlink (h : e ∈ Chain.unlink k c) : e ∈ c :=
  mem_of_mem_eraseP h

theorem key_of_mem_setVal (h : e ∈ Chain.setVal k v c) : ∃ e' ∈ c, e'.key = e.key := by
  induction c with
  | nil => simp [Chain.setVal] at h
  | cons a c ih =>
    rw [Chain.setVal] at h
    split_ifs at h with ha
    · rcases mem_cons.mp h with rfl | h
      · exact ⟨a, mem_cons_self, rfl⟩
      · exact ⟨e, mem_cons_of_mem _ h, rfl⟩
    · rcases mem_cons.mp h with rfl | h
      · exact ⟨e, mem_cons_self, rfl⟩
      · obtain ⟨e', he', hk⟩ := ih h
        exact ⟨e', mem_cons_of_mem _ he', hk⟩

theorem setVal_length (k : K) (v : V) (c : Chain K V) :
    (Chain.setVal k v c).length = c.length := by
  induction c with
  | nil => rfl
  | cons a c ih =>
    rw [Chain.setVal]
    split_ifs <;> simp [ih]

end Chains

section Tables

/-- Searching one bucket is searching the whole table. -/
theorem HtWf.lookup_bucket (h : HtWf hash ht) (hn : (ht.entries.map DictEntry.key).Nodup) (k : K) :
    Chain.lookup k (ht.bucket (ht.index hash k)) = Chain.lookup k ht.entries := by
  cases hb : Chain.lookup k (ht.bucket (ht.index hash k)) with
  | some e =>
    obtain ⟨he, rfl⟩ := lookup_some hb
    exact ((lookup_eq_some_iff hn).mpr ⟨(h.mem_bucket_iff e).mp he, rfl⟩).symm
  | none =>
    symm
    rw [lookup_none_iff] at hb ⊢
    rintro e he rfl
    exact hb e ((h.mem_bucket_iff e).mpr he) rfl

theorem delete_none (hl : Chain.lookup k (ht.bucket (ht.index hash k)) = none) :
    ht.delete hash k = (ht, none) := by
  simp [DictHt.delete, hl]

section

variable (hl : Chain.lookup k (ht.bucket (ht.index hash k)) = some e)
include hl

theorem delete_some : ht.delete hash k = ((ht.setBucket (ht.index hash k)
    (Chain.unlink k (ht.bucket (ht.index hash k)))).setUsed (ht.used - 1), some e) := by
  simp [DictHt.delete, hl]

theorem delete_perm : ht.entries.Perm (e :: (ht.delete hash k).1.entries) := by
  rw [delete_some hl]
  exact (entries_rewrite_perm (lookup_some hl).1 (unlink_perm hl)
    (x := []) (List.Perm.refl _)).symm

end

theorem HtWf.delete (h : HtWf hash ht) (k : K) : HtWf hash (ht.delete hash k).1 := by
  cases hl : Chain.lookup k (ht.bucket (ht.index hash k)) with
  | none => rwa [delete_none hl]
  | some e =>
    have hp := (delete_perm hl).length_eq
    have hc := h.count
    rw [delete_some hl] at hp ⊢
    refine h.write (fun x hx => h.placed _ x (mem_unlink hx)) ?_
    simp only [entries_setUsed, length_cons] at hp
    omega

theorem HtExact.delete (h : HtExact ht) (k : K) : HtExact (ht.delete hash k).1 := by
  cases hl : Chain.lookup k (ht.bucket (ht.index hash k)) with
  | none => rwa [delete_none hl]
  | some e =>
    have hp := (delete_perm hl).length_eq
    have hu := h.used
    rw [delete_some hl] at hp ⊢
    refine ⟨by simpa using h.full, ?_⟩
    simp only [entries_setUsed, length_cons, setUsed_used] at hp ⊢
    omega

theorem delete_snd (ht : DictHt K V) (k : K) :
    (ht.delete hash k).2 = Chain.lookup k (ht.bucket (ht.index hash k)) := by
  cases hl : Chain.lookup k (ht.bucket (ht.index hash k)) with
  | none => rw [delete_none hl]
  | some e => rw [delete_some hl]

@[simp] theorem delete_isSome (ht : DictHt K V) (k : K) :
    (ht.delete hash k).1.table.isSome = ht.table.isSome := by
  cases hl : Chain.lookup k (ht.bucket (ht.index hash k)) with
  | none => rw [delete_none hl]
  | some e =>
    rw [delete_some hl]
    simp [DictHt.setUsed]

/-- Empty buckets stay empty. -/
theorem bucket_delete {j : Nat} (k : K) (hj : ht.bucket j = []) :
    (ht.delete hash k).1.bucket j = [] := by
  cases hl : Chain.lookup k (ht.bucket (ht.index hash k)) with
  | none => rwa [delete_none hl]
  | some e =>
    simp only [delete_some hl, bucket_setUsed, bucket_setBucket]
    split_ifs with hi
    · rw [hi.1, hj, Chain.unlink, eraseP_nil]
    · exact hj

theorem bucket_setVal {j : Nat} (k : K) (v : V) (hj : ht.bucket j = []) :
    (ht.setVal hash k v).bucket j = [] := by
  simp only [DictHt.setVal, bucket_setBucket]
  split_ifs with hi
  · rw [hi.1, hj, Chain.setVal]
  · exact hj

@[simp] theorem setVal_isSome (ht : DictHt K V) (k : K) (v : V) :
    (ht.setVal hash k v).table.isSome = ht.table.isSome :=
  setBucket_isSome ..

theorem HtWf.setVal (h : HtWf hash ht) (k : K) (v : V) : HtWf hash (ht.setVal hash k v) := by
  have hw := h.write (i := ht.index hash k) (u := ht.used)
    (c := Chain.setVal k v (ht.bucket (ht.index hash k))) ?_ ?_
  · exact hw
  · intro e he
    obtain ⟨e', he', hk⟩ := key_of_mem_setVal he
    have hp := h.placed _ e' he'
    rwa [DictHt.index, hk] at hp
  · by_cases hi : ht.index hash k < ht.buckets.length
    · have hp := (entries_setBucket_perm hi
        (Chain.setVal k v (ht.bucket (ht.index hash k)))).length_eq
      have hc := h.count
      simp only [length_append, setVal_length] at hp
      omega
    · rw [entries_setBucket_lost (Nat.le_of_not_lt hi)]
      exact h.count

theorem setVal_entries_perm (hl : Chain.lookup k (ht.bucket (ht.index hash k)) = some e) :
    (e :: (ht.setVal hash k v).entries).Perm ({ key := k, val := v } :: ht.entries) :=
  entries_rewrite_perm (lookup_some hl).1 (unlink_perm hl)
    (x := [{ key := k, val := v }]) (setVal_perm hl)

theorem HtExact.setVal (h : HtExact ht) (hl : Chain.lookup k (ht.bucket (ht.index hash k)) = some e) :
    HtExact (ht.setVal hash k v) where
  full := by simpa [DictHt.setVal] using h.full
  used := by
    have hp := (setVal_entries_perm (v := v) hl).length_eq
    simp only [length_cons, Nat.add_right_cancel_iff] at hp
    rw [hp]
    exact h.used

end Tables

section Dicts

variable (h : Inv hash d)
include h

/-- The search of one or two buckets finds what is linked anywhere. -/
theorem Inv.lookup_tables (k : K) : (Chain.lookup k (d.ht0.bucket (d.ht0.index hash k))).or
    (Chain.lookup k (d.ht1.bucket (d.ht1.index hash k))) = Chain.lookup k d.entries := by
  rw [h.wf0.lookup_bucket h.nodup0, h.wf1.lookup_bucket h.nodup1, Dict.entries, lookup_append]

/-- While no rehashing is in progress the second table finds nothing. -/
theorem Inv.lookup_idle (hr : d.isRehashing = false) (k : K) :
    Chain.lookup k (d.ht1.bucket (d.ht1.index hash k)) = none := by
  have hnone : d.rehashidx = none := by simpa [Dict.isRehashing] using hr
  rw [h.idle hnone]
  simp [Chain.lookup]

theorem Inv.rehashing_of_lookup (hl : Chain.lookup k (d.ht1.bucket (d.ht1.index hash k)) = some e) :
    d.isRehashing = true := by
  by_contra hidle
  rw [h.lookup_idle (Bool.eq_false_iff.mpr hidle)] at hl
  cases hl

theorem dictFind_spec (k : K) :
    Inv hash (dictFind hash d k).1 ∧ (dictFind hash d k).1.entries.Perm d.entries ∧
      (dictFind hash d k).2 = Chain.lookup k d.entries := by
  unfold dictFind
  by_cases hsize : d.dictSize = 0
  · have hnil : d.entries = [] := by
      rw [h.dictSize_eq] at hsize
      exact length_eq_zero_iff.mp hsize
    simp only [hsize, if_true]
    exact ⟨h, List.Perm.refl _, by simp [hnil, Chain.lookup]⟩
  · simp only [hsize, if_false]
    obtain ⟨hinv, hperm⟩ := h.maybeStep
    generalize (if d.isRehashing then dictRehashStep hash d else d) = d' at hinv hperm
    have hl : _ = Chain.lookup k d.entries :=
      (hinv.lookup_tables k).trans (lookup_perm hinv.nodup hperm)
    cases h0 : Chain.lookup k (d'.ht0.bucket (d'.ht0.index hash k)) with
    | some e => exact ⟨hinv, hperm, by rw [← hl, h0]; rfl⟩
    | none =>
      rw [h0, none_or] at hl
      cases hr : d'.isRehashing with
      | true => exact ⟨hinv, hperm, hl⟩
      | false => exact ⟨hinv, hperm, by rw [← hl, hinv.lookup_idle hr]; rfl⟩

/-- Linking a new entry on top of its bucket in the table that takes new keys. -/
theorem Inv.push (hs : d.ht0.table.isSome) (hnew : Chain.lookup e.key d.entries = none) :
    let d' := if d.isRehashing then { d with ht1 := d.ht1.push (d.ht1.index hash e.key) e }
      else { d with ht0 := d.ht0.push (d.ht0.index hash e.key) e }
    Inv hash d' ∧ d'.entries.Perm (e :: d.entries) := by
  have hnodup : ((e :: d.entries).map DictEntry.key).Nodup := by
    rw [map_cons, nodup_cons]
    refine ⟨?_, h.nodup⟩
    intro hmem
    obtain ⟨e', he', hk⟩ := mem_map.mp hmem
    exact lookup_none_iff.mp hnew e' he' hk
  by_cases hr : d.isRehashing
  · simp only [hr, if_true]
    have hi := h.wf1.index_lt (h.busy hr).2 e.key
    have hperm : (d.ht0.entries ++ (d.ht1.push (d.ht1.index hash e.key) e).entries).Perm
        (e :: d.entries) :=
      ((entries_push_perm (by rw [h.exact1.full]; exact hi) e).append_left _).trans
        perm_middle
    exact ⟨h.setHt1 (h.wf1.push e) (h.exact1.push hi e) (push_isSome ..)
      ((hperm.map DictEntry.key).nodup_iff.mpr hnodup) hr, hperm⟩
  · simp only [hr, Bool.false_eq_true, if_false]
    have hi := h.wf0.index_lt hs e.key
    have hperm : ((d.ht0.push (d.ht0.index hash e.key) e).entries ++ d.ht1.entries).Perm
        (e :: d.entries) :=
      (entries_push_perm (by rw [h.exact0.full]; exact hi) e).append_right _
    exact ⟨h.setHt0 (h.wf0.push e) (h.exact0.push hi e) (push_isSome ..)
      ((hperm.map DictEntry.key).nodup_iff.mpr hnodup) (fun hr' => absurd hr' hr), hperm⟩

/-- `dictAddRaw` links a fresh entry exactly when the key is not there yet. -/
theorem dictAddRaw_spec (canResize : Bool) (hs : d.entries.length ≤ 2 ^ 59) (k : K) (raw : V) :
    Inv hash (dictAddRaw hash canResize d k raw).1 ∧
      ((∃ e, Chain.lookup k d.entries = some e ∧
          (dictAddRaw hash canResize d k raw).2 = .present (some e) ∧
          (dictAddRaw hash canResize d k raw).1.entries.Perm d.entries) ∨
        (Chain.lookup k d.entries = none ∧
          (dictAddRaw hash canResize d k raw).2 = .added { key := k, val := raw } ∧
          (dictAddRaw hash canResize d k raw).1.entries.Perm
            ({ key := k, val := raw } :: d.entries))) := by
  unfold dictAddRaw dictKeyIndex
  obtain ⟨hinv, hperm⟩ := h.maybeStep
  generalize (if d.isRehashing then dictRehashStep hash d else d) = d1 at hinv hperm ⊢
  obtain ⟨hinv', hent, hok, hsome⟩ :=
    dictExpandIfNeeded_spec hinv canResize (by rw [hperm.length_eq]; exact hs)
  rcases hexp : dictExpandIfNeeded canResize d1 with ⟨d2, st⟩
  simp only [hexp] at hinv' hent hok hsome
  subst hok
  have hperm' : d2.entries.Perm d.entries := hent ▸ hperm
  have hl : _ = Chain.lookup k d.entries :=
    (hinv'.lookup_tables k).trans (lookup_perm hinv'.nodup hperm')
  have hpush := hinv'.push hsome (e := { key := k, val := raw })
  cases h0 : Chain.lookup k (d2.ht0.bucket (d2.ht0.index hash k)) with
  | some e =>
    simp only [hexp, h0]
    refine ⟨hinv', .inl ⟨e, ?_, rfl, hperm'⟩⟩
    rw [← hl, h0]
    rfl
  | none =>
    rw [h0, none_or] at hl
    cases h1 : Chain.lookup k (d2.ht1.bucket (d2.ht1.index hash k)) with
    | some e =>
      have hr := hinv'.rehashing_of_lookup h1
      simp only [hexp, h0, h1, hr, Bool.not_true, Bool.false_eq_true, if_false]
      exact ⟨hinv', .inl ⟨e, by rw [← hl, h1], rfl, hperm'⟩⟩
    | none =>
      have hnone : Chain.lookup k d2.entries = none := by
        rw [lookup_perm hinv'.nodup hperm', ← hl, h1]
      obtain ⟨hp1, hp2⟩ := hpush hnone
      cases hr : d2.isRehashing with
      | true | false =>
        simp only [hr, Bool.false_eq_true, if_true, if_false] at hp1 hp2
        simp only [hexp, h0, h1, hr, Bool.not_true, Bool.not_false, Bool.false_eq_true, if_false,
          if_true]
        exact ⟨hp1, .inr ⟨by rw [← hl, h1], trivial, hp2.trans (hperm'.cons _)⟩⟩

/-- Storing a value replaces the one entry with the key. -/
theorem dictSetVal_spec (hl : Chain.lookup k d.entries = some e) (v : V) :
    Inv hash (dictSetVal hash d k v) ∧
      ∃ rest, d.entries.Perm (e :: rest) ∧
        (dictSetVal hash d k v).entries.Perm ({ key := k, val := v } :: rest) := by
  obtain ⟨hmem, hkey⟩ := lookup_some hl
  obtain ⟨s, t, hst⟩ := append_of_mem hmem
  have hsplit : d.entries.Perm (e :: (s ++ t)) := hst ▸ perm_middle
  -- both tables give the same rewriting of the linked entries
  have key : ∀ d' : Dict K V,
      (e :: d'.entries).Perm ({ key := k, val := v } :: d.entries) →
      d'.entries.Perm ({ key := k, val := v } :: (s ++ t)) := by
    intro d' hp
    have hp' := hp.trans ((hsplit.cons _).trans (List.Perm.swap _ _ _))
    exact hp'.cons_inv
  have hnodup : ∀ d' : Dict K V,
      d'.entries.Perm ({ key := k, val := v } :: (s ++ t)) →
      (d'.entries.map DictEntry.key).Nodup := by
    intro d' hp
    have hn := (hsplit.map DictEntry.key).nodup_iff.mp h.nodup
    apply (hp.map DictEntry.key).nodup_iff.mpr
    simpa [hkey] using hn
  have hor := h.lookup_tables k
  rw [hl] at hor
  unfold dictSetVal
  cases h0 : Chain.lookup k (d.ht0.bucket (d.ht0.index hash k)) with
  | some e0 =>
    obtain rfl : e0 = e := by simpa [h0] using hor
    have hperm := key { d with ht0 := d.ht0.setVal hash k v }
      ((setVal_entries_perm (v := v) h0).append_right _)
    exact ⟨h.setHt0 (h.wf0.setVal k v) (h.exact0.setVal h0) (setVal_isSome ..)
      (hnodup _ hperm) (fun _ _ => bucket_setVal k v), s ++ t, hsplit, hperm⟩
  | none =>
    have h1 : Chain.lookup k (d.ht1.bucket (d.ht1.index hash k)) = some e := by
      simpa [h0] using hor
    have hperm := key { d with ht1 := d.ht1.setVal hash k v }
      (((setVal_entries_perm (v := v) h1).append_left d.ht0.entries
        |> perm_middle.symm.trans).trans perm_middle)
    exact ⟨h.setHt1 (h.wf1.setVal k v) (h.exact1.setVal h1) (setVal_isSome ..)
      (hnodup _ hperm) (h.rehashing_of_lookup h1), s ++ t, hsplit, hperm⟩

/-- Unlinking a found entry from the first table. -/
theorem Inv.delete0 (hd : d.ht0.delete hash k = (ht, some e)) :
    Inv hash { d with ht0 := ht } ∧ d.entries.Perm (e :: { d with ht0 := ht }.entries) := by
  obtain rfl : (d.ht0.delete hash k).1 = ht := congrArg Prod.fst hd
  have h0 := (delete_snd d.ht0 k).symm.trans (congrArg Prod.snd hd)
  have hperm := (delete_perm h0).append_right d.ht1.entries
  exact ⟨h.setHt0 (h.wf0.delete k) (h.exact0.delete k) (delete_isSome ..) (h.nodup_rest hperm)
    (fun _ _ => bucket_delete k), hperm⟩

theorem Inv.delete1 (hr : d.isRehashing) (hd : d.ht1.delete hash k = (ht, some e)) :
    Inv hash { d with ht1 := ht } ∧ d.entries.Perm (e :: { d with ht1 := ht }.entries) := by
  obtain rfl : (d.ht1.delete hash k).1 = ht := congrArg Prod.fst hd
  have h1 := (delete_snd d.ht1 k).symm.trans (congrArg Prod.snd hd)
  have hperm := ((delete_perm h1).append_left d.ht0.entries).trans perm_middle
  exact ⟨h.setHt1 (h.wf1.delete k) (h.exact1.delete k) (delete_isSome ..) (h.nodup_rest hperm) hr,
    hperm⟩

/-- A deletion takes out the one entry with the key, if there is one. -/
theorem dictGenericDelete_spec (k : K) : Inv hash (dictGenericDelete hash d k).1 ∧
    (dictGenericDelete hash d k).2 = Chain.lookup k d.entries ∧
      d.entries.Perm ((dictGenericDelete hash d k).2.toList ++
        (dictGenericDelete hash d k).1.entries) := by
  unfold dictGenericDelete
  by_cases hsize : d.ht0.used = 0 ∧ d.ht1.used = 0
  · have hnil : d.entries = [] := by
      have hlen := h.dictSize_eq
      rw [Dict.dictSize, hsize.1, hsize.2] at hlen
      exact length_eq_zero_iff.mp hlen.symm
    simp only [hsize, and_self, if_true]
    exact ⟨h, by simp [hnil, Chain.lookup], List.Perm.refl _⟩
  · simp only [hsize, if_false]
    obtain ⟨hinv, hperm⟩ := h.maybeStep
    generalize (if d.isRehashing then dictRehashStep hash d else d) = d' at hinv hperm
    have hl : _ = Chain.lookup k d.entries :=
      (hinv.lookup_tables k).trans (lookup_perm hinv.nodup hperm)
    rw [← delete_snd, ← delete_snd] at hl
    rcases hd0 : d'.ht0.delete hash k with ⟨ht, _ | e⟩
    · rw [hd0, none_or] at hl
      cases hr : d'.isRehashing with
      | true =>
        rcases hd1 : d'.ht1.delete hash k with ⟨ht, _ | e⟩
        · exact ⟨hinv, by rw [← hl, hd1]; rfl, hperm.symm⟩
        · obtain ⟨hinv', hperm'⟩ := hinv.delete1 hr hd1
          exact ⟨hinv', by rw [← hl, hd1]; rfl, hperm.symm.trans hperm'⟩
      | false =>
        rw [delete_snd, hinv.lookup_idle hr] at hl
        exact ⟨hinv, hl, hperm.symm⟩
    · obtain ⟨hinv', hperm'⟩ := hinv.delete0 hd0
      exact ⟨hinv', by rw [← hl, hd0]; rfl, hperm.symm.trans hperm'⟩

end Dicts

section Shape

/-! Every call keeps the shape of the tables, also when an allocation wrapped. -/

theorem dictKeyIndex_fst (canResize : Bool) (d : Dict K V) (k : K) :
    (dictKeyIndex hash canResize d k).1 = (dictExpandIfNeeded canResize d).1 := by
  unfold dictKeyIndex
  rcases dictExpandIfNeeded canResize d with ⟨d', st⟩
  cases st with
  | err => rfl
  | ok =>
    simp only
    split
    · rfl
    · split_ifs
      · rfl
      · split <;> rfl

/-- The free index is the bucket of the key in the table that takes new keys. -/
theorem dictKeyIndex_free {canResize : Bool} {d d' : Dict K V} {index : Nat}
    (h : dictKeyIndex hash canResize d k = (d', .free index)) :
    index = if d'.isRehashing then d'.ht1.index hash k else d'.ht0.index hash k := by
  unfold dictKeyIndex at h
  generalize dictExpandIfNeeded canResize d = r at h
  obtain ⟨d2, st⟩ := r
  cases st with
  | err => simp at h
  | ok =>
    simp only at h
    cases h0 : Chain.lookup k (d2.ht0.bucket (d2.ht0.index hash k)) with
    | some he => simp [h0] at h
    | none =>
      rw [h0] at h
      by_cases hr : d2.isRehashing
      · cases h1 : Chain.lookup k (d2.ht1.bucket (d2.ht1.index hash k)) with
        | some he => simp [hr, h1] at h
        | none =>
          obtain ⟨rfl, rfl⟩ : d2 = d' ∧ d2.ht1.index hash k = index := by
            simpa [hr, h1] using h
          rw [if_pos hr]
      · obtain ⟨rfl, rfl⟩ : d2 = d' ∧ d2.ht0.index hash k = index := by simpa [hr] using h
        rw [if_neg hr]

variable (h : Wf hash d)
include h

theorem Wf.addRaw (canResize : Bool) (k : K) (raw : V) :
    Wf hash (dictAddRaw hash canResize d k raw).1 := by
  unfold dictAddRaw
  have hstep := h.maybeStep
  generalize (if d.isRehashing then dictRehashStep hash d else d) = d1 at hstep ⊢
  have hwf := hstep.expandIfNeeded canResize
  have hfst : (dictKeyIndex hash canResize d1 k).1 = _ := dictKeyIndex_fst canResize d1 k
  rw [← hfst] at hwf
  simp only
  generalize hidx : dictKeyIndex hash canResize d1 k = res at hwf ⊢
  obtain ⟨d2, r⟩ := res
  cases r with
  | taken existing => exact hwf
  | free index =>
    obtain rfl := dictKeyIndex_free hidx
    by_cases hr : d2.isRehashing
    · simp only [hr, if_true]
      exact hwf.setHt1 (hwf.wf1.push { key := k, val := raw }) (push_isSome ..) hr
    · simp only [hr, Bool.false_eq_true, if_false]
      exact hwf.setHt0 (hwf.wf0.push { key := k, val := raw }) (push_isSome ..)

theorem Wf.setVal (k : K) (v : V) : Wf hash (dictSetVal hash d k v) := by
  unfold dictSetVal
  split_ifs
  · exact h.setHt0 (h.wf0.setVal k v) (setVal_isSome ..)
  · by_cases hr : d.isRehashing
    · exact h.setHt1 (h.wf1.setVal k v) (setVal_isSome ..) hr
    · have hidle : d.ht1 = dictReset := h.idle (by simpa [Dict.isRehashing] using hr)
      have hsame : d.ht1.setVal hash k v = d.ht1 := by rw [hidle]; rfl
      rwa [hsame]

theorem Wf.genericDelete (k : K) : Wf hash (dictGenericDelete hash d k).1 := by
  unfold dictGenericDelete
  split
  · exact h
  · have hstep := h.maybeStep
    generalize (if d.isRehashing then dictRehashStep hash d else d) = d' at hstep ⊢
    simp only
    split
    · next ht he hd =>
        obtain rfl : (d'.ht0.delete hash k).1 = ht := congrArg Prod.fst hd
        exact hstep.setHt0 (hstep.wf0.delete k) (delete_isSome ..)
    · split_ifs with hr
      · exact hstep
      · split
        · next ht he hd =>
            obtain rfl : (d'.ht1.delete hash k).1 = ht := congrArg Prod.fst hd
            exact hstep.setHt1 (hstep.wf1.delete k) (delete_isSome ..) (by simpa using hr)
        · exact hstep

theorem Wf.find (k : K) : Wf hash (dictFind hash d k).1 := by
  unfold dictFind
  split
  · exact h
  · have hstep := h.maybeStep
    generalize (if d.isRehashing then dictRehashStep hash d else d) = d' at hstep ⊢
    simp only
    split
    · exact hstep
    · split_ifs <;> exact hstep

end Shape

end Redis.Dictionary
