import Redis.Dictionary.Basic

/-! Facts about one `dictht`: what a write to a bucket does to the entries
linked in the table, and the shape every reachable table has. -/
namespace Redis.Dictionary

open List

variable {K V : Type} {hash : K → BitVec 64}
variable {ht : DictHt K V} {i : Nat}

/-- All entries chained in a table, bucket by bucket. -/
def DictHt.entries (ht : DictHt K V) : List (DictEntry K V) := ht.buckets.flatten

section

variable (ht i) (u : Nat) (c : Chain K V) (k : K)

@[simp] theorem buckets_setBucket : (ht.setBucket i c).buckets = ht.buckets.set i c := by
  cases h : ht.table <;> simp [DictHt.buckets, DictHt.setBucket, h]

@[simp] theorem setBucket_size : (ht.setBucket i c).size = ht.size := rfl

@[simp] theorem setBucket_sizemask : (ht.setBucket i c).sizemask = ht.sizemask := rfl

@[simp] theorem setBucket_used : (ht.setBucket i c).used = ht.used := rfl

@[simp] theorem setBucket_isSome : (ht.setBucket i c).table.isSome = ht.table.isSome := by
  simp [DictHt.setBucket]

@[simp] theorem setUsed_size : (ht.setUsed u).size = ht.size := rfl

@[simp] theorem setUsed_used : (ht.setUsed u).used = u := rfl

@[simp] theorem buckets_setUsed : (ht.setUsed u).buckets = ht.buckets := rfl

@[simp] theorem bucket_setUsed : (ht.setUsed u).bucket i = ht.bucket i := rfl

@[simp] theorem entries_setUsed : (ht.setUsed u).entries = ht.entries := rfl

@[simp] theorem index_setUsed : (ht.setUsed u).index hash k = ht.index hash k := rfl

@[simp] theorem index_setBucket : (ht.setBucket i c).index hash k = ht.index hash k := rfl

theorem bucket_setBucket (j : Nat) : (ht.setBucket i c).bucket j =
      if i = j ∧ j < ht.buckets.length then c else ht.bucket j := by
  simp only [DictHt.bucket, buckets_setBucket, getD_eq_getElem?_getD, getElem?_set]
  by_cases hij : i = j
  · subst hij
    by_cases hi : i < ht.buckets.length <;> simp [hi]
  · simp [hij]

theorem mem_entries (e : DictEntry K V) : e ∈ ht.entries ↔ ∃ i, e ∈ ht.bucket i := by
  simp only [DictHt.entries, mem_flatten, DictHt.bucket]
  constructor
  · rintro ⟨c, hc, he⟩
    obtain ⟨i, hi, rfl⟩ := mem_iff_getElem.mp hc
    exact ⟨i, by simpa [getD_eq_getElem?_getD, hi] using he⟩
  · rintro ⟨i, he⟩
    by_cases hi : i < ht.buckets.length
    · refine ⟨ht.buckets[i], getElem_mem hi, ?_⟩
      simpa [getD_eq_getElem?_getD, hi] using he
    · simp [getD_eq_getElem?_getD, hi] at he

end

theorem bucket_length_of_mem {e : DictEntry K V} (he : e ∈ ht.bucket i) :
    i < ht.buckets.length := by
  by_contra hi
  simp [DictHt.bucket, getD_eq_getElem?_getD, Nat.le_of_not_lt hi] at he

@[simp] theorem dictReset_entries : (dictReset : DictHt K V).entries = [] := rfl

@[simp] theorem dictReset_bucket (i : Nat) : (dictReset : DictHt K V).bucket i = [] := by
  simp [DictHt.bucket, DictHt.buckets, dictReset]

/-- Replacing one chain by another exchanges exactly their entries. -/
theorem flatten_set_perm {α : Type} {l : List (List α)} (hi : i < l.length) (c : List α) :
    (l.getD i [] ++ (l.set i c).flatten).Perm (c ++ l.flatten) := by
  induction l generalizing i with
  | nil => simp at hi
  | cons x l ih =>
    cases i with
    | zero =>
      simp only [getD_cons_zero, set_cons_zero, flatten_cons]
      rw [← append_assoc, ← append_assoc]
      exact perm_append_comm.append_right _
    | succ i =>
      have hi' : i < l.length := by simpa using hi
      calc (l.getD i [] ++ (x ++ (l.set i c).flatten)).Perm
            (x ++ (l.getD i [] ++ (l.set i c).flatten)) := by
              rw [← append_assoc, ← append_assoc]
              exact perm_append_comm.append_right _
        _ |>.Perm (x ++ (c ++ l.flatten)) := (ih hi').append_left x
        _ |>.Perm (c ++ (x ++ l.flatten)) := by
              rw [← append_assoc, ← append_assoc]
              exact perm_append_comm.append_right _

/-- A write to an allocated bucket, as a permutation of the linked entries. -/
theorem entries_setBucket_perm (hi : i < ht.buckets.length) (c : Chain K V) :
    (ht.bucket i ++ (ht.setBucket i c).entries).Perm (c ++ ht.entries) := by
  simpa [DictHt.entries, DictHt.bucket] using flatten_set_perm hi c

/-- A write outside the allocation changes nothing. -/
theorem entries_setBucket_lost (hi : ht.buckets.length ≤ i) (c : Chain K V) :
    (ht.setBucket i c).entries = ht.entries := by
  simp [DictHt.entries, set_eq_of_length_le hi]

theorem entries_push_perm (hi : i < ht.buckets.length) (e : DictEntry K V) :
    (ht.push i e).entries.Perm (e :: ht.entries) := by
  have h := entries_setBucket_perm hi (e :: ht.bucket i)
  have h' : (ht.bucket i ++ (ht.push i e).entries).Perm (ht.bucket i ++ (e :: ht.entries)) :=
    h.trans perm_middle.symm
  exact (perm_append_left_iff _).mp h'

theorem entries_push_length_le (ht : DictHt K V) (i : Nat) (e : DictEntry K V) :
    (ht.push i e).entries.length ≤ ht.entries.length + 1 := by
  by_cases hi : i < ht.buckets.length
  · exact le_of_eq (by simpa using (entries_push_perm hi e).length_eq)
  · have h := entries_setBucket_lost (Nat.le_of_not_lt hi) (e :: ht.bucket i)
    simp [DictHt.push, h]

/-- The new contents of a table after one chain was rewritten around an
entry `e`: what replaces `e` are the entries `x`. -/
theorem entries_rewrite_perm {e : DictEntry K V} {c u x : List (DictEntry K V)}
    (he : e ∈ ht.bucket i) (hold : (ht.bucket i).Perm (e :: u)) (hnew : c.Perm (x ++ u)) :
    (e :: (ht.setBucket i c).entries).Perm (x ++ ht.entries) := by
  have hset := entries_setBucket_perm (bucket_length_of_mem he) c
  have h1 : (u ++ (e :: (ht.setBucket i c).entries)).Perm (u ++ (x ++ ht.entries)) :=
    calc (u ++ (e :: (ht.setBucket i c).entries)).Perm ((e :: u) ++ (ht.setBucket i c).entries) :=
          perm_middle
      _ |>.Perm (ht.bucket i ++ (ht.setBucket i c).entries) := (hold.symm).append_right _
      _ |>.Perm (c ++ ht.entries) := hset
      _ |>.Perm ((x ++ u) ++ ht.entries) := hnew.append_right _
      _ |>.Perm (u ++ (x ++ ht.entries)) := by
          rw [← append_assoc]
          exact perm_append_comm.append_right _
  exact (perm_append_left_iff _).mp h1

/-- The part of the representation invariant that no operation can break,
even one whose allocation wrapped: sizes and masks fit together, every linked
entry is in the bucket of its hash, and `used` does not undercount. -/
structure HtWf (hash : K → BitVec 64) (ht : DictHt K V) : Prop where
  mask : ht.sizemask = ht.size - 1
  pow : (ht.table = none ∧ ht.size = 0) ∨ (ht.table.isSome ∧ ∃ k ≤ 63, ht.size = 2 ^ k)
  placed : ∀ i, ∀ e ∈ ht.bucket i, ht.index hash e.key = i
  count : ht.entries.length ≤ ht.used

/-- The part that needs a full allocation. -/
structure HtExact (ht : DictHt K V) : Prop where
  full : ht.buckets.length = ht.size
  used : ht.used = ht.entries.length

theorem HtWf.reset : HtWf hash (dictReset : DictHt K V) where
  mask := rfl
  pow := .inl ⟨rfl, rfl⟩
  placed := by simp
  count := by simp

theorem HtExact.reset : HtExact (dictReset : DictHt K V) where
  full := rfl
  used := rfl

variable (h : HtWf hash ht)
include h

theorem HtWf.index_lt (hs : ht.table.isSome) (k : K) : ht.index hash k < ht.size := by
  rcases h.pow with ⟨hn, _⟩ | ⟨_, n, _, hp⟩
  · simp [hn] at hs
  · rw [DictHt.index, h.mask, hp, Nat.and_two_pow_sub_one_eq_mod]
    exact Nat.mod_lt _ (by positivity)

/-- Rewriting a bucket with entries that belong there keeps the shape. -/
theorem HtWf.write {i u : Nat} {c : Chain K V}
    (hc : ∀ e ∈ c, ht.index hash e.key = i) (hu : (ht.setBucket i c).entries.length ≤ u) :
    HtWf hash ((ht.setBucket i c).setUsed u) where
  mask := h.mask
  pow := by simpa [DictHt.setBucket, DictHt.setUsed] using h.pow
  placed := by
    intro j e he
    simp only [bucket_setUsed, bucket_setBucket] at he
    split_ifs at he with hj
    · exact (hc e he).trans hj.1
    · exact h.placed j e he
  count := hu

theorem HtWf.push (e : DictEntry K V) : HtWf hash (ht.push (ht.index hash e.key) e) := by
  refine h.write (fun x hx => ?_) ?_
  · rcases mem_cons.mp hx with rfl | hx
    · rfl
    · exact h.placed _ x hx
  · have hl := entries_push_length_le ht (ht.index hash e.key) e
    have hcount := h.count
    simp only [DictHt.push, entries_setUsed] at hl
    omega

omit h in
theorem HtExact.push (h : HtExact ht) (hi : i < ht.size) (e : DictEntry K V) :
    HtExact (ht.push i e) where
  full := by simpa [DictHt.push] using h.full
  used := by
    have hp := (entries_push_perm (by rw [h.full]; exact hi) e).length_eq
    rw [hp]
    simp [DictHt.push, h.used]

/-- A bucket read is a read of the linked entries: the entries with a given
key are exactly those in the bucket the key hashes to. -/
theorem HtWf.mem_bucket_iff (e : DictEntry K V) :
    e ∈ ht.bucket (ht.index hash e.key) ↔ e ∈ ht.entries := by
  rw [mem_entries]
  constructor
  · exact fun he => ⟨_, he⟩
  · rintro ⟨i, he⟩
    have hi := h.placed i e he
    rwa [hi]

end Redis.Dictionary
