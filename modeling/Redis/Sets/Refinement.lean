import Redis.Sets.Algebra

/-! The set commands refine finite-set algebra, whatever the encodings. -/
namespace Redis.Sets

open ByteBuffer Util Intsets List

variable {qsort : Qsort} {cfg : Config} {db : Db} {ref : Reference.Db}

/-- One command. -/
theorem execute_agrees (cmd : Command) (hdb : DbValid db) (hfits : Fits cfg db cmd) :
    Agrees (execute qsort cfg db cmd) (Reference.step (abstract db) cmd) := by
  cases cmd with
  | sadd key value rest => exact sadd_agrees hdb hfits
  | srem key values => exact srem_agrees hdb values
  | smove src dst ele => exact smove_agrees hdb hfits
  | sismember key value => exact sismember_agrees hdb value
  | scard key => exact scard_agrees hdb
  | sinter key rest dst => exact sinter_agrees hdb hfits
  | sunion key rest dst => exact sunion_agrees hdb hfits
  | sdiff key rest dst => exact sdiff_agrees hdb hfits

/-- A keyspace without sets; `others` are the keys of other values. -/
def initialDb (others : Bytes → Bool) : Db := fun key => if others key then some .other else none

/-- Runs of commands, each under the settings of its time, next to those on finite sets. -/
inductive Reachable : Db → Reference.Db → Prop where
  | initial (others : Bytes → Bool) : Reachable (initialDb others) (abstract (initialDb others))
  | step {qsort : Qsort} {cfg : Config} {db db' : Db} {ref : Reference.Db} {cmd : Command}
      {reply : Reply} (hreach : Reachable db ref) (hfits : Fits cfg db cmd)
      (hexec : execute qsort cfg db cmd = some (db', reply)) :
      Reachable db' (Reference.step ref cmd).1

theorem Reachable.represents (h : Reachable db ref) : DbValid db ∧ abstract db = ref := by
  induction h with
  | initial others =>
    refine ⟨fun key s hkey => ?_, rfl⟩
    rw [initialDb] at hkey
    split_ifs at hkey
    cases hkey
  | step hreach hfits hexec ih =>
    obtain ⟨hdb, rfl⟩ := ih
    obtain ⟨db', reply, hexec', hvalid, habstract, -⟩ := execute_agrees _ hdb hfits
    rw [hexec] at hexec'
    cases hexec'
    exact ⟨hvalid, habstract⟩

/-- After every run, the keyspace holds the sets that the same commands on finite sets give, every
command goes through and replies as on finite sets, and the two algorithms for differences give
the same set with the same count. -/
theorem sets_refine_finsets (h : Reachable db ref) (qsort : Qsort) (cfg : Config) :
    abstract db = ref ∧
    (∀ cmd, Fits cfg db cmd → ∃ db' reply, execute qsort cfg db cmd = some (db', reply) ∧
      abstract db' = (Reference.step ref cmd).1 ∧ (Reference.step ref cmd).2.Accepts reply) ∧
    ∀ first others, IsSource db first → AreSources db others →
      min (cfg.setMaxIntsetEntries + 1) first.2.members.card < 2 ^ 29 →
      first.2.members.card < 2 ^ 31 →
      ∃ s₁ s₂ n, diffAlgorithm1 cfg first
          (qsort.sort qsortCompareSetsByRevCardinality others) = some (s₁, n) ∧
        diffAlgorithm2 cfg first others = some (s₂, n) ∧ s₁.members = s₂.members := by
  obtain ⟨hdb, rfl⟩ := h.represents
  refine ⟨rfl, fun cmd hfits => ?_, fun first others hfirst hothers hroom hsmall => ?_⟩
  · obtain ⟨db', reply, hexec, _, habstract, haccepts⟩ := execute_agrees cmd hdb hfits
    exact ⟨db', reply, hexec, habstract, haccepts⟩
  · have hperm := qsort.perm qsortCompareSetsByRevCardinality others
    have hsorted : AreSources db (qsort.sort qsortCompareSetsByRevCardinality others) :=
      fun src hsrc => hothers src (hperm.mem_iff.mp hsrc)
    obtain ⟨s₁, hone, _, hmembers₁⟩ := diffAlgorithm1_spec hdb hfirst hsorted hroom
    obtain ⟨s₂, htwo, _, hmembers₂⟩ := diffAlgorithm2_spec hdb hfirst hothers hroom hsmall
    rw [allMembers_perm hperm, ← hmembers₂] at hmembers₁
    have hle : s₂.members.card ≤ first.2.members.card := by
      rw [hmembers₂]
      exact Finset.card_le_card Finset.sdiff_subset
    rw [hmembers₁, cInt_of_lt (by omega)] at hone
    exact ⟨s₁, s₂, _, hone, htwo, hmembers₁⟩

/-- A sort that leaves everything in its place. -/
def unsorted : Qsort := ⟨fun _ l => l, fun _ l => List.Perm.refl l⟩

/-- After `SADD j a` and `SADD k 1`: a set in each encoding. -/
def twoSets : Db := setSet (setSet (initialDb fun _ => false) [106] (.ht [[97]])) [107]
  (.intset ⟨2, 1, [1, 0]⟩)

theorem reachable_twoSets : Reachable twoSets (abstract twoSets) := by
  have hfirst := @Reachable.step unsorted ⟨512⟩ _ (setSet _ [106] (.ht [[97]])) _
    (.sadd [106] [97] []) (.integer 1) (.initial fun _ => false)
    ⟨nofun, fun _ hwidth => absurd rfl hwidth⟩ rfl
  have hsecond := @Reachable.step unsorted ⟨512⟩ _ twoSets _ (.sadd [107] [49] []) (.integer 1)
    hfirst ⟨nofun, fun _ _ => by decide⟩ rfl
  exact hsecond.represents.2 ▸ hsecond

/-- The last member of a hash table is moved into an intset. -/
theorem sets_refine_finsets_smove :
    ∃ db' reply, execute unsorted ⟨512⟩ twoSets (.smove [106] [107] [97]) = some (db', reply) ∧
      abstract db' = (Reference.step (abstract twoSets) (.smove [106] [107] [97])).1 ∧
      (Reference.step (abstract twoSets) (.smove [106] [107] [97])).2.Accepts reply := by
  refine (sets_refine_finsets reachable_twoSets unsorted ⟨512⟩).2.1 _ ?_
  rintro s ⟨⟩ -
  decide

/-! ### A union of `2^31` members -/

section Large

variable {n : Nat}

/-- The texts of the first numbers. -/
def numbers (n : Nat) : Finset Bytes := ((List.range n).map fun i : Nat => ll2string i).toFinset

theorem number_not_mem (hn : n ≤ 2 ^ 31) : ll2string (n : Int) ∉ numbers n := by
  rw [numbers, mem_toFinset, mem_map]
  rintro ⟨i, hi, heq⟩
  have hlt := mem_range.mp hi
  have hfits : ∀ m : Nat, m ≤ 2 ^ 31 → Intsets.Fits 8 (m : Int) := fun m hm =>
    fits_eight.mpr ⟨by omega, by omega⟩
  have hi' := string2ll_text (hfits i (by omega))
  rw [heq, string2ll_text (hfits n hn)] at hi'
  have hsame := Option.some.inj hi'
  omega

theorem numbers_succ (n : Nat) : numbers (n + 1) = insert (ll2string (n : Int)) (numbers n) := by
  rw [numbers, numbers, range_succ, map_append, toFinset_append]
  ext x
  simp

theorem numbers_card (hn : n ≤ 2 ^ 31) : (numbers n).card = n := by
  induction n with
  | zero => rfl
  | succ n ih =>
    rw [numbers_succ, Finset.card_insert_of_notMem (number_not_mem (by omega)), ih (by omega)]

/-- A set that is still an intset after an addition is not larger than the configured limit. -/
theorem size_le_of_added {s s' : SetObject} (h : Valid s) {value : Bytes}
    (hnew : value ∉ s.members) (hadd : setTypeAdd cfg s value = some (s', true))
    (hintset : s'.width ≠ none) : setTypeSize s' ≤ cfg.setMaxIntsetEntries := by
  obtain ⟨l, hl⟩ := h
  obtain ⟨_, hroom, hfull⟩ := hl.add cfg value
  have hnot : value ∉ l := by rwa [hl.members, mem_toFinset] at hnew
  by_cases hfits : Room s l.length value
  · obtain ⟨s'', l', hadd', hrep, hperm, hwidth⟩ := hroom hnot hfits
    rw [hadd] at hadd'
    cases hadd'
    rw [hwidth, grownWidth] at hintset
    split_ifs at hintset with hfew
    · rw [hrep.size, hperm.length_eq, length_cons]
      exact hfew
    · exact absurd rfl hintset
  · rw [hfull hnot hfits] at hadd
    cases hadd

/-- The key has the first numbers, and an intset is not larger than the default limit. -/
def HasNumbers (db : Db) (n : Nat) : Prop :=
  (n = 0 ∧ db [107] = none) ∨ ∃ s, db [107] = some (.set s) ∧ s.members = numbers n ∧
    (s.width ≠ none → setTypeSize s ≤ 512)

/-- The next number is added. -/
theorem sadd_number (hreach : Reachable db ref) (hn : n < 2 ^ 31)
    (hnumbers : HasNumbers db n) : ∃ db' ref', Reachable db' ref' ∧ HasNumbers db' (n + 1) := by
  obtain ⟨hdb, _⟩ := hreach.represents
  obtain ⟨s, hvalid, hmembers, hsize, hcommand⟩ : ∃ s, Valid s ∧ s.members = numbers n ∧
      (s.width ≠ none → setTypeSize s ≤ 512) ∧
      Fits ⟨512⟩ db (.sadd [107] (ll2string n) []) ∧
      execute unsorted ⟨512⟩ db (.sadd [107] (ll2string n) []) =
        (saddLoop ⟨512⟩ [ll2string n] s 0).bind fun r =>
          some (setSet db [107] r.1, .integer r.2) := by
    rcases hnumbers with ⟨rfl, hnone⟩ | ⟨s, hkey, hmembers, hsize⟩
    · obtain ⟨hvalid, hempty⟩ := valid_setTypeCreate (ll2string ((0 : Nat) : Int))
      refine ⟨_, hvalid, hempty, fun _ => ?_, ⟨fun s hs => ?_, fun _ _ => by decide⟩, ?_⟩
      · decide
      · rw [hnone] at hs
        cases hs
      · rw [execute, saddCommand, hnone]
        rfl
    · refine ⟨s, (hdb _ s hkey).1, hmembers, hsize, ⟨fun s' hs' hwidth => ?_, fun hnone => ?_⟩, ?_⟩
      · rw [hkey] at hs'
        cases hs'
        have hle := hsize hwidth
        dsimp only
        omega
      · rw [hkey] at hnone
        cases hnone
      · rw [execute, saddCommand, hkey]
        rfl
  have hnew : ll2string (n : Int) ∉ s.members := by
    rw [hmembers]
    exact number_not_mem hn.le
  have hgrows : Grows ⟨512⟩ s (setTypeSize s + 1) := by
    intro hwidth
    have hle := hsize hwidth
    omega
  have hcard : (insert (ll2string (n : Int)) s.members).card ≤ setTypeSize s + 1 := by
    rw [hvalid.size]
    exact Finset.card_insert_le _ _
  obtain ⟨s', hadd, hvalid', hmembers', _⟩ := hvalid.add hgrows hcard
  rw [decide_eq_true hnew] at hadd
  have hexec : execute unsorted ⟨512⟩ db (.sadd [107] (ll2string n) []) =
      some (setSet db [107] s', .integer 1) := by
    rw [hcommand.2]
    simp [saddLoop, hadd]
  refine ⟨_, _, hreach.step hcommand.1 hexec, .inr ⟨s', by simp [setSet], ?_, ?_⟩⟩
  · rw [hmembers', hmembers, numbers_succ]
  · exact fun hwidth => size_le_of_added hvalid hnew hadd hwidth

theorem reachable_numbers (hn : n ≤ 2 ^ 31) :
    ∃ db ref, Reachable db ref ∧ HasNumbers db n := by
  induction n with
  | zero => exact ⟨_, _, .initial fun _ => false, .inl ⟨rfl, rfl⟩⟩
  | succ n ih =>
    obtain ⟨db, ref, hreach, hnumbers⟩ := ih (by omega)
    exact sadd_number hreach (by omega) hnumbers

end Large

/-- No sequence of set commands leaves an empty set behind. -/
theorem stored_sets_nonempty (h : Reachable db ref) {key : Bytes} {s : SetObject}
    (hkey : db key = some (.set s)) : setTypeSize s ≠ 0 := by
  obtain ⟨hvalid, hne⟩ := h.represents.1 key s hkey
  rw [hvalid.size]
  exact mt Finset.card_eq_zero.mp hne

/-- The last member of one of two sets is removed. -/
theorem stored_sets_nonempty_srem : ∃ db ref s, Reachable db ref ∧ db [106] = none ∧
    db [107] = some (.set s) ∧ setTypeSize s ≠ 0 := by
  have hreach := @Reachable.step unsorted ⟨512⟩ _ (dbDelete twoSets [106]) _ (.srem [106] [[97]])
    (.integer 1) reachable_twoSets trivial rfl
  have hkey : dbDelete twoSets [106] [107] = some (.set (.intset ⟨2, 1, [1, 0]⟩)) := rfl
  exact ⟨_, _, _, hreach, rfl, hkey, stored_sets_nonempty hreach hkey⟩

/-- A set with `2^31` members can be built, and its union with nothing else is announced with a
negative length. -/
theorem large_union_announced_negative : ∃ db ref, Reachable db ref ∧
    ¬ ∃ db' reply, execute unsorted ⟨512⟩ db (.sunion [107] [] none) = some (db', reply) ∧
      abstract db' = (Reference.step ref (.sunion [107] [] none)).1 ∧
      (Reference.step ref (.sunion [107] [] none)).2.Accepts reply := by
  obtain ⟨db, ref, hreach, hnumbers⟩ := reachable_numbers (n := 2 ^ 31) le_rfl
  obtain ⟨hdb, rfl⟩ := hreach.represents
  rcases hnumbers with ⟨hzero, _⟩ | ⟨s, hkey, hmembers, _⟩
  · cases hzero
  refine ⟨db, abstract db, hreach, ?_⟩
  rintro ⟨db', reply, hexec, _, haccepts⟩
  have hcard : s.members.card = 2 ^ 31 := by rw [hmembers, numbers_card le_rfl]
  have hsources : sunionDiffSources db [[107]] = some [some ([107], s)] := by
    simp [sunionDiffSources, hkey]
  have hunion : allMembers [some ([107], s)] = s.members := by
    rw [allMembers_some, allMembers_nil, Finset.union_empty]
  obtain ⟨hvalid, hempty⟩ := valid_createIntsetObject
  have hgrows : Grows ⟨512⟩ createIntsetObject (2 ^ 31) := grows_createIntsetObject (by decide)
  obtain ⟨s', hloop, hs', hmembers'⟩ := unionLoop_spec hdb
    (isSource_of_sunionDiffSources hsources) hvalid hgrows
    (by rw [hunion, hempty, Finset.empty_union, hcard])
  obtain ⟨elements, hcollect, _⟩ := hs'.listing
  rw [hunion, hempty, Finset.empty_union] at hmembers'
  rw [hempty, Finset.card_empty] at hloop
  have hresult : sunionDiffResult unsorted ⟨512⟩ .union [some ([107], s)] =
      some (s', cInt s'.members.card) := hloop
  simp only [execute, sunionDiffGenericCommand, hsources, hresult, sunionDiffReply, hcollect,
    Option.bind_eq_bind, Option.bind_some, Option.some.injEq, Prod.mk.injEq] at hexec
  rw [Reference.step, sources_abstract, hsources] at haccepts
  obtain ⟨elements', hreply, _⟩ := haccepts
  rw [← allMembers, hunion, ← hexec.2, hmembers', hcard] at hreply
  cases hreply

end Redis.Sets
