import Redis.Sets.Members

/-! Finite-set algebra as the reference for the set commands, and the commands on single
sets. -/
namespace Redis.Sets

open ByteBuffer Util Intsets Shared List Function Finset

variable {value : Bytes} {values : List Bytes}

inductive Command where
  | sadd (key value : Bytes) (rest : List Bytes)
  | srem (key : Bytes) (values : List Bytes)
  | smove (src dst ele : Bytes)
  | sismember (key value : Bytes)
  | scard (key : Bytes)
  | sinter (key : Bytes) (rest : List Bytes) (dst : Option Bytes)
  | sunion (key : Bytes) (rest : List Bytes) (dst : Option Bytes)
  | sdiff (key : Bytes) (rest : List Bytes) (dst : Option Bytes)

def execute (qsort : Qsort) (cfg : Config) (db : Db) : Command → Option (Db × Reply)
  | .sadd key value rest => saddCommand cfg db key value rest
  | .srem key values => sremCommand db key values
  | .smove src dst ele => smoveCommand cfg db src dst ele
  | .sismember key value => sismemberCommand db key value
  | .scard key => scardCommand db key
  | .sinter key rest dst => sinterGenericCommand qsort cfg db (key :: rest) dst
  | .sunion key rest dst => sunionDiffGenericCommand qsort cfg db (key :: rest) dst .union
  | .sdiff key rest dst => sunionDiffGenericCommand qsort cfg db (key :: rest) dst .diff

namespace Reference

/-- A value of the keyspace: a finite set, or a value of another type. -/
inductive Value where
  | set (s : Finset Bytes)
  | other

abbrev Db : Type := Bytes → Option Value

/-- The reply to a command, or a list of all members in any order. -/
inductive Expected where
  | exactly (r : Reply)
  | listing (s : Finset Bytes)

def Expected.Accepts : Expected → Reply → Prop
  | .exactly r, reply => reply = r
  | .listing s, reply => ∃ elements, reply = .members (s.card : Nat) elements ∧ elements.Nodup ∧
      elements.toFinset = s

/-- The set at a key, which is empty if there is none. -/
def onSet (db : Db) (key : Bytes) (f : Finset Bytes → Db × Expected) : Db × Expected :=
  match db key with
  | none => f ∅
  | some (.set s) => f s
  | some .other => (db, .exactly (.error wrongtypeerr))

/-- A key with an empty set does not exist. -/
def store (db : Db) (key : Bytes) (s : Finset Bytes) : Db :=
  Function.update db key (if s = ∅ then none else some (.set s))

/-- A result is replied or stored. -/
def answer (db : Db) (s : Finset Bytes) : Option Bytes → Db × Expected
  | none => (db, .listing s)
  | some dst => (store db dst s, .exactly (.integer s.card))

/-- The sets that are intersected, up to the first key that does not exist or is no set. -/
def interSources (db : Db) : List Bytes → Except Early (List (Finset Bytes))
  | [] => .ok []
  | key :: rest =>
    match db key with
    | none => .error .missing
    | some .other => .error .wrongType
    | some (.set s) => (interSources db rest).map (s :: ·)

/-- The sets of a union or a difference. -/
def sources (db : Db) : List Bytes → Option (List (Finset Bytes))
  | [] => some []
  | key :: rest =>
    match db key with
    | none => (sources db rest).map (∅ :: ·)
    | some .other => none
    | some (.set s) => (sources db rest).map (s :: ·)

def inter : List (Finset Bytes) → Finset Bytes
  | [] => ∅
  | s :: rest => rest.foldl (· ∩ ·) s

def union (sets : List (Finset Bytes)) : Finset Bytes := sets.foldl (· ∪ ·) ∅

def diff : List (Finset Bytes) → Finset Bytes
  | [] => ∅
  | s :: rest => s \ union rest

def smove (db : Db) (src dst ele : Bytes) : Db × Expected :=
  match db src, db dst with
  | none, _ => (db, .exactly (.integer 0))
  | some .other, _ => (db, .exactly (.error wrongtypeerr))
  | some (.set _), some .other => (db, .exactly (.error wrongtypeerr))
  | some (.set s), _ =>
    if ele ∉ s then (db, .exactly (.integer 0))
    else if src = dst then (db, .exactly (.integer 1))
    else onSet db dst fun d =>
      (store (store db src (s.erase ele)) dst (insert ele d), .exactly (.integer 1))

def step (db : Db) : Command → Db × Expected
  | .sadd key value rest => onSet db key fun s =>
    (store db key (s ∪ (value :: rest).toFinset),
      .exactly (.integer ((s ∪ (value :: rest).toFinset).card - s.card)))
  | .srem key values => onSet db key fun s =>
    (store db key (s \ values.toFinset),
      .exactly (.integer (s.card - (s \ values.toFinset).card)))
  | .smove src dst ele => smove db src dst ele
  | .sismember key value => onSet db key fun s =>
    (db, .exactly (.integer (if value ∈ s then 1 else 0)))
  | .scard key => onSet db key fun s => (db, .exactly (.integer s.card))
  | .sinter key rest dst =>
    match interSources db (key :: rest) with
    | .error .missing => answer db ∅ dst
    | .error .wrongType => (db, .exactly (.error wrongtypeerr))
    | .ok sets => answer db (inter sets) dst
  | .sunion key rest dst =>
    match sources db (key :: rest) with
    | none => (db, .exactly (.error wrongtypeerr))
    | some sets => answer db (union sets) dst
  | .sdiff key rest dst =>
    match sources db (key :: rest) with
    | none => (db, .exactly (.error wrongtypeerr))
    | some sets => answer db (diff sets) dst

end Reference

/-! ### Sets and their members -/

def Valid (s : SetObject) : Prop := ∃ l, Represents s l

/-- The members, as the iterator finds them. -/
def SetObject.members (s : SetObject) : Finset Bytes :=
  ((forEach s (fun elements ele => some (elements ++ [ele.text])) []).getD []).toFinset

/-- What a keyspace stands for. -/
def abstract (db : Db) : Reference.Db := fun key =>
  (db key).map fun o =>
    match o with
    | .set s => .set s.members
    | .other => .other

/-- The sets are well formed, and a key with an empty set does not exist. -/
def DbValid (db : Db) : Prop := ∀ key s, db key = some (.set s) → Valid s ∧ s.members ≠ ∅

section Sets

variable {s : SetObject} {l : List Bytes}

theorem Represents.members (h : Represents s l) : s.members = l.toFinset := by
  rw [SetObject.members, h.collect, Option.getD_some]

theorem Represents.card (h : Represents s l) : s.members.card = l.length := by
  rw [h.members, toFinset_card_of_nodup h.nodup]

variable (h : Valid s)
include h

theorem Valid.size : setTypeSize s = s.members.card := by
  obtain ⟨l, hl⟩ := h
  rw [hl.size, hl.card]

theorem Valid.isMember (value : Bytes) :
    setTypeIsMember s value = some (decide (value ∈ s.members)) := by
  obtain ⟨l, hl⟩ := h
  rw [hl.isMember, hl.members]
  simp

theorem Valid.remove (value : Bytes) :
    ∃ s', setTypeRemove s value = some (s', decide (value ∈ s.members)) ∧ Valid s' ∧
      s'.members = s.members.erase value := by
  obtain ⟨l, hl⟩ := h
  obtain ⟨s', hremove, hrep⟩ := hl.remove value
  refine ⟨s', ?_, ⟨_, hrep⟩, ?_⟩
  · rw [hremove, hl.members]
    simp
  · rw [hrep.members, hl.members]
    ext x
    simp [hl.nodup.mem_erase_iff]

omit h in
theorem valid_setTypeCreate (value : Bytes) :
    Valid (setTypeCreate value) ∧ (setTypeCreate value).members = ∅ :=
  ⟨⟨[], represents_setTypeCreate value⟩, (represents_setTypeCreate value).members⟩

omit h in
theorem valid_createIntsetObject : Valid createIntsetObject ∧ createIntsetObject.members = ∅ :=
  ⟨⟨[], represents_createIntsetObject⟩, represents_createIntsetObject.members⟩

/-- An intset can grow up to so many members. It is converted above the configured number, and
its array is smaller than 4 GB if it stays small enough or does not get so many members. -/
def Grows (cfg : Config) (s : SetObject) (total : Nat) : Prop :=
  s.width ≠ none → min (max (setTypeSize s) cfg.setMaxIntsetEntries + 1) total < 2 ^ 29

variable {cfg : Config} {total : Nat}

omit h in
/-- There is room for one more value. -/
theorem Grows.room (h : Grows cfg s total) (hl : Represents s l)
    (htotal : l.length + 1 ≤ total) : Room s l.length value := by
  intro e v he hv
  have hle := h (by simp [he])
  rw [hl.size] at hle
  have hbytes : max e (intsetValueEncoding v) ≤ 8 := by
    refine max_le ?_ (isEncoding_value v).bounds.2
    cases s with
    | ht keys => cases he
    | intset is =>
      obtain ⟨ints, hholds, _⟩ := hl
      cases he
      exact hholds.encoding.bounds.2
  calc (l.length + 1) * max e (intsetValueEncoding v) ≤ (l.length + 1) * 8 :=
        Nat.mul_le_mul_left _ hbytes
    _ < 2 ^ 32 := by omega

/-- Adding a value. -/
theorem Valid.add (hgrows : Grows cfg s total) (htotal : (insert value s.members).card ≤ total) :
    ∃ s', setTypeAdd cfg s value = some (s', decide (value ∉ s.members)) ∧ Valid s' ∧
      s'.members = insert value s.members ∧ Grows cfg s' total := by
  obtain ⟨l, hl⟩ := h
  obtain ⟨hold, hnew, _⟩ := hl.add cfg value
  have hmem : value ∈ s.members ↔ value ∈ l := by rw [hl.members, mem_toFinset]
  by_cases hin : value ∈ l
  · refine ⟨s, ?_, ⟨l, hl⟩, ?_, hgrows⟩
    · rw [hold hin]
      simp [hmem, hin]
    · rw [insert_eq_of_mem (hmem.mpr hin)]
  · rw [card_insert_of_notMem (mt hmem.mp hin), hl.card] at htotal
    obtain ⟨s', l', hadd, hrep, hperm, hwidth⟩ := hnew hin (hgrows.room hl htotal)
    refine ⟨s', ?_, ⟨l', hrep⟩, ?_, ?_⟩
    · rw [hadd]
      simp [hmem, hin]
    · rw [hrep.members, hl.members, toFinset_eq_of_perm _ _ hperm, toFinset_cons]
    · -- A set that is still an intset has not passed the configured limit.
      intro hintset
      rw [hwidth, grownWidth] at hintset
      split_ifs at hintset with hfew
      · have hold : s.width ≠ none := by
          intro hnone
          simp [hnone] at hintset
        have hle := hgrows hold
        rw [hrep.size, hperm.length_eq, length_cons]
        omega
      · exact absurd rfl hintset

omit h in
theorem union_toFinset_cons (members : Finset Bytes) (value : Bytes) (values : List Bytes) :
    members ∪ (value :: values).toFinset = insert value members ∪ values.toFinset := by
  rw [toFinset_cons, union_insert, insert_union]

omit h in
theorem sdiff_toFinset_cons (members : Finset Bytes) (value : Bytes) (values : List Bytes) :
    members \ (value :: values).toFinset = members.erase value \ values.toFinset := by
  rw [toFinset_cons, sdiff_insert, erase_sdiff_comm]

/-- Adding a list of values and counting the members. -/
theorem Valid.addAll (hgrows : Grows cfg s total)
    (htotal : (s.members ∪ values.toFinset).card ≤ total) :
    ∃ s', values.foldlM (addText cfg) (s, cInt s.members.card) = some (s', cInt s'.members.card) ∧
      Valid s' ∧ s'.members = s.members ∪ values.toFinset ∧ Grows cfg s' total := by
  induction values generalizing s with
  | nil => exact ⟨s, rfl, h, by simp, hgrows⟩
  | cons value values ih =>
    rw [union_toFinset_cons] at htotal ⊢
    obtain ⟨s₁, hadd, hvalid, hmembers, hgrows₁⟩ := h.add hgrows
      ((card_le_card subset_union_left).trans htotal)
    have hstep : addText cfg (s, cInt s.members.card) value =
        some (s₁, cInt s₁.members.card) := by
      simp only [addText, addCounting, Value.text, hadd, Option.bind_eq_bind, Option.bind_some,
        decide_eq_true_eq, hmembers]
      split_ifs with hin
      · rw [insert_eq_of_mem hin]
      · rw [card_insert_of_notMem hin, cInt_succ]
    rw [← hmembers] at htotal ⊢
    obtain ⟨s₂, hfold, hrest⟩ := ih hvalid hgrows₁ htotal
    refine ⟨s₂, ?_, hrest⟩
    rw [foldlM_cons, hstep]
    exact hfold

theorem Valid.saddLoop (hgrows : Grows cfg s total)
    (htotal : (s.members ∪ values.toFinset).card ≤ total) (added : Nat) :
    ∃ s', saddLoop cfg values s added =
        some (s', added + ((s.members ∪ values.toFinset).card - s.members.card)) ∧
      Valid s' ∧ s'.members = s.members ∪ values.toFinset := by
  induction values generalizing s added with
  | nil => exact ⟨s, by simp [Sets.saddLoop], h, by simp⟩
  | cons value values ih =>
    rw [union_toFinset_cons] at htotal ⊢
    obtain ⟨s₁, hadd, hvalid, hmembers, hgrows₁⟩ := h.add hgrows
      ((card_le_card subset_union_left).trans htotal)
    rw [← hmembers] at htotal
    obtain ⟨s₂, hloop, hrest⟩ := ih hvalid hgrows₁ htotal
      (if value ∈ s.members then added else added + 1)
    rw [hmembers] at hloop hrest
    refine ⟨s₂, ?_, hrest⟩
    have hle : (insert value s.members).card ≤ (insert value s.members ∪ values.toFinset).card :=
      card_le_card subset_union_left
    simp only [Sets.saddLoop, hadd, Option.bind_eq_bind, Option.bind_some, decide_eq_true_eq]
    split_ifs at hloop ⊢ with hin
    · rw [hloop, insert_eq_of_mem hin]
    · rw [hloop]
      rw [card_insert_of_notMem hin] at hle ⊢
      congr 2
      omega

theorem Valid.sremLoop (hne : s.members ≠ ∅) (values : List Bytes) (deleted : Nat) :
    ∃ s', sremLoop values s deleted = some (s',
        deleted + (s.members.card - (s.members \ values.toFinset).card),
        decide (s.members \ values.toFinset = ∅)) ∧
      Valid s' ∧ s'.members = s.members \ values.toFinset := by
  induction values generalizing s deleted with
  | nil => exact ⟨s, by simp [Sets.sremLoop, hne], h, by simp⟩
  | cons value values ih =>
    rw [sdiff_toFinset_cons]
    obtain ⟨s₁, hremove, hvalid, hmembers⟩ := h.remove value
    simp only [Sets.sremLoop, hremove, Option.bind_eq_bind, Option.bind_some, decide_eq_true_eq]
    by_cases hin : value ∈ s.members
    · rw [if_pos hin, hvalid.size, hmembers]
      have hcard := card_erase_of_mem hin
      have hpos : 0 < s.members.card := card_pos.mpr ⟨value, hin⟩
      by_cases hzero : (s.members.erase value).card = 0
      · have hempty := card_eq_zero.mp hzero
        refine ⟨s₁, ?_, hvalid, by rw [hmembers, hempty, empty_sdiff]⟩
        rw [hempty, empty_sdiff, card_empty]
        simp
        omega
      · rw [if_neg hzero]
        have hne₁ : s₁.members ≠ ∅ := by
          rw [hmembers]
          exact fun hempty => hzero (card_eq_zero.mpr hempty)
        obtain ⟨s₂, hloop, hrest⟩ := ih hvalid hne₁ (deleted + 1)
        rw [hmembers] at hloop hrest
        refine ⟨s₂, ?_, hrest⟩
        have hle : (s.members.erase value \ values.toFinset).card ≤
            (s.members.erase value).card := card_le_card sdiff_subset
        rw [hloop]
        congr 3
        omega
    · rw [if_neg hin, erase_eq_of_notMem hin]
      rw [erase_eq_of_notMem hin] at hmembers
      obtain ⟨s₂, hloop, hrest⟩ := ih hvalid (by rwa [hmembers]) deleted
      rw [hmembers] at hloop hrest
      exact ⟨s₂, hloop, hrest⟩

end Sets

/-! ### Commands on one set -/

/-- The command goes through, and what it does is what is expected. -/
def Agrees (result : Option (Db × Reply)) (expected : Reference.Db × Reference.Expected) : Prop :=
  ∃ db' reply, result = some (db', reply) ∧ DbValid db' ∧ abstract db' = expected.1 ∧
    expected.2.Accepts reply

/-- No intset has an array of 4 GB, and no union or difference that is replied has `2^31`
members. -/
def Fits (cfg : Config) (db : Db) : Command → Prop
  | .sadd key value rest =>
    (∀ s, db key = some (.set s) → Grows cfg s (setTypeSize s + (value :: rest).length)) ∧
      (db key = none → Grows cfg (setTypeCreate value) (value :: rest).length)
  | .smove _ dst _ => ∀ s, db dst = some (.set s) → Grows cfg s (setTypeSize s + 1)
  | .sinter key rest dst => dst ≠ none →
      ∀ sets, Reference.interSources (abstract db) (key :: rest) = .ok sets →
        min (cfg.setMaxIntsetEntries + 1) (Reference.inter sets).card < 2 ^ 29
  | .sunion key rest dst => ∀ sets, Reference.sources (abstract db) (key :: rest) = some sets →
      min (cfg.setMaxIntsetEntries + 1) (Reference.union sets).card < 2 ^ 29 ∧
        (dst = none → (Reference.union sets).card < 2 ^ 31)
  | .sdiff key rest _ => ∀ first others,
      Reference.sources (abstract db) (key :: rest) = some (first :: others) →
        min (cfg.setMaxIntsetEntries + 1) first.card < 2 ^ 29 ∧ first.card < 2 ^ 31
  | _ => True

section Keys

variable {cfg : Config} {db : Db} {s : SetObject} {key : Bytes}

theorem abstract_of_none (h : db key = none) : abstract db key = none := by simp [abstract, h]

theorem abstract_of_other (h : db key = some .other) : abstract db key = some .other := by
  simp [abstract, h]

theorem abstract_of_set (h : db key = some (.set s)) : abstract db key = some (.set s.members) := by
  simp [abstract, h]

theorem abstract_setSet (db : Db) (key : Bytes) (hne : s.members ≠ ∅) :
    abstract (setSet db key s) = Reference.store (abstract db) key s.members := by
  rw [Reference.store, if_neg hne]
  exact comp_update (Option.map _) db key _

theorem abstract_dbDelete (db : Db) (key : Bytes) :
    abstract (dbDelete db key) = Reference.store (abstract db) key ∅ :=
  comp_update (Option.map _) db key _

theorem DbValid.setSet (h : DbValid db) (key : Bytes) (hs : Valid s) (hne : s.members ≠ ∅) :
    DbValid (setSet db key s) := by
  intro k s' hk
  rw [Sets.setSet, Dict.set, update_apply] at hk
  split_ifs at hk
  · cases hk
    exact ⟨hs, hne⟩
  · exact h k s' hk

theorem DbValid.dbDelete (h : DbValid db) (key : Bytes) : DbValid (dbDelete db key) := by
  intro k s' hk
  rw [Sets.dbDelete, Dict.delete, update_apply] at hk
  split_ifs at hk
  exact h k s' hk

/-- Storing a set, or deleting the key if it is empty. -/
theorem DbValid.put (h : DbValid db) (key : Bytes) (hs : Valid s) :
    DbValid (if s.members = ∅ then Sets.dbDelete db key else Sets.setSet db key s) ∧
      abstract (if s.members = ∅ then Sets.dbDelete db key else Sets.setSet db key s) =
        Reference.store (abstract db) key s.members := by
  split_ifs with hempty
  · rw [hempty]
    exact ⟨h.dbDelete key, abstract_dbDelete db key⟩
  · exact ⟨h.setSet key hs hempty, abstract_setSet db key hempty⟩

variable (hdb : DbValid db)
include hdb

/-- The values are added to a set that exists or to a new one. -/
theorem sadd_set_agrees (hs : Valid s)
    (hvalues : values ≠ []) (hgrows : Grows cfg s (setTypeSize s + values.length)) :
    Agrees ((saddLoop cfg values s 0).bind fun r => some (setSet db key r.1, .integer r.2))
      (Reference.store (abstract db) key (s.members ∪ values.toFinset),
        .exactly (.integer ((s.members ∪ values.toFinset).card - s.members.card))) := by
  have hcard : (s.members ∪ values.toFinset).card ≤ setTypeSize s + values.length := by
    rw [hs.size]
    exact (card_union_le _ _).trans (Nat.add_le_add_left (toFinset_card_le _) _)
  have hne : s.members ∪ values.toFinset ≠ ∅ := fun hempty =>
    hvalues ((toFinset_eq_empty_iff _).mp (union_eq_empty.mp hempty).2)
  have hle : s.members.card ≤ (s.members ∪ values.toFinset).card :=
    card_le_card subset_union_left
  obtain ⟨s', hloop, hvalid, hmembers⟩ := hs.saddLoop hgrows hcard 0
  rw [hloop, Option.bind_some, ← hmembers]
  rw [← hmembers] at hne
  refine ⟨_, _, rfl, hdb.setSet key hvalid hne, abstract_setSet db key hne, ?_⟩
  rw [hmembers]
  congr 1
  omega

/-- A command that works on the set at a key. -/
theorem onSet_agrees {missing : Option (Db × Reply)} {work : SetObject → Option (Db × Reply)}
    {f : Finset Bytes → Reference.Db × Reference.Expected}
    (hmissing : db key = none → Agrees missing (f ∅))
    (hwork : ∀ s, db key = some (.set s) → Agrees (work s) (f s.members)) :
    Agrees (match db key with
      | none => missing
      | some .other => some (db, .error wrongtypeerr)
      | some (.set s) => work s) (Reference.onSet (abstract db) key f) := by
  rw [Reference.onSet]
  cases hkey : db key with
  | none =>
    rw [abstract_of_none hkey]
    exact hmissing hkey
  | some o =>
    cases o with
    | other =>
      rw [abstract_of_other hkey]
      exact ⟨db, _, rfl, hdb, rfl, rfl⟩
    | set s =>
      rw [abstract_of_set hkey]
      exact hwork s hkey

theorem sadd_agrees {rest : List Bytes} (hfits : Fits cfg db (.sadd key value rest)) :
    Agrees (saddCommand cfg db key value rest)
      (Reference.step (abstract db) (.sadd key value rest)) := by
  refine onSet_agrees hdb (fun hkey => ?_) fun s hkey => ?_
  · obtain ⟨hvalid, hmembers⟩ := valid_setTypeCreate value
    have hsize : setTypeSize (setTypeCreate value) = 0 := by
      rw [hvalid.size, hmembers]
      rfl
    have hgrows := hfits.2 hkey
    rw [← zero_add (value :: rest).length, ← hsize] at hgrows
    rw [← hmembers]
    exact sadd_set_agrees hdb hvalid (cons_ne_nil value rest) hgrows
  · exact sadd_set_agrees hdb (hdb key s hkey).1 (cons_ne_nil value rest) (hfits.1 s hkey)

omit hdb in
theorem store_empty (h : db key = none) : Reference.store (abstract db) key ∅ = abstract db := by
  rw [Reference.store, if_pos rfl, ← abstract_of_none h, update_eq_self]

theorem srem_agrees (values : List Bytes) :
    Agrees (sremCommand db key values) (Reference.step (abstract db) (.srem key values)) := by
  refine onSet_agrees hdb (fun hkey => ?_) fun s hkey => ?_
  · rw [empty_sdiff, store_empty hkey]
    exact ⟨db, _, rfl, hdb, rfl, rfl⟩
  · obtain ⟨hvalid, hne⟩ := hdb key s hkey
    obtain ⟨s', hloop, hvalid', hmembers⟩ := hvalid.sremLoop hne values 0
    have hle : (s.members \ values.toFinset).card ≤ s.members.card :=
      card_le_card sdiff_subset
    have hput := hdb.put key hvalid'
    rw [hmembers] at hput
    simp only [hloop, Option.bind_eq_bind, Option.bind_some, decide_eq_true_eq]
    refine ⟨_, _, rfl, hput.1, hput.2, ?_⟩
    congr 1
    omega

theorem sismember_agrees (value : Bytes) : Agrees (sismemberCommand db key value)
    (Reference.step (abstract db) (.sismember key value)) := by
  refine onSet_agrees hdb (fun hkey => ?_) fun s hkey => ?_
  · exact ⟨db, _, rfl, hdb, rfl, rfl⟩
  · simp only [(hdb key s hkey).1.isMember value, Option.bind_eq_bind, Option.bind_some,
      decide_eq_true_eq]
    exact ⟨db, _, rfl, hdb, rfl, rfl⟩

theorem scard_agrees :
    Agrees (scardCommand db key) (Reference.step (abstract db) (.scard key)) := by
  refine onSet_agrees hdb (fun hkey => ?_) fun s hkey => ?_
  · exact ⟨db, _, rfl, hdb, rfl, rfl⟩
  · rw [(hdb key s hkey).1.size]
    exact ⟨db, _, rfl, hdb, rfl, rfl⟩

/-- The element is taken out of the source. -/
theorem smove_between_agrees (src dst ele : Bytes) {srcset dstset : SetObject}
    (hsrc : Valid srcset) (hdst : Valid dstset)
    (hgrows : Grows cfg dstset (setTypeSize dstset + 1)) :
    Agrees ((setTypeRemove srcset ele).bind fun r =>
      if r.2 then smoveTo cfg db src dst ele r.1 dstset else some (db, .integer 0))
      (if ele ∉ srcset.members then (abstract db, .exactly (.integer 0))
      else (Reference.store (Reference.store (abstract db) src (srcset.members.erase ele)) dst
        (insert ele dstset.members), .exactly (.integer 1))) := by
  obtain ⟨srcset', hremove, hvalid, hmembers⟩ := hsrc.remove ele
  rw [hremove, Option.bind_some]
  simp only [decide_eq_true_eq]
  split_ifs
  · rw [← hmembers]
    have hcard : (insert ele dstset.members).card ≤ setTypeSize dstset + 1 := by
      rw [hdst.size]
      exact card_insert_le _ _
    obtain ⟨s', hadd, hvalid', hadded, _⟩ := hdst.add hgrows hcard
    have hput := hdb.put src hvalid
    have hsize : setTypeSize srcset' = 0 ↔ srcset'.members = ∅ := by
      rw [hvalid.size, card_eq_zero]
    have hne : s'.members ≠ ∅ := by
      rw [hadded]
      exact insert_ne_empty _ _
    simp only [smoveTo, hadd, hsize, Option.bind_eq_bind, Option.bind_some]
    rw [← hadded, ← hput.2]
    exact ⟨_, _, rfl, hput.1.setSet dst hvalid' hne, abstract_setSet _ dst hne, rfl⟩
  · exact ⟨db, _, rfl, hdb, rfl, rfl⟩

theorem smove_agrees {src dst ele : Bytes} (hfits : Fits cfg db (.smove src dst ele)) :
    Agrees (smoveCommand cfg db src dst ele)
      (Reference.step (abstract db) (.smove src dst ele)) := by
  rw [Reference.step]
  unfold smoveCommand Reference.smove
  cases hsrc : db src with
  | none =>
    rw [abstract_of_none hsrc]
    exact ⟨db, _, rfl, hdb, rfl, rfl⟩
  | some o =>
    cases o with
    | other =>
      rw [abstract_of_other hsrc]
      exact ⟨db, _, rfl, hdb, rfl, rfl⟩
    | set srcset =>
      have hvalid := (hdb src srcset hsrc).1
      rw [abstract_of_set hsrc]
      cases hdst : db dst with
      | none =>
        have hne : src ≠ dst := by
          rintro rfl
          rw [hsrc] at hdst
          cases hdst
        obtain ⟨hcreate, hmembers⟩ := valid_setTypeCreate ele
        have hgrows : Grows cfg (setTypeCreate ele) (setTypeSize (setTypeCreate ele) + 1) := by
          intro _
          rw [hcreate.size, hmembers, card_empty]
          omega
        have hagrees := smove_between_agrees hdb src dst ele hvalid hcreate hgrows
        rw [hmembers] at hagrees
        simp only [if_neg hne, Reference.onSet, abstract_of_none hdst]
        exact hagrees
      | some o =>
        cases o with
        | other =>
          rw [abstract_of_other hdst]
          exact ⟨db, _, rfl, hdb, rfl, rfl⟩
        | set dstset =>
          rw [abstract_of_set hdst]
          by_cases hsame : src = dst
          · simp only [if_pos hsame, hvalid.isMember ele, Option.bind_eq_bind,
              Option.bind_some, decide_eq_true_eq]
            split_ifs
            · exact ⟨db, _, rfl, hdb, rfl, rfl⟩
            · exact ⟨db, _, rfl, hdb, rfl, rfl⟩
          · simp only [if_neg hsame, Reference.onSet, abstract_of_set hdst]
            exact smove_between_agrees hdb src dst ele hvalid (hdb dst dstset hdst).1
              (hfits dstset hdst)

end Keys

end Redis.Sets
