import Redis.Library.Simulation
import Redis.Dictionary.Operations

/-! A dict refines a finite map. The map of a dict reads the chains of both
tables; every operation of the interface moves it as the corresponding map
operation does, whatever buckets were moved on the way. -/
namespace Redis.Dictionary

open Simulation Function List Option

variable {K V : Type} [DecidableEq K] {hash : K → BitVec 64}
variable {m : K → Option V} {d : Dict K V} {k : K} {v : V}

/-- The key-to-value map of a list of entries. -/
def mapOf (c : List (DictEntry K V)) (k : K) : Option V := (Chain.lookup k c).map DictEntry.val

/-- The abstract map of a dict, the union of the chains of its two tables. -/
def Dict.toMap (d : Dict K V) : K → Option V := mapOf d.entries

/-- The calls of the interface. The argument `raw` of an insertion is the
content of the value field of freshly allocated memory. -/
inductive DictOp (K V : Type) where
  | add (k : K) (raw v : V)
  | addRaw (k : K) (raw : V)
  | replace (k : K) (raw v : V)
  | addOrFind (k : K) (raw : V)
  | delete (k : K)
  | unlink (k : K)
  | find (k : K)
  | expand (size : Nat)
  | resize
  | rehash (n : Int)
  | empty
deriving DecidableEq, Repr

/-- What a call returns. -/
inductive DictAnswer (K V : Type) where
  | status (s : Status)
  | entry (e : Option (DictEntry K V))
  | added (r : AddResult K V)
  | int (n : Nat)
  | void
deriving DecidableEq, Repr

/-- One call, with the value of `dict_can_resize` at that time. -/
def dictStep (hash : K → BitVec 64) (d : Dict K V) (call : Bool × DictOp K V) :
    Dict K V × DictAnswer K V :=
  match call with
  | (canResize, .add k raw v) => (dictAdd hash canResize d k raw v).map id .status
  | (canResize, .addRaw k raw) => (dictAddRaw hash canResize d k raw).map id .added
  | (canResize, .replace k raw v) => (dictReplace hash canResize d k raw v).map id .int
  | (canResize, .addOrFind k raw) => (dictAddOrFind hash canResize d k raw).map id .entry
  | (_, .delete k) => (dictDelete hash d k).map id .status
  | (_, .unlink k) => (dictUnlink hash d k).map id .entry
  | (_, .find k) => (dictFind hash d k).map id .entry
  | (_, .expand size) => (dictExpand d size).map id .status
  | (canResize, .resize) => (dictResize canResize d).map id .status
  | (_, .rehash n) => (dictRehash hash d n).map id .int
  | (_, .empty) => (dictEmpty d, .void)

/-- The finite-map reading of a call. Sizes and rehashing are invisible to the
map, so it says nothing about the answers of those calls. -/
def mapStep (m : K → Option V) (call : Bool × DictOp K V) :
    (K → Option V) × Option (DictAnswer K V) :=
  match call.2 with
  | .add k _ v =>
    match m k with
    | some _ => (m, some (.status .err))
    | none => (update m k (some v), some (.status .ok))
  | .addRaw k raw =>
    match m k with
    | some v => (m, some (.added (.present (some { key := k, val := v }))))
    | none =>
      (update m k (some raw), some (.added (.added { key := k, val := raw })))
  | .replace k _ v => (update m k (some v), some (.int (if (m k).isSome then 0 else 1)))
  | .addOrFind k raw =>
    match m k with
    | some v => (m, some (.entry (some { key := k, val := v })))
    | none => (update m k (some raw), some (.entry (some { key := k, val := raw })))
  | .delete k => (update m k none, some (.status (if (m k).isSome then .ok else .err)))
  | .unlink k =>
    (update m k none, some (.entry ((m k).map fun v => { key := k, val := v })))
  | .find k => (m, some (.entry ((m k).map fun v => { key := k, val := v })))
  | .expand _ => (m, none)
  | .resize => (m, none)
  | .rehash _ => (m, none)
  | .empty => (fun _ => none, some .void)

/-- The answer of a call is the one the map gives, where it gives one. -/
def Agrees (answer : DictAnswer K V) (expected : Option (DictAnswer K V)) : Prop :=
  ∀ a ∈ expected, answer = a

theorem mapOf_cons (e : DictEntry K V) (c : List (DictEntry K V)) :
    mapOf (e :: c) = update (mapOf c) e.key (some e.val) := by
  funext k
  by_cases hk : e.key = k
  · subst hk
    simp [mapOf, Chain.lookup]
  · simp [mapOf, Chain.lookup, hk, Ne.symm hk]

theorem mapOf_perm {c c' : List (DictEntry K V)} (hn : (c.map DictEntry.key).Nodup)
    (hp : c.Perm c') : mapOf c = mapOf c' := by
  funext k
  rw [mapOf, mapOf, lookup_perm hn hp]

theorem mapOf_some {c : List (DictEntry K V)} :
    mapOf c k = some v ↔ Chain.lookup k c = some { key := k, val := v } := by
  constructor
  · intro h
    obtain ⟨e, he, rfl⟩ := map_eq_some_iff.mp h
    obtain ⟨_, rfl⟩ := lookup_some he
    exact he
  · intro h
    simp [mapOf, h]

theorem mapOf_eq_none {c : List (DictEntry K V)} : mapOf c k = none ↔ Chain.lookup k c = none := by
  simp [mapOf]

/-- The entry a lookup gives is the one rebuilt from the map. -/
theorem lookup_eq_map (k : K) (c : List (DictEntry K V)) :
    Chain.lookup k c = (mapOf c k).map fun v => { key := k, val := v } := by
  cases hm : mapOf c k with
  | none => exact mapOf_eq_none.mp hm
  | some v => exact mapOf_some.mp hm

theorem Inv.toMap_insert {d d' : Dict K V} (h' : Inv hash d')
    (hp : d'.entries.Perm ({ key := k, val := v } :: d.entries)) :
    d'.toMap = update d.toMap k (some v) := by
  rw [Dict.toMap, mapOf_perm h'.nodup hp, mapOf_cons, Dict.toMap]

/-- Deleting an entry, or failing to find one, clears the key in the map. -/
theorem Inv.toMap_delete {d d' : Dict K V} (h : Inv hash d)
    (hp : d.entries.Perm ((Chain.lookup k d.entries).toList ++ d'.entries)) :
    d'.toMap = update d.toMap k none := by
  have hn := (hp.map DictEntry.key).nodup_iff.mp h.nodup
  have hmap : d.toMap = mapOf ((Chain.lookup k d.entries).toList ++ d'.entries) :=
    mapOf_perm h.nodup hp
  cases hl : Chain.lookup k d.entries with
  | none =>
    rw [hl] at hmap
    have hk : d.toMap k = none := mapOf_eq_none.mpr hl
    rw [← hk, update_eq_self]
    exact hmap.symm
  | some e =>
    obtain ⟨_, rfl⟩ := lookup_some hl
    rw [hl] at hmap hn
    have hnone : d'.toMap e.key = none := by
      rw [Dict.toMap, mapOf_eq_none, lookup_none_iff]
      intro e' he' hkey
      simp only [toList_some, singleton_append, map_cons, nodup_cons] at hn
      exact hn.1 (hkey ▸ mem_map_of_mem he')
    rw [hmap]
    simp only [toList_some, singleton_append, mapOf_cons, update_idem]
    rw [← hnone]
    exact (update_eq_self _ _).symm

/-- A dict in good shape that holds this map. -/
def Represents (hash : K → BitVec 64) (d : Dict K V) (m : K → Option V) : Prop :=
  Inv hash d ∧ d.toMap = m

/-- The number of buckets a call asks for outright. -/
def DictOp.requested : DictOp K V → Nat
  | .expand size => size
  | _ => 0

/-- The limit under which the byte count of no new table wraps: at most `2^59`
entries before the call, and no explicit request for more than `2^60` buckets. -/
def CallOk (d : Dict K V) (call : Bool × DictOp K V) : Prop :=
  d.dictSize ≤ 2 ^ 59 ∧ call.2.requested ≤ 2 ^ 60

instance CallOk.decidable (d : Dict K V) (call : Bool × DictOp K V) : Decidable (CallOk d call) :=
  inferInstanceAs (Decidable (_ ∧ _))

theorem Represents.of_perm {d d' : Dict K V} (h : Represents hash d m) (h' : Inv hash d')
    (hp : d'.entries.Perm d.entries) : Represents hash d' m :=
  ⟨h', by rw [← h.2]; exact mapOf_perm h'.nodup hp⟩

section

variable (h : Represents hash d m)
include h

theorem Represents.lookup (k : K) :
    Chain.lookup k d.entries = (m k).map fun v => { key := k, val := v } := by
  rw [lookup_eq_map, ← h.2, Dict.toMap]

/-- The two outcomes of `dictAddRaw`, told apart by the map. -/
theorem Represents.addRaw (canResize : Bool) (hs : d.dictSize ≤ 2 ^ 59) (k : K) (raw : V) :
    (∃ d' v, dictAddRaw hash canResize d k raw = (d', .present (some { key := k, val := v })) ∧
        m k = some v ∧ Represents hash d' m) ∨
      (∃ d', dictAddRaw hash canResize d k raw = (d', .added { key := k, val := raw }) ∧
        m k = none ∧ Represents hash d' (update m k (some raw))) := by
  rw [h.1.dictSize_eq] at hs
  obtain ⟨hinv, hcases⟩ := dictAddRaw_spec h.1 canResize hs k raw
  have hl := h.lookup k
  rcases hres : dictAddRaw hash canResize d k raw with ⟨d', r⟩
  rw [hres] at hinv hcases
  rcases hcases with ⟨e, he, rfl, hp⟩ | ⟨hnone, rfl, hp⟩
  · left
    rw [he] at hl
    obtain ⟨v, hv, rfl⟩ := map_eq_some_iff.mp hl.symm
    exact ⟨d', v, rfl, hv, h.of_perm hinv hp⟩
  · right
    rw [hnone] at hl
    refine ⟨d', rfl, map_eq_none_iff.mp hl.symm, hinv, ?_⟩
    rw [← h.2]
    exact hinv.toMap_insert hp

theorem Represents.setVal (hk : (m k).isSome) (v : V) :
    Represents hash (dictSetVal hash d k v) (update m k (some v)) := by
  obtain ⟨w, hw⟩ := isSome_iff_exists.mp hk
  have hl := h.lookup k
  rw [hw] at hl
  obtain ⟨hinv, rest, hp, hp'⟩ := dictSetVal_spec h.1 hl v
  refine ⟨hinv, ?_⟩
  rw [← h.2, Dict.toMap, mapOf_perm hinv.nodup hp', mapOf_cons, Dict.toMap,
    mapOf_perm h.1.nodup hp, mapOf_cons, update_idem]

theorem Represents.genericDelete (k : K) :
    Represents hash (dictGenericDelete hash d k).1 (update m k none) ∧
      (dictGenericDelete hash d k).2 = (m k).map fun v => { key := k, val := v } := by
  obtain ⟨hinv, hres, hp⟩ := dictGenericDelete_spec h.1 k
  refine ⟨⟨hinv, ?_⟩, hres.trans (h.lookup k)⟩
  rw [hres] at hp
  rw [← h.2]
  exact h.1.toMap_delete hp

theorem Represents.expand {size : Nat} (hs : size ≤ 2 ^ 60) :
    Represents hash (dictExpand d size).1 m :=
  h.of_perm (h.1.expand hs) (by rw [dictExpand_entries h.1.toWf])

theorem Represents.resize (canResize : Bool) (hs : d.dictSize ≤ 2 ^ 59) :
    Represents hash (dictResize canResize d).1 m := by
  unfold dictResize
  split_ifs
  · exact h
  · apply h.expand
    rw [Dict.dictSize] at hs
    rw [dictHtInitialSize]
    omega

/-- One call moves the map as the map operation does and answers likewise. -/
theorem dictStep_refines {call : Bool × DictOp K V} (hok : CallOk d call) :
    Represents hash (dictStep hash d call).1 (mapStep m call).1 ∧
      Agrees (dictStep hash d call).2 (mapStep m call).2 := by
  obtain ⟨canResize, op⟩ := call
  obtain ⟨hsize, hexpand⟩ := hok
  cases op with
  | add k raw v =>
    rcases h.addRaw canResize hsize k raw with ⟨d', w, he, hm, hrep⟩ | ⟨d', he, hm, hrep⟩
    · simpa [dictStep, dictAdd, mapStep, he, hm, Agrees] using hrep
    · have hset := hrep.setVal (k := k) (by simp) v
      simpa [dictStep, dictAdd, mapStep, he, hm, Agrees] using hset
  | addRaw k raw =>
    rcases h.addRaw canResize hsize k raw with ⟨d', w, he, hm, hrep⟩ | ⟨d', he, hm, hrep⟩ <;>
      simpa [dictStep, mapStep, he, hm, Agrees] using hrep
  | replace k raw v =>
    rcases h.addRaw canResize hsize k raw with ⟨d', w, he, hm, hrep⟩ | ⟨d', he, hm, hrep⟩
    · have hset := hrep.setVal (k := k) (by simp [hm]) v
      simpa [dictStep, dictReplace, mapStep, he, hm, Agrees] using hset
    · have hset := hrep.setVal (k := k) (by simp) v
      simpa [dictStep, dictReplace, mapStep, he, hm, Agrees] using hset
  | addOrFind k raw =>
    rcases h.addRaw canResize hsize k raw with ⟨d', w, he, hm, hrep⟩ | ⟨d', he, hm, hrep⟩ <;>
      simpa [dictStep, dictAddOrFind, mapStep, he, hm, Agrees] using hrep
  | delete k =>
    obtain ⟨hrep, hres⟩ := h.genericDelete k
    rcases hd : dictGenericDelete hash d k with ⟨d', r⟩
    cases hm : m k <;>
      simp_all [dictStep, dictDelete, mapStep, Agrees]
  | unlink k =>
    obtain ⟨hrep, hres⟩ := h.genericDelete k
    simpa [dictStep, dictUnlink, mapStep, Agrees, hres] using hrep
  | find k =>
    obtain ⟨hinv, hp, hres⟩ := dictFind_spec h.1 k
    rw [h.lookup k] at hres
    simpa [dictStep, mapStep, Agrees, hres] using h.of_perm hinv hp
  | expand size =>
    have hle : size ≤ 2 ^ 60 := hexpand
    simpa [dictStep, mapStep, Agrees] using h.expand hle
  | resize =>
    simpa [dictStep, mapStep, Agrees] using h.resize canResize hsize
  | rehash n =>
    obtain ⟨hinv, hp⟩ := h.1.rehash n
    simpa [dictStep, mapStep, Agrees] using h.of_perm hinv hp
  | empty =>
    simp only [dictStep, mapStep, dictEmpty, Agrees]
    exact ⟨⟨Inv.create, rfl⟩, by simp⟩

end

/-- Every run of calls on a new dict whose steps stay below the allocation
limit keeps the representation invariant and answers as the finite map. -/
theorem dict_refines_finite_map (hash : K → BitVec 64) (calls : List (Bool × DictOp K V))
    (hok : RunOk (dictStep hash) CallOk dictCreate calls) :
    Inv hash (run (dictStep hash) dictCreate calls).1 ∧
      (run (dictStep hash) dictCreate calls).1.toMap = (run mapStep (fun _ => none) calls).1 ∧
      List.Forall₂ Agrees (run (dictStep hash) dictCreate calls).2
        (run mapStep (fun _ => none) calls).2 := by
  have hcreate : Represents hash (dictCreate : Dict K V) fun _ => none := ⟨Inv.create, rfl⟩
  have hstep : ∀ (d : Dict K V) (m : K → Option V) (call : Bool × DictOp K V),
      Represents hash d m → CallOk d call →
        Represents hash (dictStep hash d call).1 (mapStep m call).1 ∧
          Agrees (dictStep hash d call).2 (mapStep m call).2 :=
    fun _ _ _ h hc => dictStep_refines h hc
  obtain ⟨⟨hinv, hmap⟩, hanswers⟩ := run_simulates hstep hcreate hok
  exact ⟨hinv, hmap, hanswers⟩

/-- A run that grows a table of five colliding keys, deletes one of them in
the middle of the rehashing and looks another one up. -/
def collidingCalls : List (Bool × DictOp Nat Nat) :=
  [(true, .add 0 0 10), (true, .add 1 0 11), (true, .add 2 0 12), (true, .add 3 0 13),
    (true, .replace 4 0 14), (true, .delete 2), (false, .find 3), (true, .rehash 1)]

theorem dict_refines_finite_map_colliding :
    RunOk (dictStep fun _ => 0) CallOk dictCreate collidingCalls ∧
      Inv (fun _ => 0) (run (dictStep fun _ => 0) dictCreate collidingCalls).1 ∧
      (run (dictStep fun _ => 0) dictCreate collidingCalls).1.toMap =
        (run mapStep (fun _ => none) collidingCalls).1 ∧
      List.Forall₂ Agrees (run (dictStep fun _ => 0) dictCreate collidingCalls).2
        (run mapStep (fun _ => none) collidingCalls).2 :=
  have hok : RunOk (dictStep fun _ => 0) CallOk dictCreate collidingCalls := by decide
  ⟨hok, dict_refines_finite_map (fun _ => 0) collidingCalls hok⟩

/-- Asking for `2^61` buckets wraps the byte count of the table to zero. The
key added next is linked nowhere, and looking it up finds nothing. -/
theorem dictExpand_wrapped_loses_key :
    (run (dictStep fun _ => 0) (dictCreate : Dict Nat Nat)
        [(true, .expand (2 ^ 61)), (true, .add 7 0 1), (true, .find 7)]).2 =
      [.status .ok, .status .ok, .entry none] ∧
    (run mapStep (fun _ => none)
        [(true, DictOp.expand (2 ^ 61)), (true, .add 7 0 1), (true, .find 7)]).2 =
      [none, some (.status .ok), some (.entry (some { key := 7, val := 1 }))] := by
  decide

end Redis.Dictionary
