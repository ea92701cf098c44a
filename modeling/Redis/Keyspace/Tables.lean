import Redis.Keyspace.Basic

/-! The two tables of a database as one map from keys to values with optional expire times,
and what each function on them does to the map. -/
namespace Redis.Keyspace

open ByteBuffer Function Option AList Shared

variable {A : Type}

section Bindings

variable {β : Type} (t : Table β) {db db' : Db A} {key : Bytes} {val : Object A}

/-- What a table binds its keys to. Of the main table it is the dictionary that the commands of
one type work on. -/
def bindings : Dict β := fun key => t.lookup key

theorem bindings_insert (key : Bytes) (val : β) :
    bindings (t.insert key val) = (bindings t).set key val := by
  funext other
  by_cases hother : other = key
  · subst hother
    exact (lookup_insert t).trans (Dict.set_self ..).symm
  · rw [Dict.set_of_ne hother]
    exact lookup_insert_ne hother

theorem bindings_erase (key : Bytes) : bindings (t.erase key) = (bindings t).delete key := by
  funext other
  by_cases hother : other = key
  · subst hother
    exact (lookup_erase _ t).trans (Dict.delete_self ..).symm
  · rw [Dict.delete_of_ne hother]
    exact lookup_erase_ne hother

/-- The functions of `db.c` do to the dictionary what the commands of one type do to it. -/
theorem dbAdd_bindings (h : dbAdd db key val = some db') :
    bindings db'.dict = (bindings db.dict).set key val := by
  rw [dbAdd] at h
  split at h
  · cases h
  · cases h
    exact bindings_insert ..

theorem dbOverwrite_bindings (h : dbOverwrite db key val = some db') :
    bindings db'.dict = (bindings db.dict).set key val := by
  rw [dbOverwrite] at h
  split at h
  · cases h
    exact bindings_insert ..
  · cases h

theorem dbDelete_bindings (db : Db A) (key : Bytes) :
    bindings (dbDelete db key).1.dict = (bindings db.dict).delete key :=
  bindings_erase ..

end Bindings

/-- What a key is bound to: a value, and the time at which it expires. -/
abbrev Entry (A : Type) : Type := Object A × Option Int

abbrev Map (A : Type) : Type := Bytes → Option (Entry A)

/-- The expire time of an entry is not past. -/
def Entry.live (now : Int) (entry : Entry A) : Bool := entry.2.all fun when_ => decide (now ≤ when_)

/-- The map as it is seen at a time: an entry whose expire time is past is absent. -/
def Map.at (now : Int) (m : Map A) : Map A := fun key => (m key).filter (Entry.live now)

/-- Expire one key of a map. -/
def Map.settle (now : Int) (m : Map A) (key : Bytes) : Map A := update m key (m.at now key)

/-- The tables of a database hold a map: each expire time belongs to a key of the main table,
and it is not negative. -/
structure Holds (db : Db A) (m : Map A) : Prop where
  entry : ∀ key, m key = (db.dict.lookup key).map fun val => (val, db.expires.lookup key)
  expires_sub : ∀ key, (db.expires.lookup key).isSome → (db.dict.lookup key).isSome
  expires_nonneg : ∀ key when_, db.expires.lookup key = some when_ → 0 ≤ when_

section Map

variable {now : Int} {m : Map A} {key : Bytes}

theorem Map.at_settle : (m.settle now key).at now = m.at now := by
  funext other
  by_cases hother : other = key
  · subst hother
    simp [Map.at, Map.settle]
  · simp [Map.at, Map.settle, update_of_ne hother]

theorem Map.settle_self : m.settle now key key = m.at now key := update_self _ _ _

theorem Map.at_update (entry : Option (Entry A)) :
    Map.at now (update m key entry) =
      update (m.at now) key (entry.filter (Entry.live now)) := by
  funext other
  by_cases hother : other = key
  · subst hother
    simp [Map.at]
  · simp [Map.at, update_of_ne hother]

theorem Map.update_settle (entry : Option (Entry A)) :
    update (m.settle now key) key entry = update m key entry := by
  rw [Map.settle, update_idem]

theorem Map.at_of_eq_none (h : m key = none) : m.at now key = none := by
  rw [Map.at, h, filter_none]

/-- At a later time fewer entries are seen, those that are not past. -/
theorem Map.at_at {later : Int} (h : now ≤ later) : (m.at now).at later = m.at later := by
  funext key
  rw [Map.at, Map.at, Map.at, filter_filter]
  congr 1
  funext entry
  cases entry with
  | mk val expire =>
    cases expire with
    | none => rfl
    | some when_ =>
      simp only [Entry.live, all_some, ← Bool.decide_and, decide_eq_decide]
      omega

end Map

namespace Holds

variable {now : Int} {db : Db A} {m : Map A}

variable (h : Holds db m)
include h

section

variable {entry : Entry A} {when_ : Int}
variable (key : Bytes)

theorem lookup_eq : db.dict.lookup key = (m key).map Prod.fst := by
  rw [h.entry, map_map]
  exact (map_id' (x := db.dict.lookup key)).symm

theorem expires_eq : db.expires.lookup key = (m key).bind Prod.snd := by
  rw [h.entry, bind_map]
  cases hval : db.dict.lookup key with
  | some val => rfl
  | none =>
    cases hexp : db.expires.lookup key with
    | none => rfl
    | some when_ =>
      have hsome := h.expires_sub key (by rw [hexp]; rfl)
      rw [hval] at hsome
      cases hsome

theorem nonneg {key : Bytes} {val : Object A}
    (hkey : m key = some (val, some when_)) : 0 ≤ when_ := by
  apply h.expires_nonneg key
  rw [h.expires_eq, hkey]
  rfl

theorem isSome_eq : (db.dict.lookup key).isSome = (m key).isSome := by
  rw [h.lookup_eq, isSome_map]

theorem signalModifiedKey : Holds (signalModifiedKey db key) m :=
  ⟨h.entry, h.expires_sub, h.expires_nonneg⟩

omit h in
theorem emptyDb (db : Db A) : Holds (emptyDb db) fun _ => none := by
  constructor
  · intro key
    rfl
  · intro key hkey
    cases hkey
  · intro key when_ hkey
    cases hkey

/-- The entry of one key is changed: what has to be shown is about that key only. -/
theorem of_update {db' : Db A} {key : Bytes} {entry : Option (Entry A)}
    (hdict : bindings db'.dict = update (bindings db.dict) key (entry.map Prod.fst))
    (hexpires : bindings db'.expires = update (bindings db.expires) key (entry.bind Prod.snd))
    (hnonneg : ∀ when_, entry.bind Prod.snd = some when_ → 0 ≤ when_) :
    Holds db' (update m key entry) := by
  have hval other : db'.dict.lookup other = _ := congrFun hdict other
  have hexp other : db'.expires.lookup other = _ := congrFun hexpires other
  refine ⟨fun other => ?_, fun other hsome => ?_, fun other when_ hwhen => ?_⟩
  all_goals
    by_cases hother : other = key
  · subst hother
    rw [hval, hexp, update_self, update_self, update_self]
    cases entry with
    | none | some entry => rfl
  · rw [hval, hexp, update_of_ne hother, update_of_ne hother, update_of_ne hother]
    exact h.entry other
  · subst hother
    rw [hexp, update_self] at hsome
    rw [hval, update_self]
    cases entry with
    | none => cases hsome
    | some entry => rfl
  · rw [hexp, update_of_ne hother] at hsome
    rw [hval, update_of_ne hother]
    exact h.expires_sub other hsome
  · subst hother
    rw [hexp, update_self] at hwhen
    exact hnonneg when_ hwhen
  · rw [hexp, update_of_ne hother] at hwhen
    exact h.expires_nonneg other when_ hwhen

/-- What a table holds that a function does not write. -/
theorem kept : bindings db.dict = update (bindings db.dict) key ((m key).map Prod.fst) ∧
    bindings db.expires = update (bindings db.expires) key ((m key).bind Prod.snd) := by
  rw [eq_update_self_iff, eq_update_self_iff]
  exact ⟨h.lookup_eq key, h.expires_eq key⟩

theorem dbDelete : Holds (dbDelete db key).1 (update m key none) := by
  apply h.of_update
  · exact dbDelete_bindings db key
  · exact bindings_erase ..
  · intro when_ hwhen
    cases hwhen

theorem dbDelete_snd : (Keyspace.dbDelete db key).2 = (m key).isSome :=
  h.isSome_eq key

theorem dbAdd {key : Bytes} (hkey : m key = none) (val : Object A) :
    ∃ db', dbAdd db key val = some db' ∧ Holds db' (update m key (some (val, none))) := by
  have hadd : Keyspace.dbAdd db key val = some { db with dict := db.dict.insert key val } := by
    rw [Keyspace.dbAdd, h.isSome_eq, hkey]
    rfl
  exact ⟨_, hadd, h.of_update (dbAdd_bindings hadd) (hkey ▸ h.kept key).2 nofun⟩

theorem dbOverwrite {key : Bytes} (hkey : m key = some entry) (val : Object A) :
    ∃ db', dbOverwrite db key val = some db' ∧
      Holds db' (update m key (some (val, entry.2))) := by
  have hover : Keyspace.dbOverwrite db key val = some { db with dict := db.dict.insert key val } := by
    rw [Keyspace.dbOverwrite, h.isSome_eq, hkey]
    rfl
  refine ⟨_, hover, h.of_update (dbOverwrite_bindings hover) (hkey ▸ h.kept key).2 ?_⟩
  intro when_ hwhen
  exact h.expires_nonneg key when_ (by rwa [h.expires_eq, hkey])

theorem removeExpire {key : Bytes} (hkey : m key = some entry) :
    ∃ db', removeExpire db key = some (db', entry.2.isSome) ∧
      Holds db' (update m key (some (entry.1, none))) := by
  refine ⟨{ db with expires := db.expires.erase key }, ?_, ?_⟩
  · rw [Keyspace.removeExpire, if_pos (by rw [h.isSome_eq, hkey]; rfl), h.expires_eq, hkey]
    rfl
  · exact h.of_update (hkey ▸ h.kept key).1 (bindings_erase ..) nofun

theorem setExpire {key : Bytes} (hkey : m key = some entry) (hwhen : 0 ≤ when_) :
    ∃ db', setExpire db key when_ = some db' ∧
      Holds db' (update m key (some (entry.1, some when_))) := by
  refine ⟨{ db with expires := db.expires.insert key when_ }, ?_, ?_⟩
  · rw [Keyspace.setExpire, if_pos (by rw [h.isSome_eq, hkey]; rfl)]
  · apply h.of_update (hkey ▸ h.kept key).1 (bindings_insert ..)
    intro when_' heq
    cases heq
    exact hwhen

theorem getExpire_eq : getExpire db key = some (((m key).bind Prod.snd).getD (-1)) := by
  rw [getExpire, ← h.expires_eq]
  cases hexp : db.expires.lookup key with
  | none => rfl
  | some when_ =>
    have hsome := h.expires_sub key (by rw [hexp]; rfl)
    simp [hsome]

/-- Minus one is never stored, so that it means no expire time. -/
theorem keyIsExpired_eq :
    keyIsExpired now db key = some ((m key).any fun entry => !entry.live now) := by
  rw [keyIsExpired, h.getExpire_eq]
  cases hkey : m key with
  | none => rfl
  | some entry =>
    obtain ⟨val, expire⟩ := entry
    cases expire with
    | none => rfl
    | some when_ =>
      have hnonneg := h.nonneg hkey
      have hpast : decide (when_ < now) = !decide (now ≤ when_) := by
        simp only [← decide_not, not_le]
      simp [Entry.live, not_lt.mpr hnonneg, hpast]

end

variable (now) (key : Bytes)

theorem expireIfNeeded :
    ∃ db', expireIfNeeded now db key = some (db', (m key).any fun entry => !entry.live now) ∧
      Holds db' (m.settle now key) := by
  rw [Keyspace.expireIfNeeded, h.keyIsExpired_eq]
  cases hkey : m key with
  | none =>
    refine ⟨db, rfl, ?_⟩
    rw [Map.settle, Map.at_of_eq_none hkey, ← hkey, update_eq_self]
    exact h
  | some entry =>
    by_cases hlive : entry.live now
    · refine ⟨db, by simp [hlive], ?_⟩
      rw [Map.settle, Map.at, hkey, filter_some_pos hlive, ← hkey, update_eq_self]
      exact h
    · have hdeleted : (Keyspace.dbDelete db key).2 = true := by rw [h.dbDelete_snd, hkey]; rfl
      refine ⟨Keyspace.signalModifiedKey (Keyspace.dbDelete db key).1 key, ?_, ?_⟩
      · simp [hlive, hdeleted]
      · rw [Map.settle, Map.at, hkey, filter_some_neg (by simpa using hlive)]
        exact (h.dbDelete key).signalModifiedKey key

theorem lookupKeyWrite :
    ∃ db', lookupKeyWrite now db key = some (db', (m.at now key).map Prod.fst) ∧
      Holds db' (m.settle now key) := by
  obtain ⟨db', hrun, hdb'⟩ := h.expireIfNeeded now key
  refine ⟨db', ?_, hdb'⟩
  rw [Keyspace.lookupKeyWrite, hrun, ← Map.settle_self, ← hdb'.lookup_eq]
  rfl

/-- On a master a key that was just expired is gone from the table too. -/
theorem lookupKeyRead : ∃ db', lookupKeyRead now db key = some (db', (m.at now key).map Prod.fst) ∧
      Holds db' (m.settle now key) := by
  obtain ⟨db', hrun, hdb'⟩ := h.expireIfNeeded now key
  refine ⟨db', ?_, hdb'⟩
  rw [Keyspace.lookupKeyRead, hrun]
  cases hkey : m key with
  | none =>
    have hlookup : db'.dict.lookup key = (m.at now key).map Prod.fst := by
      rw [hdb'.lookup_eq, Map.settle_self]
    simp [hlookup]
  | some entry =>
    by_cases hlive : entry.live now
    · have hlookup : db'.dict.lookup key = (m.at now key).map Prod.fst := by
        rw [hdb'.lookup_eq, Map.settle_self]
      simp [hlive, hlookup]
    · simp [hlive, Map.at, hkey]

/-- A key that is set has the new value, and its old expire time if that is kept. -/
theorem genericSetKey (val : Object A) (keepttl signal : Bool) :
    ∃ db', genericSetKey now db key val keepttl signal = some db' ∧
      Holds db' (update m key
        (some (val, if keepttl then (m.at now key).bind Prod.snd else none))) := by
  obtain ⟨db₁, hlookup, h₁⟩ := h.lookupKeyWrite now key
  have hwrite : ∃ db₂, (if ((m.at now key).map Prod.fst).isNone then Keyspace.dbAdd db₁ key val
        else Keyspace.dbOverwrite db₁ key val) = some db₂ ∧
      Holds db₂ (update m key (some (val, (m.at now key).bind Prod.snd))) := by
    cases hkey : m.at now key with
    | none =>
      obtain ⟨db₂, hadd, h₂⟩ := h₁.dbAdd (Map.settle_self.trans hkey) val
      rw [Map.update_settle] at h₂
      exact ⟨db₂, hadd, h₂⟩
    | some entry =>
      obtain ⟨db₂, hover, h₂⟩ := h₁.dbOverwrite (Map.settle_self.trans hkey) val
      rw [Map.update_settle] at h₂
      exact ⟨db₂, hover, h₂⟩
  obtain ⟨db₂, hwritten, h₂⟩ := hwrite
  have hexpire : ∃ db₃, (if keepttl then some db₂
        else (Keyspace.removeExpire db₂ key).map Prod.fst) = some db₃ ∧
      Holds db₃ (update m key
        (some (val, if keepttl then (m.at now key).bind Prod.snd else none))) := by
    cases keepttl with
    | true => exact ⟨db₂, rfl, h₂⟩
    | false =>
      obtain ⟨db₃, hremove, h₃⟩ := h₂.removeExpire (update_self _ _ _)
      rw [update_idem] at h₃
      exact ⟨db₃, by rw [hremove]; rfl, h₃⟩
  obtain ⟨db₃, hexpired, h₃⟩ := hexpire
  refine ⟨if signal then Keyspace.signalModifiedKey db₃ key else db₃, ?_, ?_⟩
  · simp only [Keyspace.genericSetKey, hlookup, bind_eq_bind, bind_some, hwritten,
      hexpired]
  · cases signal with
    | true => exact h₃.signalModifiedKey key
    | false => exact h₃

end Holds

end Redis.Keyspace
