import Redis.Hashes.Encodings

/-! The hash commands refine commands on finite maps, whatever the encodings. -/
namespace Redis.Hashes

open ByteBuffer Util Ziplist Shared List Function Bool Finmap
open Keyspace (Table)

variable {f : Hash → Option (Db × Reply)} {rest : List Bytes}

namespace Reference

/-- A value of the keyspace: a finite map, or a value of another type. -/
inductive Value where
  | map (m : Map)
  | other

abbrev Db : Type := Bytes → Option Value

/-- The reply to a command, or a list of all fields and values in any order. -/
inductive Expected where
  | exactly (r : Reply)
  | listing (m : Map)

def Expected.Accepts : Expected → Reply → Prop
  | .exactly r, reply => reply = r
  | .listing m, reply => ∃ pairs, reply = .map (size m) pairs ∧ (pairs.map Prod.fst).Nodup ∧
      ∀ field value, (field, value) ∈ pairs ↔ m.lookup field = some value

/-- The map at a key, which is empty if there is none. -/
def onMap (db : Db) (key : Bytes) (f : Map → Db × Expected) : Db × Expected :=
  match db key with
  | none => f ∅
  | some (.map m) => f m
  | some .other => (db, .exactly (.error wrongtypeerr))

/-- A key with an empty map does not exist. -/
def store (db : Db) (key : Bytes) (m : Map) : Db :=
  Function.update db key (if size m = 0 then none else some (.map m))

def setAll : Map → List Bytes → Map
  | m, field :: value :: rest => setAll (m.insert field value) rest
  | m, _ => m

def eraseAll (m : Map) (fields : List Bytes) : Map := fields.foldl (fun m field => m.erase field) m

/-- The integer in a field, zero without one. -/
def integerAt (m : Map) (field : Bytes) : Option Int :=
  match m.lookup field with
  | none => some 0
  | some value => string2ll value

def hincrby (db : Db) (key field : Bytes) (incr : Int) : Db × Expected :=
  onMap db key fun m =>
    match integerAt m field with
    | none => (db, .exactly (.error (addReplyError "hash value is not an integer")))
    | some v =>
      if -2 ^ 63 ≤ v + incr ∧ v + incr < 2 ^ 63 then
        (store db key (m.insert field (ll2string (v + incr))), .exactly (.integer (v + incr)))
      else (db, .exactly (.error (addReplyError "increment or decrement would overflow")))

def step (db : Db) : Command → Db × Expected
  | .hset key field value rest =>
    if rest.length % 2 = 1 then
      (db, .exactly (.error (addReplyError "wrong number of arguments for 'hset' command")))
    else onMap db key fun m =>
      let m' := setAll m (field :: value :: rest)
      (store db key m', .exactly (.integer (size m' - size m)))
  | .hsetnx key field value => onMap db key fun m =>
    if (m.lookup field).isSome then (db, .exactly (.integer 0))
    else (store db key (m.insert field value), .exactly (.integer 1))
  | .hincrby key field increment =>
    match string2ll increment with
    | none => (db, .exactly (.error (addReplyError "value is not an integer or out of range")))
    | some incr => hincrby db key field incr
  | .hdel key field rest => onMap db key fun m =>
    let m' := eraseAll m (field :: rest)
    (store db key m', .exactly (.integer (size m - size m')))
  | .hget key field => onMap db key fun m =>
    (db, .exactly (((m.lookup field).map Reply.bulk).getD .null))
  | .hexists key field => onMap db key fun m =>
    (db, .exactly (.integer (if (m.lookup field).isSome then 1 else 0)))
  | .hlen key => onMap db key fun m => (db, .exactly (.integer (size m)))
  | .hstrlen key field => onMap db key fun m =>
    (db, .exactly (.integer (((m.lookup field).map List.length).getD 0 : Nat)))
  | .hgetall key => onMap db key fun m => (db, .listing m)

end Reference

open Reference (setAll eraseAll)

/-! ### The size of the lists of arguments -/

/-- The fields and values that are passed to a command. -/
def Command.args : Command → List Bytes
  | .hset _ field value rest => field :: value :: rest
  | .hsetnx _ field value => [field, value]
  | .hincrby _ field _ => [field]
  | .hdel _ field rest => field :: rest
  | .hget _ field => [field]
  | .hexists _ field => [field]
  | .hlen _ => []
  | .hstrlen _ field => [field]
  | .hgetall _ => []

/-- What strings take in a ziplist at most. -/
def argBytes (args : List Bytes) : Nat := (args.map fun a => a.length + 14).sum

/-- The lengths and sizes of the source do not overflow: fields and values have 32-bit lengths, a
ziplist stays below 4 GB, and `HGETALL` counts its replies in an `int`. -/
def Fits (cfg : Config) (db : Db) (cmd : Command) : Prop :=
  (∀ a ∈ cmd.args, a.length < 2 ^ 32) ∧
    match cmd with
    | .hset key field value rest => ∀ h, hashTypeLookupWriteOrCreate db key = some h →
        (∀ a ∈ field :: value :: rest, a.length ≤ cfg.hashMaxZiplistValue) →
          Room h (argBytes (field :: value :: rest))
    | .hsetnx key field value => ∀ h, hashTypeLookupWriteOrCreate db key = some h →
        (∀ a ∈ [field, value], a.length ≤ cfg.hashMaxZiplistValue) →
          Room h (argBytes [field, value])
    | .hincrby key field _ => ∀ h, hashTypeLookupWriteOrCreate db key = some h →
        Room h (field.length + 20 + 28)
    | .hgetall key => ∀ h, db key = some (.hash h) → (hashTypeLength h).1 < 2 ^ 30
    | _ => True

/-! ### Commands on one hash -/

inductive ObjectRepresents : Option Object → Option Reference.Value → Prop where
  | none : ObjectRepresents none none
  | other : ObjectRepresents (some .other) (some .other)
  | hash {h : Hash} {m : Map} (hrep : Represents h m) (hne : size m ≠ 0) :
      ObjectRepresents (some (.hash h)) (some (.map m))

def DbRepresents (db : Db) (ref : Reference.Db) : Prop := ∀ key, ObjectRepresents (db key) (ref key)

variable {cfg : Config} {db : Db} {ref : Reference.Db} {h : Hash} {m : Map} {n : Nat}
  {key field value : Bytes}

theorem size_empty : size ∅ = 0 := rfl

theorem size_ne_of_lookup (field : Bytes) (h : (m.lookup field).isSome = true) : size m ≠ 0 := by
  have herase := size_erase m field
  rw [h] at herase
  simp only [if_true] at herase
  omega

theorem size_insert_ne (m : Map) (field value : Bytes) : size (m.insert field value) ≠ 0 :=
  size_ne_of_lookup field (by simp)

theorem represents_create : Represents createHashObject ∅ := by
  have hformat : Format (layoutBytes [] 0) [] :=
    format_layout trivial (by decide) (by norm_num) (.inl rfl)
  refine .ziplist ∅ ⟨?_, ?_, ?_⟩ rfl
  · exact ⟨[], hformat⟩
  · rfl
  · decide

theorem size_le_setAll (m : Map) (args : List Bytes) : size m ≤ size (setAll m args) := by
  fun_induction setAll m args with
  | case1 m field value rest ih =>
    have hinsert := size_insert m field value
    omega
  | case2 m args => exact le_refl _

/-- The loop of `HSET` counts the fields that are new. -/
theorem hsetLoop_spec (cfg : Config) (args : List Bytes) (hrep : Represents h m)
    (hshort : ∀ a ∈ args, a.length < 2 ^ 32) (hroom : Room h (argBytes args)) (created : Nat) :
    ∃ h', hsetLoop cfg h args created =
        some (h', created + (size (setAll m args) - size m)) ∧
      Represents h' (setAll m args) := by
  fun_induction setAll m args generalizing h created with
  | case1 m field value rest ih =>
    have hbytes : argBytes (field :: value :: rest) =
        field.length + value.length + 28 + argBytes rest := by
      simp only [argBytes, map_cons, sum_cons]
      omega
    rw [hbytes] at hroom
    obtain ⟨h', hset, hrep', hroom'⟩ := hrep.set cfg (hshort field (by simp))
      (hshort value (by simp)) hroom
    obtain ⟨h'', hloop, hrep''⟩ := ih hrep' (fun a ha => hshort a (by simp [ha])) hroom'
      (if (m.lookup field).isSome then created else created + 1)
    refine ⟨h'', ?_, hrep''⟩
    have hinsert := size_insert m field value
    have hle := size_le_setAll (m.insert field value) rest
    rw [hsetLoop, hset]
    simp only [Option.bind_eq_bind, Option.bind_some]
    rw [hloop]
    congr 2
    split_ifs at hinsert ⊢
    · omega
    · omega
  | case2 args m hargs =>
    refine ⟨h, ?_, hrep⟩
    match args, hargs with
    | [], _ => simp [hsetLoop]
    | [a], _ => simp [hsetLoop]
    | a :: b :: rest, hargs => exact (hargs a b rest rfl).elim

theorem eraseAll_size_le (m : Map) (fields : List Bytes) :
    size (eraseAll m fields) ≤ size m := by
  induction fields generalizing m with
  | nil => exact le_refl _
  | cons field fields ih =>
    have herase := size_erase m field
    have hrest := ih (m.erase field)
    rw [eraseAll, foldl_cons]
    rw [eraseAll] at hrest
    omega

theorem eq_empty_of_size (hsize : size m = 0) : m = ∅ := by
  have hentries : m.entries = 0 := Multiset.card_eq_zero.mp hsize
  exact ext hentries

/-- The loop of `HDEL`, which ends when the hash is empty. -/
theorem hdelLoop_spec (fields : List Bytes) (hrep : Represents h m) (hne : size m ≠ 0)
    (hshort : ∀ a ∈ fields, a.length < 2 ^ 32) (deleted : Nat) :
    ∃ h', hdelLoop h fields deleted =
        (h', deleted + (size m - size (eraseAll m fields)),
          decide (size (eraseAll m fields) = 0)) ∧
      Represents h' (eraseAll m fields) := by
  induction fields generalizing h m deleted with
  | nil =>
    refine ⟨h, ?_, hrep⟩
    simp [hdelLoop, eraseAll, hne]
  | cons field fields ih =>
    obtain ⟨hrep', hfound⟩ := hrep.delete (hshort field (by simp))
    have herase := size_erase m field
    have hle := eraseAll_size_le (m.erase field) fields
    have hall : eraseAll m (field :: fields) =
        eraseAll (m.erase field) fields := rfl
    rw [hdelLoop, hall]
    simp only [hfound]
    cases hlookup : (m.lookup field).isSome with
    | false =>
      rw [hlookup] at herase
      simp only [false_eq_true, if_false, add_zero] at herase ⊢
      obtain ⟨h', hloop, hrep''⟩ := ih hrep' (by omega) (fun a ha => hshort a (by simp [ha])) deleted
      exact ⟨h', by rw [hloop, herase], hrep''⟩
    | true =>
      rw [hlookup] at herase
      simp only [if_true] at herase ⊢
      obtain ⟨hlen, hrepLen⟩ := hrep'.length
      rw [hlen]
      by_cases hzero : size (m.erase field) = 0
      · have hempty : eraseAll (m.erase field) fields = m.erase field := by
          rw [eq_empty_of_size hzero] at hle ⊢
          exact eq_empty_of_size (Nat.le_zero.mp hle)
        rw [if_pos hzero, hempty]
        refine ⟨_, ?_, hrepLen⟩
        rw [hzero] at herase ⊢
        simp [herase]
      · rw [if_neg hzero]
        obtain ⟨h', hloop, hrep''⟩ := ih hrepLen hzero (fun a ha => hshort a (by simp [ha]))
          (deleted + 1)
        refine ⟨h', ?_, hrep''⟩
        rw [hloop]
        congr 2
        omega

/-! ### Commands on the keyspace -/

/-- A command goes through, and the keyspace and the reply are as expected. -/
def Agrees (result : Option (Db × Reply)) (expected : Reference.Db × Reference.Expected) : Prop :=
  ∃ db' reply, result = some (db', reply) ∧ DbRepresents db' expected.1 ∧ expected.2.Accepts reply

theorem DbRepresents.update (key : Bytes) {object : Option Object} {v : Option Reference.Value}
    (h : DbRepresents db ref) (hobject : ObjectRepresents object v) :
    DbRepresents (update db key object) (update ref key v) := by
  intro k
  by_cases hk : k = key
  · subst hk
    simpa using hobject
  · simpa [hk] using h k

section

variable {g : Map → Reference.Db × Reference.Expected}
variable (hdb : DbRepresents db ref)
include hdb

theorem DbRepresents.setHash (hrep : Represents h m) (hne : size m ≠ 0) :
    DbRepresents (setHash db key h) (Reference.store ref key m) := by
  rw [Reference.store, if_neg hne]
  exact hdb.update key (.hash hrep hne)

/-- A hash that still represents the same map. -/
theorem DbRepresents.refresh (hkey : ref key = some (.map m))
    (hrep : Represents h m) (hne : size m ≠ 0) : DbRepresents (Hashes.setHash db key h) ref := by
  have hsame : Function.update ref key (some (.map m)) = ref := by
    rw [← hkey, Function.update_eq_self]
  have hupdate := hdb.update key (.hash hrep hne)
  rwa [hsame] at hupdate

/-- A command that reads a hash. -/
theorem withHash_agrees {missing : Reply}
    (hmissing : db key = none → ref key = none → Agrees (some (db, missing)) (g ∅))
    (hfound : ∀ h m, db key = some (.hash h) → ref key = some (.map m) → Represents h m →
      size m ≠ 0 → Agrees (f h) (g m)) :
    Agrees (withHash db key missing f) (Reference.onMap ref key g) := by
  have hobject := hdb key
  rw [withHash, Reference.onMap]
  generalize hdbkey : db key = object, hrefkey : ref key = v at hobject ⊢
  cases hobject with
  | none => exact hmissing hdbkey hrefkey
  | other => exact ⟨db, _, rfl, hdb, rfl⟩
  | hash hrep hne => exact hfound _ _ hdbkey hrefkey hrep hne

/-- A command that writes to a hash, or to a new one. -/
theorem lookupWrite_agrees
    (hfound : ∀ h m, hashTypeLookupWriteOrCreate db key = some h → Represents h m →
    (size m ≠ 0 → ref key = some (.map m)) → Agrees (f h) (g m)) :
    Agrees (match hashTypeLookupWriteOrCreate db key with
      | none => some (db, .error wrongtypeerr)
      | some h => f h) (Reference.onMap ref key g) := by
  have hobject := hdb key
  have hlookup := hashTypeLookupWriteOrCreate.eq_1 db key
  rw [Reference.onMap]
  generalize db key = object, hrefkey : ref key = v at hobject hlookup ⊢
  rw [hlookup]
  cases hobject with
  | none => exact hfound _ ∅ hlookup represents_create fun hne => absurd size_empty hne
  | other => exact ⟨db, _, rfl, hdb, rfl⟩
  | hash hrep hne => exact hfound _ _ hlookup hrep fun _ => hrefkey

theorem hset_agrees (hfits : Fits cfg db (.hset key field value rest)) :
    Agrees (execute cfg db (.hset key field value rest))
      (Reference.step ref (.hset key field value rest)) := by
  obtain ⟨hshort, hroom⟩ := hfits
  rw [execute, hsetCommand, Reference.step]
  have hparity : (field :: value :: rest).length % 2 = rest.length % 2 := by
    rw [length_cons, length_cons]
    omega
  rw [hparity]
  split_ifs
  · exact ⟨db, _, rfl, hdb, rfl⟩
  · apply lookupWrite_agrees hdb
    intro h m hlookup hrep _
    obtain ⟨h', hconvert, hrep', hroom'⟩ := hrep.tryConversion (field :: value :: rest)
      (hroom h hlookup)
    obtain ⟨h'', hloop, hrep''⟩ := hsetLoop_spec cfg (field :: value :: rest) hrep' hshort
      hroom' 0
    have hle := size_le_setAll m (field :: value :: rest)
    have hne : size (setAll m (field :: value :: rest)) ≠ 0 := by
      have hge : size (m.insert field value) ≤ size (setAll m (field :: value :: rest)) :=
        size_le_setAll _ rest
      have hinsert := size_insert_ne m field value
      omega
    rw [hconvert]
    simp only [Option.bind_eq_bind, Option.bind_some, hloop]
    refine ⟨_, _, rfl, hdb.setHash hrep'' hne, ?_⟩
    simp only [Reference.Expected.Accepts, zero_add]
    rw [Nat.cast_sub hle]

theorem hsetnx_agrees (hfits : Fits cfg db (.hsetnx key field value)) :
    Agrees (execute cfg db (.hsetnx key field value))
      (Reference.step ref (.hsetnx key field value)) := by
  obtain ⟨hshort, hroom⟩ := hfits
  have hfield : field.length < 2 ^ 32 := hshort field (by simp [Command.args])
  apply lookupWrite_agrees hdb
  intro h m hlookup hrep hkey
  obtain ⟨h', hconvert, hrep', hroom'⟩ := hrep.tryConversion [field, value] (hroom h hlookup)
  rw [hconvert]
  simp only [Option.bind_eq_bind, Option.bind_some, hrep'.exists hfield]
  cases hsome : (m.lookup field).isSome with
  | true =>
    have hne := size_ne_of_lookup field hsome
    exact ⟨_, _, rfl, hdb.refresh (hkey hne) hrep' hne, rfl⟩
  | false =>
    have hbytes : argBytes [field, value] = field.length + value.length + 28 + 0 := by
      simp only [argBytes, map_cons, map_nil, sum_cons, sum_nil]
      omega
    rw [hbytes] at hroom'
    obtain ⟨h'', hset, hrep'', -⟩ := hrep'.set cfg hfield
      (hshort value (by simp [Command.args])) hroom'
    simp only [hset, Option.bind_some, false_eq_true, if_false]
    exact ⟨_, _, rfl, hdb.setHash hrep'' (size_insert_ne m field value), rfl⟩

omit hdb in
/-- The number a field holds, as the code reads it. -/
theorem incrementedValue_eq {found : Option Value} (htext : found.map Value.text = m.lookup field)
    (hrange : ∀ n, found = some (.int n) → -2 ^ 63 ≤ n ∧ n < 2 ^ 63) :
    (∃ v, incrementedValue found = .ok v ∧ Reference.integerAt m field = some v ∧
      -2 ^ 63 ≤ v ∧ v < 2 ^ 63 ∧ ((m.lookup field).isSome = false → v = 0)) ∨
    (incrementedValue found = .error (addReplyError "hash value is not an integer") ∧
      Reference.integerAt m field = none ∧ (m.lookup field).isSome = true) := by
  rw [Reference.integerAt, ← htext]
  cases found with
  | none => exact .inl ⟨0, rfl, rfl, by norm_num, by norm_num, fun _ => rfl⟩
  | some v =>
    cases v with
    | int n =>
      obtain ⟨hlo, hhi⟩ := hrange n rfl
      exact .inl ⟨n, rfl, string2ll_of_ll2string hlo hhi, hlo, hhi, fun h => nomatch h⟩
    | str s =>
      cases hparse : string2ll s with
      | none =>
        refine .inr ⟨?_, hparse, rfl⟩
        simp only [incrementedValue, hparse]
      | some n =>
        obtain ⟨-, hlo, hhi⟩ := string2ll_ll2string hparse
        refine .inl ⟨n, ?_, hparse, hlo, hhi, fun h => nomatch h⟩
        simp only [incrementedValue, hparse]

theorem hincrby_agrees {increment : Bytes} (hfits : Fits cfg db (.hincrby key field increment)) :
    Agrees (execute cfg db (.hincrby key field increment))
      (Reference.step ref (.hincrby key field increment)) := by
  obtain ⟨hshort, hroom⟩ := hfits
  have hfield : field.length < 2 ^ 32 := hshort field (by simp [Command.args])
  rw [execute, hincrbyCommand, Reference.step, getLongLongFromObjectOrReply]
  cases hparse : string2ll increment with
  | none => exact ⟨db, _, rfl, hdb, rfl⟩
  | some incr =>
    obtain ⟨-, hincrlo, hincrhi⟩ := string2ll_ll2string hparse
    apply lookupWrite_agrees hdb
    intro h m hlookup hrep hkey
    obtain ⟨found, hget, htext, hrange⟩ := hrep.getValue hfield
    simp only [hget, Option.bind_eq_bind, Option.bind_some]
    rcases incrementedValue_eq htext hrange with
      ⟨v, hvalue, hint, hlo, hhi, hzero⟩ | ⟨hvalue, hint, hsome⟩
    · simp only [hvalue, hint, incrementOverflows_eq hlo hhi hincrlo hincrhi, decide_eq_true_eq]
      by_cases hin : -2 ^ 63 ≤ v + incr ∧ v + incr < 2 ^ 63
      · have hlen := string2ll_length (string2ll_of_ll2string hin.1 hin.2)
        have hshort : (ll2string (v + incr)).length < 2 ^ 32 := by omega
        obtain ⟨h', hset, hrep', -⟩ := hrep.set cfg (n := 0) hfield hshort
          ((hroom h hlookup).mono (by omega))
        rw [if_neg (not_not_intro hin), if_pos hin, hset]
        exact ⟨_, _, rfl, hdb.setHash hrep' (size_insert_ne m field _), rfl⟩
      · have hne : size m ≠ 0 := by
          apply size_ne_of_lookup field
          by_contra hfalse
          have hv := hzero (eq_false_iff.mpr hfalse)
          omega
        rw [if_pos hin, if_neg hin]
        exact ⟨_, _, rfl, hdb.refresh (hkey hne) hrep hne, rfl⟩
    · have hne := size_ne_of_lookup field hsome
      simp only [hvalue, hint]
      exact ⟨_, _, rfl, hdb.refresh (hkey hne) hrep hne, rfl⟩

theorem hdel_agrees (hfits : Fits cfg db (.hdel key field rest)) :
    Agrees (execute cfg db (.hdel key field rest))
      (Reference.step ref (.hdel key field rest)) := by
  apply withHash_agrees hdb
  · intro hdbkey hrefkey
    have hempty : eraseAll ∅ (field :: rest) = ∅ :=
      eq_empty_of_size (Nat.le_zero.mp (eraseAll_size_le ∅ _))
    refine ⟨db, _, rfl, ?_, ?_⟩
    · simp only [hempty, Reference.store, size_empty, if_true]
      rw [← hrefkey, update_eq_self]
      exact hdb
    · simp [Reference.Expected.Accepts, hempty]
  · intro h m hdbkey hrefkey hrep hne
    obtain ⟨h', hloop, hrep'⟩ := hdelLoop_spec (field :: rest) hrep hne hfits.1 0
    have hle := eraseAll_size_le m (field :: rest)
    rw [hloop]
    refine ⟨_, _, rfl, ?_, ?_⟩
    · simp only [decide_eq_true_eq]
      split_ifs with hzero
      · rw [Reference.store, if_pos hzero]
        exact hdb.update _ .none
      · exact hdb.setHash hrep' hzero
    · simp only [Reference.Expected.Accepts, zero_add]
      rw [Nat.cast_sub hle]

theorem hget_agrees (hfits : Fits cfg db (.hget key field)) :
    Agrees (execute cfg db (.hget key field)) (Reference.step ref (.hget key field)) := by
  have hfield : field.length < 2 ^ 32 := hfits.1 field (by simp [Command.args])
  apply withHash_agrees hdb
  · intro _ _
    exact ⟨db, _, rfl, hdb, rfl⟩
  · intro h m _ _ hrep _
    obtain ⟨found, hget, htext, -⟩ := hrep.getValue hfield
    cases hrep with
    | ziplist t hzl hm =>
      rw [hashTypeGetValue] at hget
      simp only [hget, Option.bind_eq_bind, Option.bind_some]
      rw [← htext]
      cases found with
      | none | some v => exact ⟨db, _, rfl, hdb, rfl⟩
    | ht t hshort hm =>
      rw [← hm, lookup_toFinmap]
      cases hlookup : t.lookup field with
      | none | some v =>
        simp only [hlookup]
        exact ⟨db, _, rfl, hdb, rfl⟩

theorem hexists_agrees (hfits : Fits cfg db (.hexists key field)) :
    Agrees (execute cfg db (.hexists key field)) (Reference.step ref (.hexists key field)) := by
  have hfield : field.length < 2 ^ 32 := hfits.1 field (by simp [Command.args])
  apply withHash_agrees hdb
  · intro _ _
    exact ⟨db, _, rfl, hdb, rfl⟩
  · intro h m _ _ hrep _
    rw [hrep.exists hfield]
    exact ⟨db, _, rfl, hdb, rfl⟩

theorem hstrlen_agrees (hfits : Fits cfg db (.hstrlen key field)) :
    Agrees (execute cfg db (.hstrlen key field)) (Reference.step ref (.hstrlen key field)) := by
  have hfield : field.length < 2 ^ 32 := hfits.1 field (by simp [Command.args])
  apply withHash_agrees hdb
  · intro _ _
    exact ⟨db, _, rfl, hdb, rfl⟩
  · intro h m _ _ hrep _
    rw [hrep.getValueLength hfield]
    exact ⟨db, _, rfl, hdb, rfl⟩

theorem hlen_agrees : Agrees (execute cfg db (.hlen key)) (Reference.step ref (.hlen key)) := by
  apply withHash_agrees hdb
  · intro _ _
    exact ⟨db, _, rfl, hdb, rfl⟩
  · intro h m _ hrefkey hrep hne
    obtain ⟨hlen, hrep'⟩ := hrep.length
    exact ⟨_, _, rfl, hdb.refresh hrefkey hrep' hne, congrArg (fun n : Nat => Reply.integer n) hlen⟩

end

/-- The entries of a table list its map. -/
theorem mem_entries_iff (t : Table Bytes) (field value : Bytes) :
    (field, value) ∈ t.entries.map toPair ↔ t.toFinmap.lookup field = some value := by
  rw [lookup_toFinmap, mem_map]
  constructor
  · rintro ⟨e, he, heq⟩
    obtain ⟨rfl, rfl⟩ := Prod.mk.inj heq
    exact AList.mem_lookup_iff.mpr he
  · intro hlookup
    exact ⟨⟨field, value⟩, AList.mem_lookup_iff.mp hlookup, rfl⟩

/-- The number of replies, halved, is the number of fields. -/
theorem count_eq {n : Nat} (hn : n < 2 ^ 30) : (cInt (2 * n)).tdiv 2 = n := by
  have hdouble := cInt_of_lt (n := 2 * n) (by omega)
  rw [Nat.cast_mul, Nat.cast_two] at hdouble
  rw [hdouble]
  exact Int.mul_tdiv_cancel_left _ (by norm_num)

theorem hgetallReply_eq {pairs : List (Bytes × Bytes)} (hsmall : pairs.length < 2 ^ 30) :
    hgetallReply pairs.length pairs = some (.map pairs.length pairs) := by
  have hlength : cInt pairs.length = pairs.length := cInt_of_lt (by omega)
  rw [hgetallReply, hlength]
  exact if_pos (count_eq hsmall)

theorem bind_of_eq_some {α β : Type} {x : Option α} {a : α} (f : α → Option β) (hx : x = some a) :
    (x >>= f) = f a := by
  rw [hx]
  rfl

theorem hgetall_agrees (hdb : DbRepresents db ref) (hfits : Fits cfg db (.hgetall key)) :
    Agrees (execute cfg db (.hgetall key)) (Reference.step ref (.hgetall key)) := by
  apply withHash_agrees hdb
  · intro _ _
    refine ⟨db, _, rfl, hdb, [], rfl, nodup_nil, fun field value => ?_⟩
    simp
  · intro h m hdbkey hrefkey hrep hne
    have hsmall : (hashTypeLength h).1 < 2 ^ 30 := hfits.2 h hdbkey
    obtain ⟨hlen, hrep'⟩ := hrep.length
    generalize hashTypeLength h = result at hsmall hlen hrep' ⊢
    obtain ⟨len, h'⟩ := result
    dsimp only at hsmall hlen hrep' ⊢
    obtain ⟨t, hentries, hm⟩ := hrep'.entries
    have hcount : (t.entries.map toPair).length = len := by
      rw [length_map, hlen, ← hm]
      rfl
    have hreply := hgetallReply_eq (hcount.symm ▸ hsmall)
    rw [hcount] at hreply
    rw [bind_of_eq_some _ hentries, bind_of_eq_some _ hreply]
    refine ⟨_, _, rfl, hdb.refresh hrefkey hrep' hne, _, by rw [hlen], ?_, ?_⟩
    · rw [map_map]
      exact t.nodupKeys
    · intro field value
      rw [← hm]
      exact mem_entries_iff t field value

/-- One command. -/
theorem execute_agrees (cmd : Command) (hdb : DbRepresents db ref) (hfits : Fits cfg db cmd) :
    Agrees (execute cfg db cmd) (Reference.step ref cmd) := by
  cases cmd with
  | hset key field value rest => exact hset_agrees hdb hfits
  | hsetnx key field value => exact hsetnx_agrees hdb hfits
  | hincrby key field increment => exact hincrby_agrees hdb hfits
  | hdel key field rest => exact hdel_agrees hdb hfits
  | hget key field => exact hget_agrees hdb hfits
  | hexists key field => exact hexists_agrees hdb hfits
  | hlen key => exact hlen_agrees hdb
  | hstrlen key field => exact hstrlen_agrees hdb hfits
  | hgetall key => exact hgetall_agrees hdb hfits

/-- A keyspace without hashes; `others` are the keys of other values. -/
def initialDb (others : Bytes → Bool) : Db := fun key => if others key then some .other else none

def Reference.initialDb (others : Bytes → Bool) : Reference.Db :=
  fun key => if others key then some .other else none

/-- Runs of commands, each under the settings of its time, next to those on maps. -/
inductive Reachable : Db → Reference.Db → Prop where
  | initial (others : Bytes → Bool) : Reachable (initialDb others) (Reference.initialDb others)
  | step {cfg : Config} {db db' : Db} {ref : Reference.Db} {cmd : Command} {reply : Reply}
      (hreach : Reachable db ref) (hfits : Fits cfg db cmd)
      (hexec : execute cfg db cmd = some (db', reply)) : Reachable db' (Reference.step ref cmd).1

theorem Reachable.represents (h : Reachable db ref) : DbRepresents db ref := by
  induction h with
  | initial others =>
    intro key
    rw [initialDb, Reference.initialDb]
    split
    · exact .other
    · exact .none
  | step hreach hfits hexec ih =>
    obtain ⟨db', reply, hexec', hdb', -⟩ := execute_agrees _ ih hfits
    rw [hexec] at hexec'
    cases hexec'
    exact hdb'

/-- After every run, every command goes through and replies as on a finite map. -/
theorem hashes_refine_maps (h : Reachable db ref) (cfg : Config) (cmd : Command)
    (hfits : Fits cfg db cmd) :
    ∃ db' reply, execute cfg db cmd = some (db', reply) ∧
      DbRepresents db' (Reference.step ref cmd).1 ∧ (Reference.step ref cmd).2.Accepts reply :=
  execute_agrees cmd h.represents hfits

/-- After `HSET k f 1`: the ziplist with the field, and with its value as a small integer. -/
def oneField : Db := setHash (initialDb fun _ => false) [107]
  (.ziplist [16, 0, 0, 0, 13, 0, 0, 0, 2, 0, 0, 1, 102, 3, 242, 255])

/-- `HINCRBY` replaces the value by one with another encoding. -/
theorem hashes_refine_maps_hincrby :
    ∃ ref, Reachable oneField ref ∧
      ∃ db' reply, execute ⟨512, 64⟩ oneField (.hincrby [107] [102] [55, 55]) = some (db', reply) ∧
        DbRepresents db' (Reference.step ref (.hincrby [107] [102] [55, 55])).1 ∧
        (Reference.step ref (.hincrby [107] [102] [55, 55])).2.Accepts reply := by
  have hset : Fits ⟨512, 64⟩ (initialDb fun _ => false) (.hset [107] [102] [49] []) := by
    refine ⟨by decide, ?_⟩
    rintro h ⟨⟩ -
    change textBytes (values ziplistNew) + argBytes [[102], [49]] < 2 ^ 32
    decide
  have hreach := @Reachable.step _ _ oneField _ _ (.integer 1) (.initial fun _ => false) hset rfl
  refine ⟨_, hreach, hashes_refine_maps hreach _ _ ⟨by decide, ?_⟩⟩
  rintro h ⟨⟩
  change textBytes (values [16, 0, 0, 0, 13, 0, 0, 0, 2, 0, 0, 1, 102, 3, 242, 255]) + _ < 2 ^ 32
  decide

/-! ### A value of 4 GB -/

section LongValue

variable {longValue : Bytes} (hlong : longValue.length = 2 ^ 32)

include hlong

theorem uintArg_longValue : uintArg longValue = [] := by
  rw [uintArg, hlong, Nat.mod_self, take_zero]

omit hlong in
/-- The ziplist that a field with this value makes. -/
def truncatedZiplist : Bytes := ziplistPush (ziplistPush ziplistNew [102] .tail) [] .tail

theorem hashTypeSet_longValue (cfg : Config) (hentries : 1 ≤ cfg.hashMaxZiplistEntries) :
    hashTypeSet cfg createHashObject [102] longValue = some (.ziplist truncatedZiplist, false) := by
  have hfind : findField ziplistNew [102] = none := by decide
  have hset : ziplistSet ziplistNew [102] longValue = some (truncatedZiplist, false) := by
    rw [ziplistSet, hfind, uintArg_longValue hlong]
    rfl
  have hlength : hashTypeLength (.ziplist truncatedZiplist) = (1, .ziplist truncatedZiplist) := rfl
  rw [createHashObject, hashTypeSet, hset]
  simp only [Option.bind_eq_bind, Option.bind_some, hlength]
  rw [if_neg (by omega)]
  rfl

theorem hset_longValue :
    execute ⟨512, 2 ^ 32⟩ (initialDb fun _ => false) (.hset [107] [102] longValue []) =
      some (setHash (initialDb fun _ => false) [107] (.ziplist truncatedZiplist), .integer 1) := by
  have hconvert : hashTypeTryConversion ⟨512, 2 ^ 32⟩ createHashObject [[102], longValue] =
      some createHashObject := by
    rw [createHashObject, hashTypeTryConversion, if_neg]
    simp [hlong]
  have hset := hashTypeSet_longValue hlong ⟨512, 2 ^ 32⟩ (by norm_num)
  have hlookup : hashTypeLookupWriteOrCreate (initialDb fun _ => false) [107] =
      some createHashObject := rfl
  rw [execute, hsetCommand, if_neg (by simp), hlookup]
  simp only [hconvert, hsetLoop, hset, Option.bind_eq_bind, Option.bind_some]
  rfl

theorem reference_longValue :
    (Reference.step (Reference.step (Reference.initialDb fun _ => false)
      (.hset [107] [102] longValue [])).1 (.hstrlen [107] [102])).2 = .exactly (.integer (2 ^ 32)) := by
  have hone : size (insert [102] longValue (∅ : Map)) ≠ 0 := size_insert_ne ∅ _ _
  simp [Reference.step, Reference.onMap, Reference.initialDb, setAll, Reference.store, hone,
    hlong]

end LongValue

/-- A value of 4 GB that is allowed in ziplists is stored as an empty string. -/
theorem hset_loses_long_value :
    ∃ value db', value.length = 2 ^ 32 ∧
      execute ⟨512, 2 ^ 32⟩ (initialDb fun _ => false) (.hset [107] [102] value []) =
        some (db', .integer 1) ∧
      execute ⟨512, 2 ^ 32⟩ db' (.hstrlen [107] [102]) = some (db', .integer 0) ∧
      (Reference.step (Reference.step (Reference.initialDb fun _ => false)
        (.hset [107] [102] value [])).1 (.hstrlen [107] [102])).2 = .exactly (.integer (2 ^ 32)) := by
  obtain ⟨value, hlong⟩ : ∃ value : Bytes, value.length = 2 ^ 32 :=
    ⟨List.replicate (2 ^ 32) 97, length_replicate⟩
  refine ⟨value, _, hlong, hset_longValue hlong, ?_, reference_longValue hlong⟩
  rfl

end Redis.Hashes
