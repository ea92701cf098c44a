import Redis.Keyspace.Tables

/-! The keyspace refines finite maps from keys to values with optional expire times, one for
each database, in which an entry is absent once its time is past. -/
namespace Redis.Keyspace

open ByteBuffer Util Shared Function Option List Bool

variable {A : Type}
variable {f : Db A → Option (Db A × Reply)} {entry : Entry A} {id : Nat}

/-! What the commands do to maps as they are seen at the time of the command. -/
namespace Reference

/-- Bind a key; with an expire time that is past already it is absent. -/
def put (c : Clock) (m : Map A) (key : Bytes) (entry : Entry A) : Map A :=
  update m key ((some entry).filter (Entry.live c.cached))

def remove (m : Map A) (key : Bytes) : Map A := update m key none

/-- The expire time that the options of `SET` ask for. -/
def askedExpire (c : Clock) (name : String) (o : SetOptions) : Except String (Option Int) :=
  match o.expire with
  | none => .ok none
  | some expire => (setMilliseconds name expire o.unit).map fun ms => some (setWhen c ms)

def set (c : Clock) (name : String) (o : SetOptions) (key val : Bytes) (okReply abortReply : Reply)
    (m : Map A) : Map A × Reply :=
  match askedExpire c name o with
  | .error err => (m, .error err)
  | .ok asked =>
    if (o.nx ∧ (m key).isSome) ∨ (o.xx ∧ (m key).isNone) then (m, abortReply)
    else
      let expire := asked.orElse fun _ => if o.keepttl then (m key).bind Prod.snd else none
      (put c m key (.string val, expire), okReply)

def setWithOptions (c : Clock) (key val : Bytes) (options : List Bytes) (m : Map A) : Map A × Reply :=
  match parseSetOptions options noOptions with
  | none => (m, .error syntaxerr)
  | some o => set c "set" o key val .ok .null m

def get (key : Bytes) (m : Map A) : Reply :=
  match m key with
  | none => .null
  | some (.string s, _) => .bulk s
  | some (.aggregate _, _) => .error wrongtypeerr

def getset (key val : Bytes) (m : Map A) : Map A × Reply :=
  match m key with
  | some (.aggregate _, _) => (m, .error wrongtypeerr)
  | _ => (update m key (some (.string val, none)), get key m)

def del (keys : List Bytes) (m : Map A) : Map A × Reply :=
  (fun key => if key ∈ keys then none else m key,
    .integer (keys.toFinset.filter fun key => (m key).isSome).card)

def existsKeys (keys : List Bytes) (m : Map A) : Reply :=
  .integer (keys.countP fun key => (m key).isSome)

def type (env : Env A) (key : Bytes) (m : Map A) : Reply :=
  .status (match m key with
    | none => "none"
    | some (.string _, _) => "string"
    | some (.aggregate a, _) => env.typeName a)

def rename (src dst : Bytes) (nx : Bool) (m : Map A) : Map A × Reply :=
  match m src with
  | none => (m, .error nokeyerr)
  | some entry =>
    if src = dst then (m, if nx then .integer 0 else .ok)
    else if (m dst).isSome ∧ nx then (m, .integer 0)
    else (remove (update m dst (some entry)) src, if nx then .integer 1 else .ok)

def expire (cmd : ExpireCommand) (c : Clock) (key param : Bytes) (m : Map A) : Map A × Reply :=
  match getLongLongFromObjectOrReply param none with
  | .error err => (m, .error err)
  | .ok n =>
    match m key with
    | none => (m, .integer 0)
    | some (val, _) =>
      let when_ := expireWhen (if cmd.relative then c.mstime 0 else 0) cmd.unit n
      if when_ ≤ c.mstime 1 then (remove m key, .integer 1)
      else (put c m key (val, some when_), .integer 1)

def ttl (c : Clock) (outputMs : Bool) (key : Bytes) (m : Map A) : Reply :=
  .integer (match m key with
    | none => -2
    | some (_, none) => -1
    | some (_, some when_) => ttlOf c outputMs when_)

def persist (key : Bytes) (m : Map A) : Map A × Reply :=
  match m key with
  | some (val, some _) => (update m key (some (val, none)), .integer 1)
  | _ => (m, .integer 0)

/-- Each live key that matches, once, in no particular order. -/
def ListsKeys (env : Env A) (pattern : Bytes) (m : Map A) (reply : Reply) : Prop :=
  ∃ keys : List Bytes, reply = .array keys ∧ keys.Nodup ∧
    ∀ key, key ∈ keys ↔ (m key).isSome ∧ (pattern = [42] ∨ env.stringmatch pattern key)

noncomputable def dbsize (m : Map A) : Reply := .integer {key | (m key).isSome}.ncard

def moveKey (src dst : Nat) (key : Bytes) (ms : Nat → Map A) : (Nat → Map A) × Reply :=
  match ms src key with
  | none => (ms, .integer 0)
  | some entry =>
    if (ms dst key).isSome then (ms, .integer 0)
    else
      (update (update ms dst (update (ms dst) key (some entry))) src
        (remove (ms src) key), .integer 1)

def index (dbnum : Nat) (id : Int) : Option Nat := if id < 0 ∨ id ≥ dbnum then none else some id.toNat

def move (dbnum src : Nat) (key dbid : Bytes) (ms : Nat → Map A) : (Nat → Map A) × Reply :=
  match string2ll dbid with
  | none => (ms, .error outofrangeerr)
  | some id =>
    if id < -2 ^ 31 ∨ id > 2 ^ 31 - 1 then (ms, .error outofrangeerr)
    else
      match index dbnum id with
      | none => (ms, .error outofrangeerr)
      | some dst => if src = dst then (ms, .error sameobjecterr) else moveKey src dst key ms

def swapdb (dbnum : Nat) (arg1 arg2 : Bytes) (ms : Nat → Map A) : (Nat → Map A) × Reply :=
  match getLongFromObjectOrReply arg1 (some "invalid first DB index") with
  | .error err => (ms, .error err)
  | .ok id1 =>
    match getLongFromObjectOrReply arg2 (some "invalid second DB index") with
    | .error err => (ms, .error err)
    | .ok id2 =>
      match index dbnum id1, index dbnum id2 with
      | some id1, some id2 => (ms ∘ Equiv.swap id1 id2, .ok)
      | _, _ => (ms, .error (addReplyError "DB index is out of range"))

def flushdb (id : Nat) (args : List Bytes) (ms : Nat → Map A) : (Nat → Map A) × Reply :=
  if flushFlagsOk args then (update ms id fun _ => none, .ok) else (ms, .error syntaxerr)

def flushall (dbnum : Nat) (args : List Bytes) (ms : Nat → Map A) : (Nat → Map A) × Reply :=
  if flushFlagsOk args then (fun id => if id < dbnum then fun _ => none else ms id, .ok)
  else (ms, .error syntaxerr)

/-- A command that concerns one database. -/
def onMap (ms : Nat → Map A) (id : Nat) (result : Map A × Reply) : (Nat → Map A) × Reply :=
  (update ms id result.1, result.2)

/-- The maps after a command and its reply. -/
def Step (env : Env A) (c : Clock) (dbnum : Nat) (ms : Nat → Map A) (id : Nat)
    (after : (Nat → Map A) × Reply) : Command → Prop
  | .set key val options => after = onMap ms id (setWithOptions c key val options (ms id))
  | .setnx key val => after = onMap ms id
      (set c "setnx" { noOptions with nx := true } key val (.integer 1) (.integer 0) (ms id))
  | .setex key expire val => after = onMap ms id
      (set c "setex" { noOptions with expire := some expire } key val .ok .null (ms id))
  | .psetex key expire val => after = onMap ms id
      (set c "psetex" { noOptions with expire := some expire, unit := .milliseconds } key val .ok .null
        (ms id))
  | .get key => after = (ms, get key (ms id))
  | .getset key val => after = onMap ms id (getset key val (ms id))
  | .del keys => after = onMap ms id (del keys (ms id))
  | .unlink keys => after = onMap ms id (del keys (ms id))
  | .existsKeys keys => after = (ms, existsKeys keys (ms id))
  | .type key => after = (ms, type env key (ms id))
  | .rename src dst => after = onMap ms id (rename src dst false (ms id))
  | .renamenx src dst => after = onMap ms id (rename src dst true (ms id))
  | .expire cmd key param => after = onMap ms id (expire cmd c key param (ms id))
  | .ttl key => after = (ms, ttl c false key (ms id))
  | .pttl key => after = (ms, ttl c true key (ms id))
  | .persist key => after = onMap ms id (persist key (ms id))
  | .keys pattern => after.1 = ms ∧ ListsKeys env pattern (ms id) after.2
  | .dbsize => after = (ms, dbsize (ms id))
  | .move key dbid => after = move dbnum id key dbid ms
  | .swapdb id1 id2 => after = swapdb dbnum id1 id2 ms
  | .flushdb args => after = flushdb id args ms
  | .flushall args => after = flushall dbnum args ms

end Reference

variable {now : Int} {m : Map A} {db : Db A} {key : Bytes} {c : Clock}

/-- A function on a database does what the reference does to the map that is seen. -/
def Refines (now : Int) (x : Option (Db A × Reply)) (result : Map A × Reply) : Prop :=
  ∃ db m, x = some (db, result.2) ∧ Holds db m ∧ m.at now = result.1

section Strings

variable (h : Holds db m)
include h

theorem Refines.of_holds (reply : Reply) : Refines now (some (db, reply)) (m.at now, reply) :=
  ⟨db, m, rfl, h, rfl⟩

theorem Holds.lookupIf (flag : Bool) (key : Bytes) (test : Option (Object A) → Bool) :
    ∃ db' m', lookupIf c flag db key test =
        some (db', flag && test ((m.at c.cached key).map Prod.fst)) ∧
      Holds db' m' ∧ m'.at c.cached = m.at c.cached := by
  cases flag with
  | false => exact ⟨db, m, rfl, h, rfl⟩
  | true =>
    obtain ⟨db', hrun, h'⟩ := h.lookupKeyWrite c.cached key
    refine ⟨db', m.settle c.cached key, ?_, h', Map.at_settle⟩
    rw [Keyspace.lookupIf, if_pos rfl, hrun]
    rfl

theorem setGenericLookup_refines (o : SetOptions) (key val : Bytes)
    {milliseconds : Option Int} (hms : ∀ ms, milliseconds = some ms → 0 ≤ setWhen c ms)
    (okReply abortReply : Reply) :
    Refines c.cached (setGenericLookup c db o key val milliseconds okReply abortReply)
      (if (o.nx ∧ (m.at c.cached key).isSome) ∨ (o.xx ∧ (m.at c.cached key).isNone) then
        (m.at c.cached, abortReply)
      else
        (Reference.put c (m.at c.cached) key (.string val,
          (milliseconds.map (setWhen c)).orElse fun _ =>
            if o.keepttl then (m.at c.cached key).bind Prod.snd else none), okReply)) := by
  obtain ⟨db₁, m₁, hnx, h₁, hm₁⟩ := h.lookupIf (c := c) o.nx key isSome
  simp only [setGenericLookup, hnx, bind_eq_bind, bind_some, isSome_map]
  by_cases hexists : o.nx ∧ (m.at c.cached key).isSome
  · rw [if_pos (by simpa using hexists), if_pos (.inl hexists), ← hm₁]
    exact .of_holds h₁ abortReply
  · obtain ⟨db₂, m₂, hxx, h₂, hm₂⟩ := h₁.lookupIf (c := c) o.xx key isNone
    rw [if_neg (by simpa using hexists), hxx, bind_some, isNone_map]
    rw [hm₁] at hm₂ ⊢
    by_cases hmissing : o.xx ∧ (m.at c.cached key).isNone
    · rw [if_pos (by simpa using hmissing), if_pos (.inr hmissing), ← hm₂]
      exact .of_holds h₂ abortReply
    · rw [if_neg (by simpa using hmissing), if_neg (not_or.mpr ⟨hexists, hmissing⟩), ← hm₂]
      obtain ⟨db₃, hset, h₃⟩ := h₂.genericSetKey c.cached key (.string val) o.keepttl true
      cases milliseconds with
      | none =>
        refine ⟨db₃, _, ?_, h₃, Map.at_update _⟩
        rw [setGenericWrite, hset]
        rfl
      | some ms =>
        obtain ⟨db₄, hexpire, h₄⟩ := h₃.setExpire (update_self _ _ _) (hms ms rfl)
        rw [update_idem] at h₄
        refine ⟨db₄, _, ?_, h₄, Map.at_update _⟩
        simp only [setGenericWrite, hset, hexpire, bind_eq_bind, bind_some]

/-- The expire times that the options of `SET` ask for are not negative. -/
def AsksNonneg (c : Clock) (name : String) (o : SetOptions) : Prop :=
  ∀ expire, o.expire = some expire → ∀ ms, setMilliseconds name expire o.unit = .ok ms →
    0 ≤ setWhen c ms

theorem setGenericCommand_refines {name : String} {o : SetOptions}
    (hasks : AsksNonneg c name o) (key val : Bytes) (okReply abortReply : Reply) :
    Refines c.cached (setGenericCommand c db name o key val okReply abortReply)
      (Reference.set c name o key val okReply abortReply (m.at c.cached)) := by
  rw [setGenericCommand, Reference.set, Reference.askedExpire]
  cases hexpire : o.expire with
  | none =>
    apply setGenericLookup_refines h o key val
    intro ms hms
    cases hms
  | some expire =>
    dsimp only
    cases hms : setMilliseconds name expire o.unit with
    | error err => exact .of_holds h _
    | ok ms =>
      apply setGenericLookup_refines h o key val
      intro ms' heq
      cases heq
      exact hasks expire hexpire ms hms

theorem getGenericCommand_eq (key : Bytes) :
    ∃ db', getGenericCommand c db key = some (db', Reference.get key (m.at c.cached),
        ((m.at c.cached key).map Prod.fst).all fun o => o matches .string _) ∧
      Holds db' (m.settle c.cached key) := by
  obtain ⟨db', hlookup, h'⟩ := h.lookupKeyRead c.cached key
  refine ⟨db', ?_, h'⟩
  rw [getGenericCommand, hlookup, Reference.get]
  cases hkey : m.at c.cached key with
  | none => rfl
  | some entry =>
    obtain ⟨o, expire⟩ := entry
    cases o with
    | string s | aggregate a => rfl

theorem getCommand_refines (key : Bytes) : Refines c.cached (getCommand c db key)
    (m.at c.cached, Reference.get key (m.at c.cached)) := by
  obtain ⟨db', hget, h'⟩ := getGenericCommand_eq (c := c) h key
  refine ⟨db', _, ?_, h', Map.at_settle⟩
  rw [getCommand, hget]
  rfl

theorem getsetCommand_refines (key val : Bytes) :
    Refines c.cached (getsetCommand c db key val) (Reference.getset key val (m.at c.cached)) := by
  obtain ⟨db₁, hget, h₁⟩ := getGenericCommand_eq (c := c) h key
  obtain ⟨db₂, hset, h₂⟩ := h₁.genericSetKey c.cached key (.string val) false true
  rw [Map.update_settle] at h₂
  have hafter : Map.at c.cached (update m key (some (Object.string val, none))) =
      update (m.at c.cached) key (some (Object.string val, none)) := Map.at_update _
  rw [getsetCommand, hget, Reference.getset]
  cases hkey : m.at c.cached key with
  | none =>
    refine ⟨db₂, _, ?_, h₂, hafter⟩
    simp [setKey, hset]
  | some entry =>
    obtain ⟨o, expire⟩ := entry
    cases o with
    | string s =>
      refine ⟨db₂, _, ?_, h₂, hafter⟩
      simp [setKey, hset]
    | aggregate a =>
      refine ⟨db₁, _, ?_, h₁, Map.at_settle⟩
      simp [Reference.get, hkey]

end Strings

section Generic

theorem Map.live_of_at (h : m.at now key = some entry) :
    (some entry).filter (Entry.live now) = some entry := by
  apply filter_some_pos
  exact (filter_eq_some_iff.mp h).2

variable (h : Holds db m)
include h

theorem typeCommand_refines (env : Env A) (key : Bytes) :
    Refines c.cached (typeCommand env.typeName c db key)
      (m.at c.cached, Reference.type env key (m.at c.cached)) := by
  obtain ⟨db', hlookup, h'⟩ := h.lookupKeyRead c.cached key
  refine ⟨db', _, ?_, h', Map.at_settle⟩
  rw [typeCommand, hlookup, Reference.type]
  cases m.at c.cached key with
  | none => rfl
  | some entry =>
    obtain ⟨o, expire⟩ := entry
    cases o with
    | string s | aggregate a => rfl

theorem ttlGenericCommand_refines (key : Bytes) (outputMs : Bool) :
    Refines c.cached (ttlGenericCommand c db key outputMs)
      (m.at c.cached, Reference.ttl c outputMs key (m.at c.cached)) := by
  obtain ⟨db', hlookup, h'⟩ := h.lookupKeyRead c.cached key
  refine ⟨db', _, ?_, h', Map.at_settle⟩
  rw [ttlGenericCommand, hlookup, Reference.ttl]
  have hexpire := h'.getExpire_eq key
  rw [Map.settle_self] at hexpire
  cases hkey : m.at c.cached key with
  | none => rfl
  | some entry =>
    obtain ⟨o, expire⟩ := entry
    rw [hkey] at hexpire
    cases expire with
    | none => simp [hexpire]
    | some when_ =>
      have hnonneg := h'.nonneg (Map.settle_self.trans hkey)
      have hne : when_ ≠ -1 := by omega
      simp [hexpire, hne]

section

variable (keys : List Bytes)

omit h in
/-- A key that is deleted counts once. -/
theorem card_filter_update (m : Map A) (keys : Finset Bytes) :
    ((insert key keys).filter fun k => (m k).isSome).card =
      (keys.filter fun k => (update m key none k).isSome).card +
        if (m key).isSome then 1 else 0 := by
  have herase : (keys.filter fun k => (update m key none k).isSome) =
      (keys.filter fun k => (m k).isSome).erase key := by
    ext k
    by_cases hk : k = key <;> simp [hk]
  rw [herase, Finset.filter_insert]
  split_ifs with hsome
  · rw [← Finset.erase_insert_eq_erase, Finset.card_erase_add_one (Finset.mem_insert_self ..)]
  · rw [Finset.erase_eq_of_notMem (by simp [hsome])]
    rfl

omit h in
theorem delLoop_refines (h : Holds db m) (numdel : Nat) :
    ∃ db' m', delLoop c db keys numdel = some (db', numdel +
        (keys.toFinset.filter fun key => (m.at c.cached key).isSome).card) ∧
      Holds db' m' ∧
      m'.at c.cached = fun key => if key ∈ keys then none else m.at c.cached key := by
  induction keys generalizing db m numdel with
  | nil => exact ⟨db, m, by simp [delLoop], h, by simp⟩
  | cons key keys ih =>
    obtain ⟨db₁, hexpire, h₁⟩ := h.expireIfNeeded c.cached key
    have h₂ := h₁.dbDelete key
    rw [Map.update_settle] at h₂
    have hat : Map.at c.cached (update m key none) =
        update (m.at c.cached) key none := Map.at_update _
    have hrest : (fun other => if other ∈ keys then none
        else update (m.at c.cached) key none other) =
        fun other => if other ∈ key :: keys then none else m.at c.cached other := by
      funext other
      by_cases hother : other = key
      · simp [hother]
      · simp [hother]
    rw [delLoop, hexpire]
    simp only [bind_eq_bind, bind_some, h₁.dbDelete_snd, Map.settle_self]
    rw [toFinset_cons, card_filter_update]
    split_ifs
    · obtain ⟨db', m', hloop, h', hm'⟩ := ih (h₂.signalModifiedKey key) (numdel + 1)
      rw [hat] at hm' hloop
      exact ⟨db', m', hloop.trans (by rw [add_right_comm, add_assoc]), h', hm'.trans hrest⟩
    · obtain ⟨db', m', hloop, h', hm'⟩ := ih h₂ numdel
      rw [hat] at hm' hloop
      exact ⟨db', m', hloop, h', hm'.trans hrest⟩

theorem delGenericCommand_refines :
    Refines c.cached (delGenericCommand c db keys) (Reference.del keys (m.at c.cached)) := by
  obtain ⟨db', m', hloop, h', hm'⟩ := delLoop_refines (c := c) keys h 0
  refine ⟨db', m', ?_, h', hm'⟩
  rw [delGenericCommand, hloop, zero_add]
  rfl

omit h in
theorem existsLoop_refines (h : Holds db m) (count : Nat) :
    ∃ db' m', existsLoop c db keys count = some (db', count +
        keys.countP fun key => (m.at c.cached key).isSome) ∧
      Holds db' m' ∧ m'.at c.cached = m.at c.cached := by
  induction keys generalizing db m count with
  | nil => exact ⟨db, m, rfl, h, rfl⟩
  | cons key keys ih =>
    obtain ⟨db₁, hlookup, h₁⟩ := h.lookupKeyRead c.cached key
    obtain ⟨db', m', hloop, h', hm'⟩ := ih h₁
      (if ((m.at c.cached key).map Prod.fst).isSome then count + 1 else count)
    rw [Map.at_settle] at hm' hloop
    refine ⟨db', m', ?_, h', hm'⟩
    rw [existsLoop, hlookup, bind_eq_bind, bind_some]
    dsimp only
    rw [hloop, countP_cons, isSome_map]
    split_ifs
    · congr 2
      omega
    · rfl

theorem existsCommand_refines : Refines c.cached (existsCommand c db keys)
    (m.at c.cached, Reference.existsKeys keys (m.at c.cached)) := by
  obtain ⟨db', m', hloop, h', hm'⟩ := existsLoop_refines (c := c) keys h 0
  refine ⟨db', m', ?_, h', hm'⟩
  rw [existsCommand, hloop, zero_add]
  rfl

end

/-- The expire time goes with a value that is added under another key. -/
theorem Holds.addWithExpire (hkey : m key = none) (entry : Entry A)
    (hnonneg : ∀ when_, entry.2 = some when_ → 0 ≤ when_) :
    ∃ db', addWithExpire db key entry.1 (entry.2.getD (-1)) = some db' ∧
      Holds db' (update m key (some entry)) := by
  obtain ⟨o, expire⟩ := entry
  obtain ⟨db₁, hadd, h₁⟩ := h.dbAdd hkey o
  cases expire with
  | none => exact ⟨db₁, by simp [Keyspace.addWithExpire, hadd], h₁⟩
  | some when_ =>
    have hwhen := hnonneg when_ rfl
    obtain ⟨db₂, hset, h₂⟩ := h₁.setExpire (update_self _ _ _) hwhen
    rw [update_idem] at h₂
    have hne : when_ ≠ -1 := by omega
    exact ⟨db₂, by simp [Keyspace.addWithExpire, hadd, hne, hset], h₂⟩

omit h in
/-- The expire time that is read for a key that is seen. -/
theorem Holds.expire_of_settle (h : Holds db (m.settle c.cached key))
    (hkey : m.at c.cached key = some entry) :
    getExpire db key = some (entry.2.getD (-1)) ∧ ∀ when_, entry.2 = some when_ → 0 ≤ when_ := by
  have hentry : m.settle c.cached key key = some entry := Map.settle_self.trans hkey
  refine ⟨by rw [h.getExpire_eq, hentry]; rfl, fun when_ hwhen => ?_⟩
  exact h.nonneg (hentry.trans (by rw [← hwhen]))

theorem renameGenericCommand_refines (src dst : Bytes) (nx : Bool) :
    Refines c.cached (renameGenericCommand c db src dst nx)
      (Reference.rename src dst nx (m.at c.cached)) := by
  obtain ⟨db₁, hsrc, h₁⟩ := h.lookupKeyWrite c.cached src
  have hat₁ : Map.at c.cached (m.settle c.cached src) = m.at c.cached := Map.at_settle
  rw [renameGenericCommand, hsrc, Reference.rename]
  cases hentry : m.at c.cached src with
  | none => exact ⟨db₁, _, rfl, h₁, hat₁⟩
  | some entry =>
    simp only [bind_eq_bind, bind_some, map_some]
    by_cases hsame : src = dst
    · simp only [if_pos hsame]
      exact ⟨db₁, _, rfl, h₁, hat₁⟩
    · obtain ⟨hexpire, hnonneg⟩ := h₁.expire_of_settle hentry
      obtain ⟨db₂, hdst, h₂⟩ := h₁.lookupKeyWrite c.cached dst
      have hat₂ : Map.at c.cached ((m.settle c.cached src).settle c.cached dst) =
          m.at c.cached := Map.at_settle.trans hat₁
      rw [if_neg hsame, if_neg hsame, hexpire, bind_some, hdst, bind_some, hat₁]
      simp only [isSome_map]
      by_cases hkeep : (m.at c.cached dst).isSome ∧ nx
      · rw [if_pos hkeep, if_pos hkeep]
        exact ⟨db₂, _, rfl, h₂, hat₂⟩
      · rw [if_neg hkeep, if_neg hkeep]
        -- Whether the destination was there or not, it is absent before the value is added.
        have hdelete : Holds (if (m.at c.cached dst).isSome then (dbDelete db₂ dst).1 else db₂)
            (update ((m.settle c.cached src).settle c.cached dst) dst none) := by
          split_ifs with hold
          · exact h₂.dbDelete dst
          · have hnone : (m.settle c.cached src).settle c.cached dst dst = none := by
              rw [Map.settle_self, hat₁]
              simpa using hold
            rw [← hnone, update_eq_self]
            exact h₂
        obtain ⟨db₃, hadd, h₃⟩ := hdelete.addWithExpire (update_self _ _ _) entry hnonneg
        have h₄ := h₃.dbDelete src
        rw [update_idem] at h₄
        rw [hadd, bind_some]
        refine ⟨_, _, rfl, (h₄.signalModifiedKey src).signalModifiedKey dst, ?_⟩
        rw [Map.at_update, Map.at_update, hat₂, Map.live_of_at hentry]
        rfl

theorem expireFamilyCommand_refines (cmd : ExpireCommand) (key param : Bytes)
    (hnonneg : ∀ n, getLongLongFromObjectOrReply param none = .ok n →
      0 ≤ expireWhen (if cmd.relative then c.mstime 0 else 0) cmd.unit n) :
    Refines c.cached (expireFamilyCommand cmd c db key param)
      (Reference.expire cmd c key param (m.at c.cached)) := by
  rw [expireFamilyCommand, expireGenericCommand, Reference.expire]
  cases hparam : getLongLongFromObjectOrReply param none with
  | error err => exact .of_holds h _
  | ok n =>
    have hwhen := hnonneg n hparam
    dsimp only
    generalize expireWhen (if cmd.relative then c.mstime 0 else 0) cmd.unit n = when_ at hwhen
    obtain ⟨db₁, hlookup, h₁⟩ := h.lookupKeyWrite c.cached key
    rw [hlookup]
    cases hkey : m.at c.cached key with
    | none => exact ⟨db₁, _, rfl, h₁, Map.at_settle⟩
    | some entry =>
      have hentry : m.settle c.cached key key = some entry := Map.settle_self.trans hkey
      simp only [bind_eq_bind, bind_some, map_some, isNone_some,
        false_eq_true, if_false]
      by_cases hpast : when_ ≤ c.mstime 1
      · have h₂ := (h₁.dbDelete key).signalModifiedKey key
        rw [Map.update_settle] at h₂
        rw [if_pos hpast, if_pos hpast, if_pos (by rw [h₁.dbDelete_snd, hentry]; rfl)]
        exact ⟨_, _, rfl, h₂, Map.at_update _⟩
      · obtain ⟨db₂, hset, h₂⟩ := h₁.setExpire hentry hwhen
        rw [Map.update_settle] at h₂
        rw [if_neg hpast, if_neg hpast, hset, bind_some]
        exact ⟨_, _, rfl, h₂.signalModifiedKey key, Map.at_update _⟩

theorem persistCommand_refines (key : Bytes) :
    Refines c.cached (persistCommand c db key) (Reference.persist key (m.at c.cached)) := by
  obtain ⟨db₁, hlookup, h₁⟩ := h.lookupKeyWrite c.cached key
  rw [persistCommand, hlookup, Reference.persist]
  cases hkey : m.at c.cached key with
  | none => exact ⟨db₁, _, rfl, h₁, Map.at_settle⟩
  | some entry =>
    obtain ⟨o, expire⟩ := entry
    obtain ⟨db₂, hremove, h₂⟩ := h₁.removeExpire (Map.settle_self.trans hkey)
    have hat : Map.at c.cached (update m key (some (o, none))) =
        update (m.at c.cached) key (some (o, none)) := Map.at_update _
    rw [Map.update_settle] at h₂
    cases expire with
    | none =>
      have hsame : update (m.at c.cached) key (some (o, none)) = m.at c.cached := by
        rw [← hkey, update_eq_self]
      exact ⟨db₂, _, by simp [hremove], h₂, hat.trans hsame⟩
    | some when_ =>
      exact ⟨_, _, by simp [hremove], h₂.signalModifiedKey key, hat⟩

theorem keysLoop_eq (env : Env A) (pattern : Bytes) (keys : List Bytes) :
    keysLoop env.stringmatch c db pattern keys = some (keys.filter fun key =>
      decide (pattern = [42] ∨ env.stringmatch pattern key) &&
        !(m key).any fun entry => !entry.live c.cached) := by
  induction keys with
  | nil => rfl
  | cons key keys ih =>
    rw [keysLoop, filter_cons, h.keyIsExpired_eq]
    by_cases hmatch : pattern = [42] ∨ env.stringmatch pattern key
    · rw [if_pos hmatch, decide_eq_true hmatch]
      cases (m key).any fun entry => !entry.live c.cached with
      | true | false => simp [ih]
    · rw [if_neg hmatch, decide_eq_false hmatch, ih]
      rfl

omit h in
theorem isSome_at_iff (key : Bytes) :
    (m.at now key).isSome ↔ (m key).isSome ∧ ((m key).any fun entry => !entry.live now) = false := by
  rw [Map.at]
  cases m key with
  | none => simp
  | some entry => simp [isSome_filter]

theorem Holds.mem_keys (key : Bytes) : key ∈ db.dict.keys ↔ (m key).isSome := by
  rw [← AList.mem_keys, ← AList.lookup_isSome, h.isSome_eq]

theorem keysCommand_refines (env : Env A) (pattern : Bytes) :
    ∃ reply, keysCommand env.stringmatch c db pattern = some (db, reply) ∧
      Reference.ListsKeys env pattern (m.at c.cached) reply := by
  refine ⟨_, by rw [keysCommand, keysLoop_eq h]; rfl, _, rfl, ?_, ?_⟩
  · exact db.dict.keys_nodup.filter _
  · intro key
    rw [mem_filter, h.mem_keys, isSome_at_iff, and_eq_true, decide_eq_true_eq,
      not_eq_true']
    tauto

/-- The size of the main table is that of the map only if no entry in it is past its time. -/
theorem dbsizeCommand_eq
    (hlive : ∀ key when_, db.expires.lookup key = some when_ → c.cached ≤ when_) :
    dbsizeCommand db = (db, Reference.dbsize (m.at c.cached)) := by
  have hset : {key | (m.at c.cached key).isSome} = (db.dict.keys.toFinset : Set Bytes) := by
    ext key
    rw [Set.mem_ofPred_eq, coe_toFinset, Set.mem_ofPred_eq, h.mem_keys, isSome_at_iff]
    refine and_iff_left_of_imp fun hsome => ?_
    obtain ⟨⟨o, expire⟩, hkey⟩ := isSome_iff_exists.mp hsome
    have hexpire := h.expires_eq key
    rw [hkey] at hexpire ⊢
    cases expire with
    | none => rfl
    | some when_ => simp [Entry.live, hlive key when_ hexpire]
  rw [dbsizeCommand, Reference.dbsize, hset, Set.ncard_coe_finset,
    toFinset_card_of_nodup db.dict.keys_nodup]

end Generic

section Databases

variable {s : Server A} {ms : Nat → Map A}

/-- Each database holds its map. -/
def ServerHolds (s : Server A) (ms : Nat → Map A) : Prop := ∀ id, Holds (s.db id) (ms id)

/-- The maps as they are seen at a time. -/
def look (now : Int) (ms : Nat → Map A) : Nat → Map A := fun id => (ms id).at now

theorem look_update (now : Int) (id : Nat) (m : Map A) :
    look now (update ms id m) = update (look now ms) id (m.at now) :=
  comp_update (Map.at now) ms id m

theorem look_apply (now : Int) (id : Nat) : look now ms id = (ms id).at now := rfl

section

variable (h : ServerHolds s ms)
include h

theorem ServerHolds.setDb (id : Nat) (hdb : Holds db m) :
    ServerHolds (s.setDb id db) (update ms id m) := by
  intro other
  rcases eq_or_ne other id with rfl | hother
  · simpa [Server.setDb] using hdb
  · simpa [Server.setDb, update_of_ne hother] using h other

/-- A command on the server does what the reference does to the maps that are seen. -/
def ServerRefines (now : Int) (s : Server A) (x : Option (Server A × Reply))
    (after : (Nat → Map A) × Reply) : Prop :=
  ∃ s' ms', x = some (s', after.2) ∧ ServerHolds s' ms' ∧ look now ms' = after.1 ∧
    s'.dbnum = s.dbnum

theorem ServerRefines.of_holds (reply : Reply) :
    ServerRefines now s (some (s, reply)) (look now ms, reply) :=
  ⟨s, ms, rfl, h, rfl, rfl⟩

theorem onDb_refines {result : Map A × Reply} (hf : Refines now (f (s.db id)) result) :
    ServerRefines now s (onDb s id f) (Reference.onMap (look now ms) id result) := by
  obtain ⟨db, m, hrun, hdb, hm⟩ := hf
  refine ⟨s.setDb id db, update ms id m, ?_, h.setDb id hdb, ?_, rfl⟩
  · rw [onDb, hrun]
    rfl
  · rw [look_update, hm]
    rfl

/-- A command that leaves the map as it is seen. -/
theorem onDb_reads {reply : Reply} (hf : Refines now (f (s.db id)) ((ms id).at now, reply)) :
    ServerRefines now s (onDb s id f) (look now ms, reply) := by
  have hsame : Reference.onMap (look now ms) id ((ms id).at now, reply) = (look now ms, reply) := by
    rw [Reference.onMap]
    congr 1
    exact update_eq_self id (look now ms)
  rw [← hsame]
  exact onDb_refines h hf

omit h in
theorem setDb_self (s : Server A) (id : Nat) (db : Db A) : (s.setDb id db).db id = db :=
  update_self _ _ _

omit h in
theorem setDb_of_ne (s : Server A) {other : Nat} (hne : other ≠ id) (db : Db A) :
    (s.setDb id db).db other = s.db other :=
  update_of_ne hne _ _

theorem moveKey_refines {src dst : Nat} (hne : src ≠ dst) (key : Bytes) :
    ServerRefines c.cached s (moveKey c s src dst key)
      (Reference.moveKey src dst key (look c.cached ms)) := by
  obtain ⟨db₁, hsrc, h₁⟩ := (h src).lookupKeyWrite c.cached key
  obtain ⟨db₂, hdst, h₂⟩ := (h dst).lookupKeyWrite c.cached key
  have hlook₁ : look c.cached (update ms src ((ms src).settle c.cached key)) =
      look c.cached ms := by
    rw [look_update, Map.at_settle]
    exact update_eq_self src (look c.cached ms)
  have hlook₂ : look c.cached (update (update ms src
      ((ms src).settle c.cached key)) dst ((ms dst).settle c.cached key)) = look c.cached ms := by
    rw [look_update, hlook₁, Map.at_settle]
    exact update_eq_self dst (look c.cached ms)
  have hs₁ := h.setDb src h₁
  have hs₂ := hs₁.setDb dst h₂
  rw [moveKey, hsrc, Reference.moveKey, look_apply, look_apply]
  simp only [bind_eq_bind, bind_some, setDb_self, setDb_of_ne s hne.symm]
  cases hentry : (ms src).at c.cached key with
  | none => exact ⟨_, _, rfl, hs₁, hlook₁, rfl⟩
  | some entry =>
    obtain ⟨hexpire, hnonneg⟩ := h₁.expire_of_settle hentry
    simp only [map_some, hexpire, bind_some, hdst, isSome_map]
    split_ifs with hold
    · exact ⟨_, _, rfl, hs₂, hlook₂, rfl⟩
    · have hnone : (ms dst).settle c.cached key key = none := by
        rw [Map.settle_self]
        simpa using hold
      obtain ⟨db₃, hadd, h₃⟩ := h₂.addWithExpire hnone entry hnonneg
      have hs₃ := hs₂.setDb dst (h₃.signalModifiedKey key)
      have hs₄ := hs₃.setDb src ((h₁.dbDelete key).signalModifiedKey key)
      rw [hadd, bind_some, setDb_of_ne _ hne, setDb_of_ne _ hne, setDb_self]
      refine ⟨_, _, rfl, hs₄, ?_, rfl⟩
      rw [look_update, look_update, hlook₂, Map.at_update, Map.at_update, Map.at_settle,
        Map.at_settle, Map.live_of_at hentry]
      rfl

theorem moveCommand_refines (src : Nat) (key dbid : Bytes) :
    ServerRefines c.cached s (moveCommand c s src key dbid)
      (Reference.move s.dbnum src key dbid (look c.cached ms)) := by
  rw [moveCommand, Reference.move]
  cases string2ll dbid with
  | none => exact .of_holds h _
  | some id =>
    dsimp only
    have hindex : s.index id = Reference.index s.dbnum id := rfl
    rw [hindex]
    split_ifs
    · exact .of_holds h _
    · cases Reference.index s.dbnum id with
      | none => exact .of_holds h _
      | some dst =>
        dsimp only
        split_ifs with hsame
        · exact .of_holds h _
        · exact moveKey_refines h hsame key

theorem dbSwapDatabases_holds (id1 id2 : Nat) :
    ServerHolds (dbSwapDatabases s id1 id2) (ms ∘ Equiv.swap id1 id2) := by
  by_cases hsame : id1 = id2
  · rw [dbSwapDatabases, if_pos hsame, hsame, Equiv.swap_self]
    exact h
  · intro id
    rw [dbSwapDatabases, if_neg hsame, comp_apply]
    by_cases h2 : id = id2
    · rw [h2, setDb_self, Equiv.swap_apply_right]
      exact ⟨(h id1).entry, (h id1).expires_sub, (h id1).expires_nonneg⟩
    · rw [setDb_of_ne _ h2]
      by_cases h1 : id = id1
      · rw [h1, setDb_self, Equiv.swap_apply_left]
        exact ⟨(h id2).entry, (h id2).expires_sub, (h id2).expires_nonneg⟩
      · rw [setDb_of_ne _ h1, Equiv.swap_apply_of_ne_of_ne h1 h2]
        exact h id

theorem swapdbCommand_refines (arg1 arg2 : Bytes) :
    ServerRefines now s (some (swapdbCommand s arg1 arg2))
      (Reference.swapdb s.dbnum arg1 arg2 (look now ms)) := by
  rw [swapdbCommand, Reference.swapdb]
  cases getLongFromObjectOrReply arg1 (some "invalid first DB index") with
  | error err => exact .of_holds h _
  | ok id1 =>
    cases getLongFromObjectOrReply arg2 (some "invalid second DB index") with
    | error err => exact .of_holds h _
    | ok id2 =>
      dsimp only
      have hindex : ∀ id, s.index id = Reference.index s.dbnum id := fun id => rfl
      rw [hindex, hindex]
      cases Reference.index s.dbnum id1 with
      | none => exact .of_holds h _
      | some id1 =>
        cases Reference.index s.dbnum id2 with
        | none => exact .of_holds h _
        | some id2 =>
          refine ⟨_, _, rfl, dbSwapDatabases_holds h id1 id2, rfl, ?_⟩
          rw [dbSwapDatabases]
          split_ifs
          · rfl
          · rfl

omit h in
theorem Map.at_empty : Map.at now (fun _ => none : Map A) = fun _ => none := by
  funext key
  rfl

theorem flushdbCommand_refines (id : Nat) (args : List Bytes) :
    ServerRefines now s (some (flushdbCommand s id args))
      (Reference.flushdb id args (look now ms)) := by
  rw [flushdbCommand, Reference.flushdb]
  split_ifs
  · refine ⟨_, _, rfl, h.setDb id (Holds.emptyDb (s.db id)), ?_, rfl⟩
    rw [look_update, Map.at_empty]
  · exact .of_holds h _

theorem flushallCommand_refines (args : List Bytes) :
    ServerRefines now s (some (flushallCommand s args))
      (Reference.flushall s.dbnum args (look now ms)) := by
  rw [flushallCommand, Reference.flushall]
  split_ifs
  · refine ⟨_, fun id => if id < s.dbnum then fun _ => none else ms id, rfl, ?_, ?_, rfl⟩
    · intro id
      by_cases hid : id < s.dbnum
      · simpa [hid] using Holds.emptyDb (s.db id)
      · simpa [hid] using h id
    · funext id
      by_cases hid : id < s.dbnum
      · simp [look, hid, Map.at_empty]
      · simp [look, hid]
  · exact .of_holds h _

end

/-- The expire times that a command gives are not negative, and `DBSIZE` comes when no entry
is past its time. -/
def Allowed (c : Clock) (s : Server A) (id : Nat) : Command → Prop
  | .set _ _ options => ∀ o, parseSetOptions options noOptions = some o → AsksNonneg c "set" o
  | .setex _ expire _ => AsksNonneg c "setex" { noOptions with expire := some expire }
  | .psetex _ expire _ =>
    AsksNonneg c "psetex" { noOptions with expire := some expire, unit := .milliseconds }
  | .expire cmd _ param => ∀ n, getLongLongFromObjectOrReply param none = .ok n →
      0 ≤ expireWhen (if cmd.relative then c.mstime 0 else 0) cmd.unit n
  | .dbsize => ∀ key when_, (s.db id).expires.lookup key = some when_ → c.cached ≤ when_
  | _ => True

theorem setCommand_refines (h : Holds db m) (key val : Bytes) (options : List Bytes)
    (hasks : ∀ o, parseSetOptions options noOptions = some o → AsksNonneg c "set" o) :
    Refines c.cached (setCommand c db key val options)
      (Reference.setWithOptions c key val options (m.at c.cached)) := by
  rw [setCommand, Reference.setWithOptions]
  cases hparse : parseSetOptions options noOptions with
  | none => exact .of_holds h _
  | some o => exact setGenericCommand_refines h (hasks o hparse) key val .ok .null

/-- Every command runs through, and does what it does in the reference. -/
theorem execute_refines (env : Env A) (h : ServerHolds s ms) (id : Nat) {cmd : Command}
    (hallowed : Allowed c s id cmd) :
    ∃ after, ServerRefines c.cached s (execute env c s id cmd) after ∧
      Reference.Step env c s.dbnum (look c.cached ms) id after cmd := by
  rw [execute.eq_def]
  cases cmd with
  | set key val options =>
    exact ⟨_, onDb_refines h (setCommand_refines (h id) key val options hallowed), rfl⟩
  | setnx key val =>
    have hasks : AsksNonneg c "setnx" { noOptions with nx := true } := by
      intro expire hexpire
      cases hexpire
    exact ⟨_, onDb_refines h (setGenericCommand_refines (h id) hasks key val _ _), rfl⟩
  | setex key expire val | psetex key expire val =>
    exact ⟨_, onDb_refines h (setGenericCommand_refines (h id) hallowed key val _ _), rfl⟩
  | get key => exact ⟨_, onDb_reads h (getCommand_refines (h id) key), rfl⟩
  | getset key val => exact ⟨_, onDb_refines h (getsetCommand_refines (h id) key val), rfl⟩
  | del keys | unlink keys => exact ⟨_, onDb_refines h (delGenericCommand_refines (h id) keys), rfl⟩
  | existsKeys keys => exact ⟨_, onDb_reads h (existsCommand_refines (h id) keys), rfl⟩
  | type key => exact ⟨_, onDb_reads h (typeCommand_refines (h id) env key), rfl⟩
  | rename src dst | renamenx src dst =>
    exact ⟨_, onDb_refines h (renameGenericCommand_refines (h id) src dst _), rfl⟩
  | expire cmd key param =>
    exact ⟨_, onDb_refines h (expireFamilyCommand_refines (h id) cmd key param hallowed), rfl⟩
  | ttl key | pttl key => exact ⟨_, onDb_reads h (ttlGenericCommand_refines (h id) key _), rfl⟩
  | persist key => exact ⟨_, onDb_refines h (persistCommand_refines (h id) key), rfl⟩
  | keys pattern =>
    obtain ⟨reply, hrun, hlists⟩ := keysCommand_refines (c := c) (h id) env pattern
    exact ⟨(look c.cached ms, reply), onDb_reads h ⟨_, _, hrun, h id, rfl⟩, rfl, hlists⟩
  | dbsize =>
    have hrun : some (dbsizeCommand (s.db id)) =
        some (s.db id, Reference.dbsize ((ms id).at c.cached)) :=
      congrArg some (dbsizeCommand_eq (h id) hallowed)
    exact ⟨_, onDb_reads h ⟨_, _, hrun, h id, rfl⟩, rfl⟩
  | move key dbid => exact ⟨_, moveCommand_refines h id key dbid, rfl⟩
  | swapdb id1 id2 => exact ⟨_, swapdbCommand_refines h id1 id2, rfl⟩
  | flushdb args => exact ⟨_, flushdbCommand_refines h id args, rfl⟩
  | flushall args => exact ⟨_, flushallCommand_refines h args, rfl⟩

end Databases

section Runs

/-- A server with empty databases. -/
def Server.empty (dbnum : Nat) : Server A := ⟨dbnum, fun _ => ⟨∅, ∅, []⟩⟩

/-- The states that commands reach, at any times and from any databases. -/
inductive Reachable (env : Env A) : Server A → Prop where
  | empty (dbnum : Nat) : Reachable env (.empty dbnum)
  | step {s s' : Server A} {c : Clock} {id : Nat} {cmd : Command} {reply : Reply}
      (prior : Reachable env s) (hallowed : Allowed c s id cmd)
      (hrun : execute env c s id cmd = some (s', reply)) : Reachable env s'

/-- The entries of a database. -/
def Db.stored (db : Db A) : Map A := fun key =>
  (db.dict.lookup key).map fun val => (val, db.expires.lookup key)

/-- What a server holds, as it is seen at a time. -/
def Server.view (now : Int) (s : Server A) : Nat → Map A := fun id => (s.db id).stored.at now

theorem Holds.stored (h : Holds db m) : m = db.stored := funext h.entry

theorem ServerHolds.view {s : Server A} {ms : Nat → Map A} (h : ServerHolds s ms) :
    look now ms = s.view now := by
  funext id
  rw [look, (h id).stored]
  rfl

theorem Reachable.holds {env : Env A} {s : Server A} (h : Reachable env s) :
    ∃ ms, ServerHolds s ms := by
  induction h with
  | empty dbnum => exact ⟨fun _ _ => none, fun id => Holds.emptyDb ⟨∅, ∅, []⟩⟩
  | step prior hallowed hrun ih =>
    obtain ⟨ms, hms⟩ := ih
    obtain ⟨after, ⟨s', ms', hrun', hms', -⟩, -⟩ := execute_refines env hms _ hallowed
    rw [hrun] at hrun'
    cases hrun'
    exact ⟨ms', hms'⟩

theorem stored_finite (db : Db A) (now : Int) : {key | (db.stored.at now key).isSome}.Finite := by
  apply (db.dict.keys.toFinset.finite_toSet).subset
  intro key hkey
  rw [coe_toFinset, Set.mem_ofPred_eq, ← AList.mem_keys, ← AList.lookup_isSome]
  have hsome := (isSome_at_iff key).mp hkey
  simpa [Db.stored] using hsome.1

/-- In every state reached the databases are finite maps at every time, entries only go away
as time passes, and every command runs through without a failed assertion and does to the
maps and replies what the reference does. -/
theorem keyspace_refines_maps (env : Env A) (s : Server A) (hs : Reachable env s) :
    (∀ id key, ((s.db id).expires.lookup key).isSome → ((s.db id).dict.lookup key).isSome) ∧
    (∀ now id, {key | (s.view now id key).isSome}.Finite) ∧
    (∀ now later id, now ≤ later → s.view later id = (s.view now id).at later) ∧
    ∀ c id cmd, Allowed c s id cmd → ∃ s' reply, execute env c s id cmd = some (s', reply) ∧
      Reference.Step env c s.dbnum (s.view c.cached) id (s'.view c.cached, reply) cmd := by
  obtain ⟨ms, hms⟩ := hs.holds
  refine ⟨?_, ?_, ?_, ?_⟩
  · intro id key
    exact (hms id).expires_sub key
  · intro now id
    exact stored_finite (s.db id) now
  · intro now later id hle
    exact (Map.at_at hle).symm
  · intro c id cmd hallowed
    obtain ⟨⟨after, reply⟩, ⟨s', ms', hrun, hms', hlook, -⟩, hstep⟩ :=
      execute_refines env hms id hallowed
    refine ⟨s', reply, hrun, ?_⟩
    have hafter : after = s'.view c.cached := hlook.symm.trans hms'.view
    rwa [hms.view, hafter] at hstep

def plainEnv : Env Unit := ⟨fun _ => "list", fun _ _ => false⟩

/-- `SET k v EX 100` at one second, and `GET k` when the key is past its time. -/
theorem keyspace_refines_maps_expired :
    ∃ s set s' reply, execute plainEnv ⟨1000, fun _ => 1000⟩ (.empty 16) 0
        (.set [107] [118] [exName, [49, 48, 48]]) = some (s, set) ∧
      execute plainEnv ⟨200000, fun _ => 200000⟩ s 0 (.get [107]) = some (s', reply) ∧
      Reference.Step plainEnv ⟨200000, fun _ => 200000⟩ s.dbnum (s.view 200000) 0
        (s'.view 200000, reply) (.get [107]) := by
  have hallowed : Allowed ⟨1000, fun _ => 1000⟩ (Server.empty (A := Unit) 16) 0
      (.set [107] [118] [exName, [49, 48, 48]]) := by
    intro o ho expire hexpire ms hms
    have hparse : parseSetOptions [exName, [49, 48, 48]] noOptions =
        some ⟨false, false, true, false, false, some [49, 48, 48], .seconds⟩ := by decide
    cases ho
    cases hexpire
    have hvalue : setMilliseconds "set" [49, 48, 48] .seconds = .ok 100000 := by decide
    rw [hvalue] at hms
    cases hms
    decide
  obtain ⟨s, set, hset, -⟩ :=
    (keyspace_refines_maps plainEnv (.empty 16) (.empty 16)).2.2.2 _ 0 _ hallowed
  obtain ⟨s', reply, hget, hstep⟩ := (keyspace_refines_maps plainEnv s
    (.step (.empty 16) hallowed hset)).2.2.2 ⟨200000, fun _ => 200000⟩ 0 (.get [107]) trivial
  exact ⟨s, set, s', reply, hset, hget, hstep⟩

/-- `SET k v EX 9223372036854775` gives the key a time that is long past, and yet it is there. -/
theorem set_ex_past_key_is_read :
    ((execute plainEnv ⟨1600000000000, fun _ => 1600000000000⟩ (.empty 16) 0
        (.set [107] [118] [exName, ll2string 9223372036854775])).map fun r =>
      (((r.1.db 0).expires.lookup [107]).any fun when_ => decide (when_ < 1600000000000),
        (execute plainEnv ⟨1600000000000, fun _ => 1600000000000⟩ r.1 0 (.get [107])).map Prod.snd)) =
      some (true, some (.bulk [118])) := by
  decide +kernel

end Runs

end Redis.Keyspace
