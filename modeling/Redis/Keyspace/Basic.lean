import Redis.Shared

/-! The keyspace of `db.c` on a master: two tables for each database, one with the values
and one with the expire times, and the commands on whole keys. A result `none` is a failed
assertion. -/
namespace Redis.Keyspace

open ByteBuffer Util Shared

/-- A value: a string, or a value of another type. -/
inductive Object (A : Type) where
  | string (s : Bytes)
  | aggregate (a : A)
deriving DecidableEq

/-- A hash table with keys of the keyspace. -/
abbrev Table (β : Type) : Type := AList fun _ : Bytes => β

/-- The keys for which `signalModifiedKey` is called stand next to the tables. -/
structure Db (A : Type) where
  dict : Table (Object A)
  expires : Table Int
  signaled : List Bytes

structure Server (A : Type) where
  dbnum : Nat
  db : Nat → Db A

/-- The time that is cached for a command, and what its calls of `mstime` return. -/
structure Clock where
  cached : Int
  mstime : Nat → Int

inductive Reply where
  | ok
  | null
  | integer (n : Int)
  | bulk (s : Bytes)
  | array (elements : List Bytes)
  | status (s : String)
  | error (err : String)
deriving DecidableEq, Repr


/-- Arithmetic on `long long` wraps around. -/
def wrap64 (v : Int) : Int := v.bmod (2 ^ 64)

section Tables

variable {A : Type}

def signalModifiedKey (db : Db A) (key : Bytes) : Db A := { db with signaled := db.signaled ++ [key] }

/-- Minus one is no expire time. -/
def getExpire (db : Db A) (key : Bytes) : Option Int :=
  match db.expires.lookup key with
  | none => some (-1)
  | some when_ => if (db.dict.lookup key).isSome then some when_ else none

def keyIsExpired (now : Int) (db : Db A) (key : Bytes) : Option Bool := do
  let when_ ← getExpire db key
  if when_ < 0 then some false else some (now > when_)

/-- Both `dbSyncDelete` and `dbAsyncDelete`; the result says whether the key was there. -/
def dbDelete (db : Db A) (key : Bytes) : Db A × Bool :=
  ({ db with
      dict := db.dict.erase key
      expires := db.expires.erase key }, (db.dict.lookup key).isSome)

def expireIfNeeded (now : Int) (db : Db A) (key : Bytes) : Option (Db A × Bool) := do
  if ← keyIsExpired now db key then
    let (db, deleted) := dbDelete db key
    some (if deleted then signalModifiedKey db key else db, deleted)
  else some (db, false)

def lookupKeyRead (now : Int) (db : Db A) (key : Bytes) : Option (Db A × Option (Object A)) := do
  let (db, expired) ← expireIfNeeded now db key
  some (db, if expired then none else db.dict.lookup key)

def lookupKeyWrite (now : Int) (db : Db A) (key : Bytes) : Option (Db A × Option (Object A)) := do
  let (db, _) ← expireIfNeeded now db key
  some (db, db.dict.lookup key)

def dbAdd (db : Db A) (key : Bytes) (val : Object A) : Option (Db A) :=
  if (db.dict.lookup key).isSome then none
  else some { db with dict := db.dict.insert key val }

def dbOverwrite (db : Db A) (key : Bytes) (val : Object A) : Option (Db A) :=
  if (db.dict.lookup key).isSome then some { db with dict := db.dict.insert key val }
  else none

def removeExpire (db : Db A) (key : Bytes) : Option (Db A × Bool) :=
  if (db.dict.lookup key).isSome then
    some ({ db with expires := db.expires.erase key }, (db.expires.lookup key).isSome)
  else none

def setExpire (db : Db A) (key : Bytes) (when_ : Int) : Option (Db A) :=
  if (db.dict.lookup key).isSome then
    some { db with expires := db.expires.insert key when_ }
  else none

def genericSetKey (now : Int) (db : Db A) (key : Bytes) (val : Object A) (keepttl signal : Bool) :
    Option (Db A) := do
  let (db, old) ← lookupKeyWrite now db key
  let db ← (if old.isNone then dbAdd db key val else dbOverwrite db key val)
  let db ← (if keepttl then some db else (removeExpire db key).map Prod.fst)
  some (if signal then signalModifiedKey db key else db)

def setKey (now : Int) (db : Db A) (key : Bytes) (val : Object A) : Option (Db A) :=
  genericSetKey now db key val false true

end Tables

section Strings

variable {A : Type}

/-- The units of expire arguments. -/
inductive TimeUnit where
  | seconds
  | milliseconds
deriving DecidableEq, Repr

/-- The flags of `SET`, with the expire argument and its unit. -/
structure SetOptions where
  nx : Bool
  xx : Bool
  ex : Bool
  px : Bool
  keepttl : Bool
  expire : Option Bytes
  unit : TimeUnit
deriving DecidableEq, Repr

def noOptions : SetOptions := ⟨false, false, false, false, false, none, .seconds⟩

def nxName : Bytes := [110, 120]

def xxName : Bytes := [120, 120]

def exName : Bytes := [101, 120]

def pxName : Bytes := [112, 120]

def keepttlName : Bytes := [107, 101, 101, 112, 116, 116, 108]

/-- The loop of `setCommand` over its options; none is a syntax error. -/
def parseSetOptions : List Bytes → SetOptions → Option SetOptions
  | [], o => some o
  | a :: rest, o =>
    if isName a nxName ∧ o.xx = false then parseSetOptions rest { o with nx := true }
    else if isName a xxName ∧ o.nx = false then parseSetOptions rest { o with xx := true }
    else if isName a keepttlName ∧ o.ex = false ∧ o.px = false then
      parseSetOptions rest { o with keepttl := true }
    else
      match rest with
      | [] => none
      | next :: rest =>
        if isName a exName ∧ o.keepttl = false ∧ o.px = false then
          parseSetOptions rest { o with ex := true, unit := .seconds, expire := some next }
        else if isName a pxName ∧ o.keepttl = false ∧ o.ex = false then
          parseSetOptions rest { o with px := true, unit := .milliseconds, expire := some next }
        else none

/-- The expire argument of `SET` in milliseconds; the name of the command is in the error. -/
def setMilliseconds (name : String) (expire : Bytes) (unit : TimeUnit) : Except String Int := do
  let milliseconds ← getLongLongFromObjectOrReply expire none
  if milliseconds ≤ 0 then .error (addReplyError ("invalid expire time in " ++ name))
  else .ok (if unit = .seconds then wrap64 (milliseconds * 1000) else milliseconds)

/-- The expire time that `SET` stores. -/
def setWhen (c : Clock) (milliseconds : Int) : Int := wrap64 (c.mstime 0 + milliseconds)

/-- What comes after the checks of `setGenericCommand`. -/
def setGenericWrite (c : Clock) (db : Db A) (key val : Bytes) (keepttl : Bool)
    (milliseconds : Option Int) (okReply : Reply) : Option (Db A × Reply) := do
  let db ← genericSetKey c.cached db key (.string val) keepttl true
  match milliseconds with
  | none => some (db, okReply)
  | some ms => do some (← setExpire db key (setWhen c ms), okReply)

/-- `lookupKeyWrite` when a flag is given, and the test of its result. -/
def lookupIf (c : Clock) (flag : Bool) (db : Db A) (key : Bytes) (test : Option (Object A) → Bool) :
    Option (Db A × Bool) :=
  if flag then do
    let (db, old) ← lookupKeyWrite c.cached db key
    some (db, test old)
  else some (db, false)

def setGenericLookup (c : Clock) (db : Db A) (o : SetOptions) (key val : Bytes)
    (milliseconds : Option Int) (okReply abortReply : Reply) : Option (Db A × Reply) := do
  let (db, abort) ← lookupIf c o.nx db key Option.isSome
  if abort then some (db, abortReply)
  else do
    let (db, abort) ← lookupIf c o.xx db key Option.isNone
    if abort then some (db, abortReply)
    else setGenericWrite c db key val o.keepttl milliseconds okReply

def setGenericCommand (c : Clock) (db : Db A) (name : String) (o : SetOptions) (key val : Bytes)
    (okReply abortReply : Reply) : Option (Db A × Reply) :=
  match o.expire with
  | none => setGenericLookup c db o key val none okReply abortReply
  | some expire =>
    match setMilliseconds name expire o.unit with
    | .error err => some (db, .error err)
    | .ok ms => setGenericLookup c db o key val (some ms) okReply abortReply

def setCommand (c : Clock) (db : Db A) (key val : Bytes) (options : List Bytes) :
    Option (Db A × Reply) :=
  match parseSetOptions options noOptions with
  | none => some (db, .error syntaxerr)
  | some o => setGenericCommand c db "set" o key val .ok .null

def setnxCommand (c : Clock) (db : Db A) (key val : Bytes) : Option (Db A × Reply) :=
  setGenericCommand c db "setnx" { noOptions with nx := true } key val (.integer 1) (.integer 0)

def setexCommand (c : Clock) (db : Db A) (key expire val : Bytes) : Option (Db A × Reply) :=
  setGenericCommand c db "setex" { noOptions with expire := some expire } key val .ok .null

def psetexCommand (c : Clock) (db : Db A) (key expire val : Bytes) : Option (Db A × Reply) :=
  setGenericCommand c db "psetex" { noOptions with expire := some expire, unit := .milliseconds } key val
    .ok .null

/-- The reply, and whether the type was right. -/
def getGenericCommand (c : Clock) (db : Db A) (key : Bytes) : Option (Db A × Reply × Bool) := do
  let (db, o) ← lookupKeyRead c.cached db key
  match o with
  | none => some (db, .null, true)
  | some (.aggregate _) => some (db, .error wrongtypeerr, false)
  | some (.string s) => some (db, .bulk s, true)

def getCommand (c : Clock) (db : Db A) (key : Bytes) : Option (Db A × Reply) := do
  let (db, reply, _) ← getGenericCommand c db key
  some (db, reply)

def getsetCommand (c : Clock) (db : Db A) (key val : Bytes) : Option (Db A × Reply) := do
  let (db, reply, typeOk) ← getGenericCommand c db key
  if typeOk then do some (← setKey c.cached db key (.string val), reply) else some (db, reply)

end Strings

section Generic

variable {A : Type}

/-- `delGenericCommand` over its keys, with the number deleted so far. -/
def delLoop (c : Clock) : Db A → List Bytes → Nat → Option (Db A × Nat)
  | db, [], numdel => some (db, numdel)
  | db, key :: keys, numdel => do
      let (db, _) ← expireIfNeeded c.cached db key
      let (db, deleted) := dbDelete db key
      if deleted then delLoop c (signalModifiedKey db key) keys (numdel + 1)
      else delLoop c db keys numdel

def delGenericCommand (c : Clock) (db : Db A) (keys : List Bytes) : Option (Db A × Reply) := do
  let (db, numdel) ← delLoop c db keys 0
  some (db, .integer numdel)

def existsLoop (c : Clock) : Db A → List Bytes → Nat → Option (Db A × Nat)
  | db, [], count => some (db, count)
  | db, key :: keys, count => do
      let (db, o) ← lookupKeyRead c.cached db key
      existsLoop c db keys (if o.isSome then count + 1 else count)

def existsCommand (c : Clock) (db : Db A) (keys : List Bytes) : Option (Db A × Reply) := do
  let (db, count) ← existsLoop c db keys 0
  some (db, .integer count)

/-- Add a value under a key, with an expire time unless it is minus one. -/
def addWithExpire (db : Db A) (key : Bytes) (o : Object A) (expire : Int) : Option (Db A) := do
  let db ← dbAdd db key o
  if expire ≠ -1 then setExpire db key expire else some db

def renameGenericCommand (c : Clock) (db : Db A) (src dst : Bytes) (nx : Bool) :
    Option (Db A × Reply) := do
  let (db, o) ← lookupKeyWrite c.cached db src
  match o with
  | none => some (db, .error nokeyerr)
  | some o =>
    if src = dst then some (db, if nx then .integer 0 else .ok)
    else do
      let expire ← getExpire db src
      let (db, old) ← lookupKeyWrite c.cached db dst
      if old.isSome ∧ nx then some (db, .integer 0)
      else do
        let db := if old.isSome then (dbDelete db dst).1 else db
        let db ← addWithExpire db dst o expire
        let db := (dbDelete db src).1
        let db := signalModifiedKey (signalModifiedKey db src) dst
        some (db, if nx then .integer 1 else .ok)

/-- What the argument of an `EXPIRE` command stands for. -/
def expireWhen (basetime : Int) (unit : TimeUnit) (param : Int) : Int :=
  let when_ := if unit = .seconds then wrap64 (param * 1000) else param
  wrap64 (when_ + basetime)

/-- `basetime` is 0 or the clock; the clock is read again to see whether the time is past. -/
def expireGenericCommand (c : Clock) (db : Db A) (key param : Bytes) (basetime : Int)
    (unit : TimeUnit) : Option (Db A × Reply) :=
  match getLongLongFromObjectOrReply param none with
  | .error err => some (db, .error err)
  | .ok n => do
      let when_ := expireWhen basetime unit n
      let (db, o) ← lookupKeyWrite c.cached db key
      if o.isNone then some (db, .integer 0)
      else if when_ ≤ c.mstime 1 then
        let (db, deleted) := dbDelete db key
        if deleted then some (signalModifiedKey db key, .integer 1) else none
      else do
        let db ← setExpire db key when_
        some (signalModifiedKey db key, .integer 1)

/-- The four commands of the family. -/
inductive ExpireCommand where
  | expire
  | pexpire
  | expireat
  | pexpireat
deriving DecidableEq, Repr

def ExpireCommand.relative : ExpireCommand → Bool
  | .expire | .pexpire => true
  | .expireat | .pexpireat => false

def ExpireCommand.unit : ExpireCommand → TimeUnit
  | .expire | .expireat => .seconds
  | .pexpire | .pexpireat => .milliseconds

def expireFamilyCommand (cmd : ExpireCommand) (c : Clock) (db : Db A) (key param : Bytes) :
    Option (Db A × Reply) :=
  expireGenericCommand c db key param (if cmd.relative then c.mstime 0 else 0) cmd.unit

/-- The time to live, in milliseconds or in seconds to the nearest. -/
def ttlOf (c : Clock) (outputMs : Bool) (expire : Int) : Int :=
  let ttl := if wrap64 (expire - c.mstime 0) < 0 then 0 else wrap64 (expire - c.mstime 0)
  if outputMs then ttl else (wrap64 (ttl + 500)).tdiv 1000

def ttlGenericCommand (c : Clock) (db : Db A) (key : Bytes) (outputMs : Bool) :
    Option (Db A × Reply) := do
  let (db, o) ← lookupKeyRead c.cached db key
  if o.isNone then some (db, .integer (-2))
  else do
    let expire ← getExpire db key
    some (db, .integer (if expire = -1 then -1 else ttlOf c outputMs expire))

def persistCommand (c : Clock) (db : Db A) (key : Bytes) : Option (Db A × Reply) := do
  let (db, o) ← lookupKeyWrite c.cached db key
  if o.isNone then some (db, .integer 0)
  else do
    let (db, removed) ← removeExpire db key
    if removed then some (signalModifiedKey db key, .integer 1) else some (db, .integer 0)

/-- The loop of `keysCommand`; `stringmatch` compares a pattern with a key. -/
def keysLoop (stringmatch : Bytes → Bytes → Bool) (c : Clock) (db : Db A) (pattern : Bytes) :
    List Bytes → Option (List Bytes)
  | [] => some []
  | key :: keys => do
      if pattern = [42] ∨ stringmatch pattern key then
        let expired ← keyIsExpired c.cached db key
        let rest ← keysLoop stringmatch c db pattern keys
        some (if expired then rest else key :: rest)
      else keysLoop stringmatch c db pattern keys

def keysCommand (stringmatch : Bytes → Bytes → Bool) (c : Clock) (db : Db A) (pattern : Bytes) :
    Option (Db A × Reply) := do
  let keys ← keysLoop stringmatch c db pattern db.dict.keys
  some (db, .array keys)

def dbsizeCommand (db : Db A) : Db A × Reply := (db, .integer db.dict.keys.length)

/-- The name of the type of a value; `typeName` gives it for other types than strings. -/
def typeCommand (typeName : A → String) (c : Clock) (db : Db A) (key : Bytes) :
    Option (Db A × Reply) := do
  let (db, o) ← lookupKeyRead c.cached db key
  some (db, .status (match o with
    | none => "none"
    | some (.string _) => "string"
    | some (.aggregate a) => typeName a))

end Generic

section Databases

variable {A : Type}

def Server.setDb (s : Server A) (id : Nat) (db : Db A) : Server A :=
  { s with db := Function.update s.db id db }

/-- A database index in range. -/
def Server.index (s : Server A) (id : Int) : Option Nat :=
  if id < 0 ∨ id ≥ s.dbnum then none else some id.toNat

/-- The steps of `moveCommand` behind its checks. -/
def moveKey (c : Clock) (s : Server A) (src dst : Nat) (key : Bytes) : Option (Server A × Reply) := do
  let (srcDb, o) ← lookupKeyWrite c.cached (s.db src) key
  let s := s.setDb src srcDb
  match o with
  | none => some (s, .integer 0)
  | some o => do
      let expire ← getExpire (s.db src) key
      let (dstDb, old) ← lookupKeyWrite c.cached (s.db dst) key
      let s := s.setDb dst dstDb
      if old.isSome then some (s, .integer 0)
      else do
        let dstDb ← addWithExpire (s.db dst) key o expire
        let s := s.setDb dst (signalModifiedKey dstDb key)
        let s := s.setDb src (signalModifiedKey (dbDelete (s.db src) key).1 key)
        some (s, .integer 1)

def moveCommand (c : Clock) (s : Server A) (src : Nat) (key dbid : Bytes) :
    Option (Server A × Reply) :=
  match string2ll dbid with
  | none => some (s, .error outofrangeerr)
  | some id =>
    if id < -2 ^ 31 ∨ id > 2 ^ 31 - 1 then some (s, .error outofrangeerr)
    else
      match s.index id with
      | none => some (s, .error outofrangeerr)
      | some dst =>
        if src = dst then some (s, .error sameobjecterr) else moveKey c s src dst key

/-- Exchange the tables; what is recorded for each database stays with it. -/
def dbSwapDatabases (s : Server A) (id1 id2 : Nat) : Server A :=
  if id1 = id2 then s
  else
    let db1 := s.db id1
    let db2 := s.db id2
    (s.setDb id1 { db1 with dict := db2.dict, expires := db2.expires }).setDb id2
      { db2 with dict := db1.dict, expires := db1.expires }

def swapdbCommand (s : Server A) (arg1 arg2 : Bytes) : Server A × Reply :=
  match getLongFromObjectOrReply arg1 (some "invalid first DB index") with
  | .error err => (s, .error err)
  | .ok id1 =>
    match getLongFromObjectOrReply arg2 (some "invalid second DB index") with
    | .error err => (s, .error err)
    | .ok id2 =>
      match s.index id1, s.index id2 with
      | some id1, some id2 => (dbSwapDatabases s id1 id2, .ok)
      | _, _ => (s, .error (addReplyError "DB index is out of range"))

def emptyDb (db : Db A) : Db A :=
  { db with
    dict := ∅
    expires := ∅ }

def asyncName : Bytes := [97, 115, 121, 110, 99]

/-- `getFlushCommandFlags` accepts no argument, or `ASYNC`. -/
def flushFlagsOk (args : List Bytes) : Bool :=
  match args with
  | [] => true
  | [a] => isName a asyncName
  | _ => false

def flushdbCommand (s : Server A) (id : Nat) (args : List Bytes) : Server A × Reply :=
  if flushFlagsOk args then (s.setDb id (emptyDb (s.db id)), .ok) else (s, .error syntaxerr)

def flushallCommand (s : Server A) (args : List Bytes) : Server A × Reply :=
  if flushFlagsOk args then
    ({ s with db := fun id => if id < s.dbnum then emptyDb (s.db id) else s.db id }, .ok)
  else (s, .error syntaxerr)

/-- The commands on whole keys. -/
inductive Command where
  | set (key val : Bytes) (options : List Bytes)
  | setnx (key val : Bytes)
  | setex (key expire val : Bytes)
  | psetex (key expire val : Bytes)
  | get (key : Bytes)
  | getset (key val : Bytes)
  | del (keys : List Bytes)
  | unlink (keys : List Bytes)
  | existsKeys (keys : List Bytes)
  | type (key : Bytes)
  | rename (src dst : Bytes)
  | renamenx (src dst : Bytes)
  | expire (cmd : ExpireCommand) (key param : Bytes)
  | ttl (key : Bytes)
  | pttl (key : Bytes)
  | persist (key : Bytes)
  | keys (pattern : Bytes)
  | dbsize
  | move (key dbid : Bytes)
  | swapdb (id1 id2 : Bytes)
  | flushdb (args : List Bytes)
  | flushall (args : List Bytes)

/-- A command of one database. -/
def onDb (s : Server A) (id : Nat) (f : Db A → Option (Db A × Reply)) : Option (Server A × Reply) := do
  let (db, reply) ← f (s.db id)
  some (s.setDb id db, reply)

/-- What the commands use and this model leaves open. -/
structure Env (A : Type) where
  typeName : A → String
  stringmatch : Bytes → Bytes → Bool

/-- A client that has selected database `id` runs a command. -/
def execute (env : Env A) (c : Clock) (s : Server A) (id : Nat) :
    Command → Option (Server A × Reply)
  | .set key val options => onDb s id fun db => setCommand c db key val options
  | .setnx key val => onDb s id fun db => setnxCommand c db key val
  | .setex key expire val => onDb s id fun db => setexCommand c db key expire val
  | .psetex key expire val => onDb s id fun db => psetexCommand c db key expire val
  | .get key => onDb s id fun db => getCommand c db key
  | .getset key val => onDb s id fun db => getsetCommand c db key val
  | .del keys => onDb s id fun db => delGenericCommand c db keys
  | .unlink keys => onDb s id fun db => delGenericCommand c db keys
  | .existsKeys keys => onDb s id fun db => existsCommand c db keys
  | .type key => onDb s id fun db => typeCommand env.typeName c db key
  | .rename src dst => onDb s id fun db => renameGenericCommand c db src dst false
  | .renamenx src dst => onDb s id fun db => renameGenericCommand c db src dst true
  | .expire cmd key param => onDb s id fun db => expireFamilyCommand cmd c db key param
  | .ttl key => onDb s id fun db => ttlGenericCommand c db key false
  | .pttl key => onDb s id fun db => ttlGenericCommand c db key true
  | .persist key => onDb s id fun db => persistCommand c db key
  | .keys pattern => onDb s id fun db => keysCommand env.stringmatch c db pattern
  | .dbsize => onDb s id fun db => some (dbsizeCommand db)
  | .move key dbid => moveCommand c s id key dbid
  | .swapdb id1 id2 => some (swapdbCommand s id1 id2)
  | .flushdb args => some (flushdbCommand s id args)
  | .flushall args => some (flushallCommand s args)

end Databases

end Redis.Keyspace
