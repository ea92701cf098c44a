import Redis.Keyspace.Basic
import Redis.Ziplist.Find

/-! The hash type of `t_hash.c` in its two encodings, with the commands on it. A result `none` is
a failed assertion or a panic. -/
namespace Redis.Hashes

open ByteBuffer Util Ziplist Shared
open Keyspace (Table)

structure Config where
  hashMaxZiplistEntries : Nat
  hashMaxZiplistValue : Nat

/-- A hash in one of the encodings `OBJ_ENCODING_ZIPLIST` and `OBJ_ENCODING_HT`. -/
inductive Hash where
  | ziplist (zl : Bytes)
  | ht (table : Table Bytes)

/-- A string whose length is passed on as an `unsigned int`. -/
def uintArg (s : Bytes) : Bytes := s.take (s.length % 2 ^ 32)

section Types

/-- The search for a field that starts `hashTypeGetFromZiplist`, `hashTypeSet` and
`hashTypeDelete`. -/
def findField (zl field : Bytes) : Option Nat :=
  match ziplistIndex zl 0 with
  | none => none
  | some fptr => ziplistFind zl fptr (uintArg field) 1

def hashTypeGetFromZiplist (zl field : Bytes) : Option (Option Value) :=
  match findField zl field with
  | none => some none
  | some fptr => do
      let vptr ← ziplistNext zl fptr
      let value ← ziplistGet (zl.drop vptr)
      some (some value)

def hashTypeGetValue (h : Hash) (field : Bytes) : Option (Option Value) :=
  match h with
  | .ziplist zl => hashTypeGetFromZiplist zl field
  | .ht table => some ((table.lookup field).map fun value => .str (uintArg value))

def hashTypeGetValueLength (h : Hash) (field : Bytes) : Option Nat :=
  match h with
  | .ziplist zl => (hashTypeGetFromZiplist zl field).map fun value =>
    match value with
    | none => 0
    | some (.str s) => s.length
    | some (.int v) => sdigits10 v
  | .ht table => some (((table.lookup field).map List.length).getD 0)

def hashTypeExists (h : Hash) (field : Bytes) : Option Bool :=
  match h with
  | .ziplist zl => (hashTypeGetFromZiplist zl field).map Option.isSome
  | .ht table => some (table.lookup field).isSome

/-- `ziplistLen` may write the length into the header. -/
def hashTypeLength : Hash → Nat × Hash
  | .ziplist zl => ((ziplistLen zl).1 / 2, .ziplist (ziplistLen zl).2)
  | .ht table => (table.entries.length, .ht table)

/-- The field after the pointers to a field and its value, which are none at the start. -/
def advanceCursor (zl : Bytes) : Option (Nat × Nat) → Option Nat
  | none => ziplistIndex zl 0
  | some (_, vptr) => ziplistNext zl vptr

def hashTypeNext (zl : Bytes) (cursor : Option (Nat × Nat)) : Option (Option (Nat × Nat)) :=
  match advanceCursor zl cursor with
  | none => some none
  | some fptr => do
      let vptr ← ziplistNext zl fptr
      some (some (fptr, vptr))

/-- A new string with what is at the pointer. -/
def hashTypeCurrent (zl : Bytes) (p : Nat) : Option Bytes := (ziplistGet (zl.drop p)).map Value.text

/-- The loops over an iterator, with what they do with each field and value. -/
def iterate {α : Type} (zl : Bytes) (body : α → Bytes → Bytes → Option α) :
    Nat → Option (Nat × Nat) → α → Option α
  | 0, _, _ => none
  | fuel + 1, cursor, acc =>
    match hashTypeNext zl cursor with
    | none => none
    | some none => some acc
    | some (some (fptr, vptr)) => do
        let field ← hashTypeCurrent zl fptr
        let value ← hashTypeCurrent zl vptr
        let acc ← body acc field value
        iterate zl body fuel (some (fptr, vptr)) acc

/-- `dictAdd` with the panic on a field that is there already. -/
def dictAdd (table : Table Bytes) (field value : Bytes) : Option (Table Bytes) :=
  if (table.lookup field).isSome then none else some (table.insert field value)

def hashTypeConvert : Hash → Option Hash
  | .ziplist zl => (iterate zl dictAdd (zl.length + 1) none ∅).map .ht
  | .ht _ => none

def hashTypeTryConversion (cfg : Config) (h : Hash) (args : List Bytes) : Option Hash :=
  match h with
  | .ht _ => some h
  | .ziplist _ =>
    if args.any fun arg => decide (arg.length > cfg.hashMaxZiplistValue) then hashTypeConvert h
    else some h

/-- The ziplist part of `hashTypeSet`. -/
def ziplistSet (zl field value : Bytes) : Option (Bytes × Bool) :=
  match findField zl field with
  | some fptr => do
      let vptr ← ziplistNext zl fptr
      some (ziplistInsert (ziplistDelete zl vptr) vptr (uintArg value), true)
  | none =>
    some (ziplistPush (ziplistPush zl (uintArg field) .tail) (uintArg value) .tail, false)

/-- The result says whether the field was there. -/
def hashTypeSet (cfg : Config) (h : Hash) (field value : Bytes) : Option (Hash × Bool) :=
  match h with
  | .ziplist zl => do
      let (zl, update) ← ziplistSet zl field value
      let (length, h) := hashTypeLength (.ziplist zl)
      let h ← (if length > cfg.hashMaxZiplistEntries then hashTypeConvert h else some h)
      some (h, update)
  | .ht table => some (.ht (table.insert field value), (table.lookup field).isSome)

def hashTypeDelete (h : Hash) (field : Bytes) : Hash × Bool :=
  match h with
  | .ziplist zl =>
    match findField zl field with
    | none => (h, false)
    | some fptr => (.ziplist (ziplistDelete (ziplistDelete zl fptr) fptr), true)
  | .ht table => (.ht (table.erase field), (table.lookup field).isSome)

end Types

/-- A value of the keyspace: a hash, or one of another type. -/
inductive Object where
  | hash (h : Hash)
  | other

abbrev Db : Type := Dict Object

inductive Reply where
  | null
  | integer (n : Int)
  | bulk (s : Bytes)
  | map (length : Int) (pairs : List (Bytes × Bytes))
  | error (err : String)
deriving DecidableEq, Repr

section Commands

def createHashObject : Hash := .ziplist ziplistNew

/-- The hash at a key, a new one if there is none; `none` for a value of another type. -/
def hashTypeLookupWriteOrCreate (db : Db) (key : Bytes) : Option Hash :=
  match db key with
  | none => some createHashObject
  | some (.hash h) => some h
  | some .other => none

/-- `lookupKeyReadOrReply` and `checkType` before the work of a command. -/
def withHash (db : Db) (key : Bytes) (missing : Reply) (f : Hash → Option (Db × Reply)) :
    Option (Db × Reply) :=
  match db key with
  | none => some (db, missing)
  | some .other => some (db, .error wrongtypeerr)
  | some (.hash h) => f h

def setHash (db : Db) (key : Bytes) (h : Hash) : Db := db.set key (.hash h)

/-- The loop of `hsetCommand` over the fields and values. -/
def hsetLoop (cfg : Config) : Hash → List Bytes → Nat → Option (Hash × Nat)
  | h, field :: value :: rest, created => do
      let (h, update) ← hashTypeSet cfg h field value
      hsetLoop cfg h rest (if update then created else created + 1)
  | h, _, created => some (h, created)

def hsetCommand (cfg : Config) (db : Db) (key : Bytes) (args : List Bytes) : Option (Db × Reply) :=
  if args.length % 2 = 1 then
    some (db, .error (addReplyError "wrong number of arguments for 'hset' command"))
  else
    match hashTypeLookupWriteOrCreate db key with
    | none => some (db, .error wrongtypeerr)
    | some h => do
        let h ← hashTypeTryConversion cfg h args
        let (h, created) ← hsetLoop cfg h args 0
        some (setHash db key h, .integer created)

def hsetnxCommand (cfg : Config) (db : Db) (key field value : Bytes) : Option (Db × Reply) :=
  match hashTypeLookupWriteOrCreate db key with
  | none => some (db, .error wrongtypeerr)
  | some h => do
      let h ← hashTypeTryConversion cfg h [field, value]
      if ← hashTypeExists h field then some (setHash db key h, .integer 0)
      else do
        let (h, _) ← hashTypeSet cfg h field value
        some (setHash db key h, .integer 1)

/-- The value `HINCRBY` starts from; the reply if it is no integer. -/
def incrementedValue (value : Option Value) : Except String Int :=
  match value with
  | none => .ok 0
  | some (.int v) => .ok v
  | some (.str s) =>
    match string2ll s with
    | some v => .ok v
    | none => .error (addReplyError "hash value is not an integer")

def hincrbyCommand (cfg : Config) (db : Db) (key field increment : Bytes) : Option (Db × Reply) :=
  match getLongLongFromObjectOrReply increment none with
  | .error err => some (db, .error err)
  | .ok incr =>
    match hashTypeLookupWriteOrCreate db key with
    | none => some (db, .error wrongtypeerr)
    | some h => do
        match incrementedValue (← hashTypeGetValue h field) with
        | .error err => some (setHash db key h, .error err)
        | .ok oldvalue =>
          if incrementOverflows oldvalue incr then
            some (setHash db key h,
              .error (addReplyError "increment or decrement would overflow"))
          else do
            let (h, _) ← hashTypeSet cfg h field (ll2string (oldvalue + incr))
            some (setHash db key h, .integer (oldvalue + incr))

def hgetCommand (db : Db) (key field : Bytes) : Option (Db × Reply) :=
  withHash db key .null fun h =>
    match h with
    | .ziplist zl => do
        match ← hashTypeGetFromZiplist zl field with
        | none => some (db, .null)
        | some value => some (db, .bulk value.text)
    | .ht table =>
      match table.lookup field with
      | none => some (db, .null)
      | some value => some (db, .bulk value)

/-- The loop of `hdelCommand`; the last component says that the hash is empty. -/
def hdelLoop : Hash → List Bytes → Nat → Hash × Nat × Bool
  | h, [], deleted => (h, deleted, false)
  | h, field :: rest, deleted =>
    let (h, found) := hashTypeDelete h field
    if found then
      let (length, h) := hashTypeLength h
      if length = 0 then (h, deleted + 1, true) else hdelLoop h rest (deleted + 1)
    else hdelLoop h rest deleted

def hdelCommand (db : Db) (key : Bytes) (fields : List Bytes) : Option (Db × Reply) :=
  withHash db key (.integer 0) fun h =>
    let (h, deleted, keyremoved) := hdelLoop h fields 0
    some (if keyremoved then db.delete key else setHash db key h, .integer deleted)

def hlenCommand (db : Db) (key : Bytes) : Option (Db × Reply) :=
  withHash db key (.integer 0) fun h =>
    let (length, h) := hashTypeLength h
    some (setHash db key h, .integer length)

def hstrlenCommand (db : Db) (key field : Bytes) : Option (Db × Reply) :=
  withHash db key (.integer 0) fun h => do
    let length ← hashTypeGetValueLength h field
    some (db, .integer length)

def hexistsCommand (db : Db) (key field : Bytes) : Option (Db × Reply) :=
  withHash db key (.integer 0) fun h => do
    let found ← hashTypeExists h field
    some (db, .integer (if found then 1 else 0))

/-- All fields and values, as the iterator yields them. -/
def hashTypeEntries : Hash → Option (List (Bytes × Bytes))
  | .ziplist zl =>
    iterate zl (fun acc field value => some (acc ++ [(field, value)])) (zl.length + 1) none []
  | .ht table => some (table.entries.map fun e => (e.1, e.2))

/-- The end of `genericHgetallCommand`: its `count` of replies has to agree with the length. -/
def hgetallReply (len : Nat) (pairs : List (Bytes × Bytes)) : Option Reply :=
  let length := cInt len
  let count := (cInt (2 * pairs.length)).tdiv 2
  if count = length then some (.map length pairs) else none

/-- `genericHgetallCommand` for fields and values. -/
def hgetallCommand (db : Db) (key : Bytes) : Option (Db × Reply) :=
  withHash db key (.map 0 []) fun h => do
    let (len, h) := hashTypeLength h
    let pairs ← hashTypeEntries h
    let reply ← hgetallReply len pairs
    some (setHash db key h, reply)

end Commands

inductive Command where
  | hset (key field value : Bytes) (rest : List Bytes)
  | hsetnx (key field value : Bytes)
  | hincrby (key field increment : Bytes)
  | hdel (key field : Bytes) (rest : List Bytes)
  | hget (key field : Bytes)
  | hexists (key field : Bytes)
  | hlen (key : Bytes)
  | hstrlen (key field : Bytes)
  | hgetall (key : Bytes)

def execute (cfg : Config) (db : Db) : Command → Option (Db × Reply)
  | .hset key field value rest => hsetCommand cfg db key (field :: value :: rest)
  | .hsetnx key field value => hsetnxCommand cfg db key field value
  | .hincrby key field increment => hincrbyCommand cfg db key field increment
  | .hdel key field rest => hdelCommand db key (field :: rest)
  | .hget key field => hgetCommand db key field
  | .hexists key field => hexistsCommand db key field
  | .hlen key => hlenCommand db key
  | .hstrlen key field => hstrlenCommand db key field
  | .hgetall key => hgetallCommand db key

end Redis.Hashes
