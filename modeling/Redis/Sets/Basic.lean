import Redis.Intset.Basic
import Redis.Shared

/-! The set type of `t_set.c` in its two encodings, with the commands on it. A hash table is the
list of its keys, in the order of its iterator. A result `none` is an access outside the memory
of an intset or a failed assertion. -/
namespace Redis.Sets

open ByteBuffer Util Intsets Shared

structure Config where
  setMaxIntsetEntries : Nat

/-- A set in one of the encodings `OBJ_ENCODING_INTSET` and `OBJ_ENCODING_HT`. -/
inductive SetObject where
  | intset (is : Intset)
  | ht (keys : List Bytes)
deriving DecidableEq

section Types

def isSdsRepresentableAsLongLong (s : Bytes) : Option Int := string2ll s

def createIntsetObject : SetObject := .intset intsetNew

def createSetObject : SetObject := .ht []

def setTypeCreate (value : Bytes) : SetObject :=
  if (isSdsRepresentableAsLongLong value).isSome then createIntsetObject else createSetObject

def setTypeSize : SetObject → Nat
  | .intset is => intsetLen is
  | .ht keys => keys.length

/-- The element at a position of the iterator; the inner `none` is the end. -/
def setTypeNext (s : SetObject) (ii : Nat) : Option (Option Value) :=
  match s with
  | .ht keys => some (keys[ii]?.map .str)
  | .intset is => (intsetGet is ii).map (Option.map .int)

/-- The loops over an iterator, with what they do with each element. -/
def iterate {α : Type} (s : SetObject) (body : α → Value → Option α) : Nat → Nat → α → Option α
  | 0, _, _ => none
  | fuel + 1, ii, acc =>
    match setTypeNext s ii with
    | none => none
    | some none => some acc
    | some (some ele) => do
        let acc ← body acc ele
        iterate s body fuel (ii + 1) acc

/-- A loop over all elements. -/
def forEach {α : Type} (s : SetObject) (body : α → Value → Option α) (acc : α) : Option α :=
  iterate s body (setTypeSize s + 1) 0 acc

/-- `dictAdd` with the assertion that the key is new. -/
def dictAdd (keys : List Bytes) (key : Bytes) : Option (List Bytes) :=
  if key ∈ keys then none else some (keys ++ [key])

/-- `setTypeConvert` to a hash table. -/
def setTypeConvert (is : Intset) : Option (List Bytes) :=
  forEach (.intset is) (fun keys ele => dictAdd keys ele.text) []

/-- The result says whether the value was added. -/
def setTypeAdd (cfg : Config) (s : SetObject) (value : Bytes) : Option (SetObject × Bool) :=
  match s with
  | .ht keys => if value ∈ keys then some (s, false) else some (.ht (keys ++ [value]), true)
  | .intset is =>
    match isSdsRepresentableAsLongLong value with
    | some llval => do
        let (is, success) ← intsetAdd is llval
        if success then
          if intsetLen is > cfg.setMaxIntsetEntries then do
            let keys ← setTypeConvert is
            some (.ht keys, true)
          else some (.intset is, true)
        else some (.intset is, false)
    | none => do
        let keys ← setTypeConvert is
        let keys ← dictAdd keys value
        some (.ht keys, true)

/-- The result says whether the value was there. -/
def setTypeRemove (s : SetObject) (value : Bytes) : Option (SetObject × Bool) :=
  match s with
  | .ht keys => some (.ht (keys.erase value), decide (value ∈ keys))
  | .intset is =>
    match isSdsRepresentableAsLongLong value with
    | some llval => (intsetRemove is llval).map fun r => (.intset r.1, r.2)
    | none => some (s, false)

def setTypeIsMember (s : SetObject) (value : Bytes) : Option Bool :=
  match s with
  | .ht keys => some (decide (value ∈ keys))
  | .intset is =>
    match isSdsRepresentableAsLongLong value with
    | some llval => intsetFind is llval
    | none => some false

/-- A random number decides which element it is. -/
def setTypeRandomElement (s : SetObject) (random : Nat) : Option Value :=
  match s with
  | .ht keys => keys[random % keys.length]?.map .str
  | .intset is => (intsetGetAt is (random % is.length : Nat)).map .int

end Types

/-- A value of the keyspace: a set, or one of another type. -/
inductive Object where
  | set (s : SetObject)
  | other
deriving DecidableEq

abbrev Db : Type := Dict Object

/-- An aggregate has the length that is announced and the elements that follow. -/
inductive Reply where
  | integer (n : Int)
  | members (length : Int) (elements : List Bytes)
  | error (err : String)
deriving DecidableEq, Repr

def dbDelete (db : Db) (key : Bytes) : Db := db.delete key

def setSet (db : Db) (key : Bytes) (s : SetObject) : Db := db.set key (.set s)

section Commands

/-- The loop of `saddCommand`. -/
def saddLoop (cfg : Config) : List Bytes → SetObject → Nat → Option (SetObject × Nat)
  | [], s, added => some (s, added)
  | value :: rest, s, added => do
      let (s, new) ← setTypeAdd cfg s value
      saddLoop cfg rest s (if new then added + 1 else added)

/-- There is at least one value. -/
def saddCommand (cfg : Config) (db : Db) (key value : Bytes) (rest : List Bytes) :
    Option (Db × Reply) :=
  match db key with
  | none => do
      let (s, added) ← saddLoop cfg (value :: rest) (setTypeCreate value) 0
      some (setSet db key s, .integer added)
  | some .other => some (db, .error wrongtypeerr)
  | some (.set s) => do
      let (s, added) ← saddLoop cfg (value :: rest) s 0
      some (setSet db key s, .integer added)

/-- The loop of `sremCommand`, which ends early when the set is empty. -/
def sremLoop : List Bytes → SetObject → Nat → Option (SetObject × Nat × Bool)
  | [], s, deleted => some (s, deleted, false)
  | value :: rest, s, deleted => do
      let (s, found) ← setTypeRemove s value
      if found then
        if setTypeSize s = 0 then some (s, deleted + 1, true) else sremLoop rest s (deleted + 1)
      else sremLoop rest s deleted

def sremCommand (db : Db) (key : Bytes) (values : List Bytes) : Option (Db × Reply) :=
  match db key with
  | none => some (db, .integer 0)
  | some .other => some (db, .error wrongtypeerr)
  | some (.set s) => do
      let (s, deleted, keyremoved) ← sremLoop values s 0
      some (if keyremoved then dbDelete db key else setSet db key s, .integer deleted)

/-- The part of `smoveCommand` after the element was removed from the source. -/
def smoveTo (cfg : Config) (db : Db) (src dst ele : Bytes) (srcset dstset : SetObject) :
    Option (Db × Reply) := do
  let db := if setTypeSize srcset = 0 then dbDelete db src else setSet db src srcset
  let (dstset, _) ← setTypeAdd cfg dstset ele
  some (setSet db dst dstset, .integer 1)

def smoveCommand (cfg : Config) (db : Db) (src dst ele : Bytes) : Option (Db × Reply) :=
  match db src, db dst with
  | none, _ => some (db, .integer 0)
  | some .other, _ => some (db, .error wrongtypeerr)
  | some (.set _), some .other => some (db, .error wrongtypeerr)
  | some (.set srcset), dstobj =>
    if src = dst then do
      let found ← setTypeIsMember srcset ele
      some (db, .integer (if found then 1 else 0))
    else do
      let (srcset, found) ← setTypeRemove srcset ele
      if found then
        match dstobj with
        | some (.set dstset) => smoveTo cfg db src dst ele srcset dstset
        | _ => smoveTo cfg db src dst ele srcset (setTypeCreate ele)
      else some (db, .integer 0)

def sismemberCommand (db : Db) (key value : Bytes) : Option (Db × Reply) :=
  match db key with
  | none => some (db, .integer 0)
  | some .other => some (db, .error wrongtypeerr)
  | some (.set s) => do
      let found ← setTypeIsMember s value
      some (db, .integer (if found then 1 else 0))

def scardCommand (db : Db) (key : Bytes) : Option (Db × Reply) :=
  match db key with
  | none => some (db, .integer 0)
  | some .other => some (db, .error wrongtypeerr)
  | some (.set s) => some (db, .integer (setTypeSize s))

/-- The library function `qsort`; nothing is known of the order of equal elements. -/
structure Qsort where
  sort : {α : Type} → (α → α → Bool) → List α → List α
  perm : ∀ {α : Type} (le : α → α → Bool) (l : List α), (sort le l).Perm l

/-- A set with its key, which stands for the pointer to it. -/
abbrev Source : Type := Bytes × SetObject

/-- Why `sinterGenericCommand` returns early. -/
inductive Early where
  | missing
  | wrongType
deriving DecidableEq

def sinterSources (db : Db) : List Bytes → Except Early (List Source)
  | [] => .ok []
  | key :: rest =>
    match db key with
    | none => .error .missing
    | some .other => .error .wrongType
    | some (.set s) => (sinterSources db rest).map ((key, s) :: ·)

/-- The result of the `STORE` forms. -/
def storeResult (db : Db) (dstkey : Bytes) (dstset : SetObject) : Db × Reply :=
  if setTypeSize dstset > 0 then
    (setSet (dbDelete db dstkey) dstkey dstset, .integer (setTypeSize dstset))
  else (dbDelete db dstkey, .integer 0)

def qsortCompareSetsByCardinality (s1 s2 : Source) : Bool :=
  decide (setTypeSize s1.2 ≤ setTypeSize s2.2)

/-- Whether one of the other sets has an element of the first one. -/
def sinterFind (ele : Value) (s : SetObject) : Option Bool :=
  match ele, s with
  | .int v, .intset is => intsetFind is v
  | .int v, .ht keys => setTypeIsMember (.ht keys) (ll2string v)
  | .str value, s => setTypeIsMember s value

/-- The inner loop of `sinterGenericCommand`. -/
def sinterAll (first : Bytes) (ele : Value) : List Source → Option Bool
  | [] => some true
  | (key, s) :: rest =>
    if key = first then sinterAll first ele rest
    else do
      let found ← sinterFind ele s
      if found then sinterAll first ele rest else some false

/-- An element of the intersection is counted and replied. -/
def sinterReply (first : Bytes) (others : List Source) (acc : List Bytes × Nat) (ele : Value) :
    Option (List Bytes × Nat) := do
  let found ← sinterAll first ele others
  some (if found then (acc.1 ++ [ele.text], acc.2 + 1) else acc)

/-- An element of the intersection is added to the target set. -/
def sinterStore (cfg : Config) (first : Bytes) (others : List Source) (dstset : SetObject)
    (ele : Value) : Option SetObject := do
  let found ← sinterAll first ele others
  if found then (setTypeAdd cfg dstset ele.text).map Prod.fst else some dstset

def sinterGenericCommand (qsort : Qsort) (cfg : Config) (db : Db) (setkeys : List Bytes)
    (dstkey : Option Bytes) : Option (Db × Reply) :=
  match sinterSources db setkeys with
  | .error .missing =>
    match dstkey with
    | some dst => some (dbDelete db dst, .integer 0)
    | none => some (db, .members 0 [])
  | .error .wrongType => some (db, .error wrongtypeerr)
  | .ok sets =>
    match qsort.sort qsortCompareSetsByCardinality sets with
    | [] => none
    | (first, s) :: others =>
      match dstkey with
      | none => do
          let (elements, cardinality) ← forEach s (sinterReply first others) ([], 0)
          some (db, .members (cardinality : Nat) elements)
      | some dst => do
          let dstset ← forEach s (sinterStore cfg first others) createIntsetObject
          some (storeResult db dst dstset)

/-- The sources of unions and differences: a key that does not exist is an empty set. -/
def sunionDiffSources (db : Db) : List Bytes → Option (List (Option Source))
  | [] => some []
  | key :: rest =>
    match db key with
    | none => (sunionDiffSources db rest).map (none :: ·)
    | some .other => none
    | some (.set s) => (sunionDiffSources db rest).map (some (key, s) :: ·)

/-- A `long long` after an assignment. -/
def cLongLong (n : Int) : Int := n.bmod (2 ^ 64)

/-- The two algorithms of `SDIFF`. -/
inductive DiffAlgo where
  | one
  | two
deriving DecidableEq

def diffAlgo (first : SetObject) (sets : List (Option Source)) : DiffAlgo :=
  let algoOneWork := sets.foldl (fun work s =>
    if s.isSome then cLongLong (work + setTypeSize first) else work) (0 : Int)
  let algoTwoWork := sets.foldl (fun work s =>
    match s with
    | some s => cLongLong (work + setTypeSize s.2)
    | none => work) (0 : Int)
  if algoOneWork.tdiv 2 ≤ algoTwoWork then .one else .two

def qsortCompareSetsByRevCardinality (o1 o2 : Option Source) : Bool :=
  decide ((o2.map fun s => setTypeSize s.2).getD 0 ≤ (o1.map fun s => setTypeSize s.2).getD 0)

/-- Adding with the count, an `int`. -/
def addCounting (cfg : Config) (acc : SetObject × Int) (ele : Value) :
    Option (SetObject × Int) := do
  let (s, added) ← setTypeAdd cfg acc.1 ele.text
  some (s, if added then cInt (acc.2 + 1) else acc.2)

def removeCounting (acc : SetObject × Int) (ele : Value) : Option (SetObject × Int) := do
  let (s, removed) ← setTypeRemove acc.1 ele.text
  some (s, if removed then cInt (acc.2 - 1) else acc.2)

def unionLoop (cfg : Config) : List (Option Source) → SetObject × Int → Option (SetObject × Int)
  | [], acc => some acc
  | none :: rest, acc => unionLoop cfg rest acc
  | some (_, s) :: rest, acc => do
      let acc ← forEach s (addCounting cfg) acc
      unionLoop cfg rest acc

/-- The inner loop of the first algorithm: whether another set has the element. -/
def diffFound (first : Bytes) (value : Bytes) : List (Option Source) → Option Bool
  | [] => some false
  | none :: rest => diffFound first value rest
  | some (key, s) :: rest =>
    if key = first then some true
    else do
      let found ← setTypeIsMember s value
      if found then some true else diffFound first value rest

/-- An element that no other set has is added to the result. -/
def diffKeep (cfg : Config) (first : Bytes) (others : List (Option Source))
    (acc : SetObject × Int) (ele : Value) : Option (SetObject × Int) := do
  let found ← diffFound first ele.text others
  if found then some acc
  else do
    let (s, _) ← setTypeAdd cfg acc.1 ele.text
    some (s, cInt (acc.2 + 1))

def diffAlgorithm1 (cfg : Config) (first : Source) (others : List (Option Source)) :
    Option (SetObject × Int) :=
  forEach first.2 (diffKeep cfg first.1 others) (createIntsetObject, 0)

/-- The sets after the first one. The loop ends when nothing is left. -/
def diffRest : List (Option Source) → SetObject × Int → Option (SetObject × Int)
  | [], acc => some acc
  | none :: rest, acc => diffRest rest acc
  | some (_, s) :: rest, acc => do
      let acc ← forEach s removeCounting acc
      if acc.2 = 0 then some acc else diffRest rest acc

def diffAlgorithm2 (cfg : Config) (first : Source) (others : List (Option Source)) :
    Option (SetObject × Int) := do
  let acc ← forEach first.2 (addCounting cfg) (createIntsetObject, 0)
  if acc.2 = 0 then some acc else diffRest others acc

inductive SetOp where
  | union
  | diff
deriving DecidableEq

/-- The temporary set with the count of its elements. -/
def sunionDiffResult (qsort : Qsort) (cfg : Config) (op : SetOp) (sets : List (Option Source)) :
    Option (SetObject × Int) :=
  match op, sets with
  | .union, sets => unionLoop cfg sets (createIntsetObject, 0)
  | .diff, some first :: others =>
    match diffAlgo first.2 (some first :: others) with
    | .one => diffAlgorithm1 cfg first (qsort.sort qsortCompareSetsByRevCardinality others)
    | .two => diffAlgorithm2 cfg first others
  | .diff, _ => some (createIntsetObject, 0)

/-- The result is replied or stored. -/
def sunionDiffReply (db : Db) (dstkey : Option Bytes) (dstset : SetObject) (cardinality : Int) :
    Option (Db × Reply) :=
  match dstkey with
  | none => do
      let elements ← forEach dstset (fun elements ele => some (elements ++ [ele.text])) []
      some (db, .members cardinality elements)
  | some dst => some (storeResult db dst dstset)

def sunionDiffGenericCommand (qsort : Qsort) (cfg : Config) (db : Db) (setkeys : List Bytes)
    (dstkey : Option Bytes) (op : SetOp) : Option (Db × Reply) :=
  match sunionDiffSources db setkeys with
  | none => some (db, .error wrongtypeerr)
  | some sets => do
      let (dstset, cardinality) ← sunionDiffResult qsort cfg op sets
      sunionDiffReply db dstkey dstset cardinality

def delCommand (db : Db) (key : Bytes) : Db × Reply :=
  (dbDelete db key, .integer (if (db key).isSome then 1 else 0))

end Commands

section Pop

/-- A command for the replicas and the AOF. -/
inductive Propagated where
  | del (key : Bytes)
  | srem (key ele : Bytes)
deriving DecidableEq, Repr

def Propagated.exec (db : Db) : Propagated → Option Db
  | .del key => some (delCommand db key).1
  | .srem key ele => (sremCommand db key [ele]).map Prod.fst

/-- What `call` sends of a command that was rewritten to this one, by the change of `server.dirty`. -/
def callPropagates (before after : Int64) (cmd : Propagated) : List Propagated :=
  if after - before > 0 then [cmd] else []

/-- `OBJ_FIRST_SPECIAL_REFCOUNT`. -/
def objFirstSpecialRefcount : Nat := 2 ^ 31 - 2

/-- The calls of `alsoPropagate`, each of which holds the objects of `SREM` and of the key once
more. At the first special count `incrRefCount` ends the server. -/
def alsoPropagate (key : Bytes) : List Bytes → Nat → Option (List Propagated)
  | [], _ => some []
  | ele :: eles, refcount =>
    if refcount < objFirstSpecialRefcount then
      (alsoPropagate key eles (refcount + 1)).map (.srem key ele :: ·)
    else none

/-- The removal of an element that was chosen. -/
def removeChosen (s : SetObject) (ele : Value) : Option SetObject :=
  match ele, s with
  | .int v, .intset is => (intsetRemove is v).map fun r => .intset r.1
  | ele, s => (setTypeRemove s ele.text).map Prod.fst

/-- The loop over the elements that are returned, if they are few. -/
def popLoop (rand : Nat → Nat) : Nat → Nat → SetObject → Option (SetObject × List Bytes)
  | 0, _, s => some (s, [])
  | count + 1, i, s => do
      let ele ← setTypeRandomElement s (rand i)
      let s ← removeChosen s ele
      let (s, popped) ← popLoop rand count (i + 1) s
      some (s, ele.text :: popped)

/-- The loop over the elements that stay, if they are few: the old set and the new one. -/
def keepLoop (cfg : Config) (rand : Nat → Nat) :
    Nat → Nat → SetObject → Option SetObject → Option (SetObject × Option SetObject)
  | 0, _, s, newset => some (s, newset)
  | remaining + 1, i, s, newset => do
      let ele ← setTypeRandomElement s (rand i)
      let (newset, _) ← setTypeAdd cfg (newset.getD (setTypeCreate ele.text)) ele.text
      let (s, _) ← setTypeRemove s ele.text
      keepLoop cfg rand remaining (i + 1) s (some newset)

def spopMoveStrategyMul : Nat := 5

/-- The part of `spopWithCountCommand` where some elements stay. -/
def spopSome (cfg : Config) (rand : Nat → Nat) (db : Db) (key : Bytes) (s : SetObject)
    (count : Nat) : Option (Db × Reply × List Propagated) :=
  let remaining := setTypeSize s - count
  if remaining * spopMoveStrategyMul % 2 ^ 64 > count then do
    let (s, popped) ← popLoop rand count 0 s
    let commands ← alsoPropagate key popped 1
    some (setSet db key s, .members count popped, commands)
  else do
    let (s, newset) ← keepLoop cfg rand remaining 0 s none
    let popped ← forEach s (fun elements ele => some (elements ++ [ele.text])) []
    let commands ← alsoPropagate key popped 1
    let newset ← newset
    some (setSet db key newset, .members count popped, commands)

/-- The random numbers are those of the calls of `setTypeRandomElement`, in their order. The counter
is `server.dirty` before the command; the commands are those that `call` propagates. -/
def spopWithCountCommand (qsort : Qsort) (cfg : Config) (rand : Nat → Nat) (dirty : Int64) (db : Db)
    (key countarg : Bytes) : Option (Db × Reply × List Propagated) :=
  match getLongLongFromObjectOrReply countarg none with
  | .error err => some (db, .error err, [])
  | .ok l =>
    if l < 0 then some (db, .error outofrangeerr, [])
    else
      match db key with
      | none => some (db, .members 0 [], [])
      | some .other => some (db, .error wrongtypeerr, [])
      | some (.set s) =>
        if l.toNat = 0 then some (db, .members 0 [], [])
        else if l.toNat ≥ setTypeSize s then do
          let (db, reply) ← sunionDiffGenericCommand qsort cfg db [key] none .union
          some (dbDelete db key, reply,
            callPropagates dirty (dirty + Int64.ofNat l.toNat + 1) (.del key))
        else spopSome cfg rand db key s l.toNat

end Pop

end Redis.Sets
