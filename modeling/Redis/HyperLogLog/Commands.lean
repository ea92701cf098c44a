import Redis.HyperLogLog.Basic
import Redis.Strings.Commands

/-! The commands `PFADD`, `PFCOUNT` and `PFMERGE` over the key space, where an object is
stored as the bytes of a string. -/
namespace Redis.HyperLogLog

open ByteBuffer Shared Strings

/-- The setting of the server, and the estimate that `hllCount` makes of a histogram. -/
structure Server where
  hllSparseMaxBytes : Nat
  estimate : List Nat → UInt64

def magic : Bytes := [72, 89, 76, 76]

/-- The string of an object. -/
def Hll.toBytes (h : Hll) : Bytes :=
  magic ++ [if h.encoding = .dense then 0 else 1] ++ h.notused ++ h.card ++ h.registers

/-- `isHLLObjectOrReply` for a string: the object it holds. -/
def hllOfBytes (s : Bytes) : Option Hll :=
  if s.length < hllHdrSize ∨ s.take 4 ≠ magic then none
  else
    let hdr := fun encoding => Hll.mk encoding ((s.drop 5).take 3) ((s.drop 8).take 8) (s.drop 16)
    if s.getD 4 0 = 0 then (if s.length ≠ hllDenseSize then none else some (hdr .dense))
    else if s.getD 4 0 = 1 then some (hdr .sparse)
    else none

inductive Reply where
  | error (text : String)
  | integer (v : Int)
  | ok
deriving DecidableEq, Repr

inductive Outcome where
  | done (reply : Reply) (db : Db)
  | assertion

def invalidHllErr : String := "INVALIDOBJ Corrupted HLL object detected"

def notHllErr : String := "WRONGTYPE Key is not a valid HyperLogLog string value."

/-- The object of a key, if there is one. -/
def lookupHll (db : Db) (key : Bytes) : Except String (Option Hll) :=
  match db key with
  | none => .ok none
  | some .other => .error wrongtypeerr
  | some (.str s) =>
    match hllOfBytes s with
    | none => .error notHllErr
    | some o => .ok (some o)

/-- The elements are added one by one, up to an error; the count of updates is kept. -/
inductive Added where
  | ok (o : Hll) (updated : Nat)
  | corrupt (o : Hll)
  | assertion

def addAll (sparseMaxBytes : Nat) : Hll → Nat → List Bytes → Added
  | o, updated, [] => .ok o updated
  | o, updated, ele :: eles =>
    match hllAdd sparseMaxBytes o ele with
    | .changed o => addAll sparseMaxBytes o (updated + 1) eles
    | .same o => addAll sparseMaxBytes o updated eles
    | .corrupt => .corrupt o
    | .assertion => .assertion

def pfaddCommand (srv : Server) (db : Db) (key : Bytes) (eles : List Bytes) : Outcome :=
  match lookupHll db key with
  | .error err => .done (.error err) db
  | .ok found =>
    let created := if found = none then 1 else 0
    match addAll srv.hllSparseMaxBytes (found.getD createHLLObject) created eles with
    | .corrupt o => .done (.error invalidHllErr) (db.set key o.toBytes)
    | .assertion => .assertion
    | .ok o updated =>
      if updated ≠ 0 then .done (.integer 1) (db.set key o.invalidateCache.toBytes)
      else .done (.integer 0) (db.set key o.toBytes)

/-- The histogram and whether the object is invalid, then the estimate. -/
def hllCount (srv : Server) (o : Hll) : UInt64 × Bool :=
  match o.encoding with
  | .dense => (srv.estimate (hllDenseRegHisto o.registers (List.replicate 64 0)), false)
  | .sparse =>
    let (reghisto, invalid) := hllSparseRegHisto o.registers (List.replicate 64 0)
    (srv.estimate reghisto, invalid)

/-- `hllCount` of registers in the raw encoding. -/
def hllCountRaw (srv : Server) (registers : List Nat) : UInt64 :=
  srv.estimate (hllRawRegHisto registers (List.replicate 64 0))

/-- Merge the objects of the keys; missing ones are empty. The flag says whether one of
them is dense; there is no error text if the server ends. -/
def mergeKeys (db : Db) : List Bytes → List Nat → Bool → Except (Option String) (List Nat × Bool)
  | [], max, useDense => .ok (max, useDense)
  | key :: keys, max, useDense =>
    match lookupHll db key with
    | .error err => .error (some err)
    | .ok none => mergeKeys db keys max useDense
    | .ok (some o) =>
      match hllMerge max o with
      | .err => .error (some invalidHllErr)
      | .outside => .error none
      | .ok max => mergeKeys db keys max (useDense || o.encoding = .dense)

def emptyRegisters : List Nat := List.replicate hllRegisters 0

/-- `PFCOUNT` of one key, from the cache if it is valid. -/
def pfcountSingle (srv : Server) (db : Db) (key : Bytes) : Outcome :=
  match lookupHll db key with
  | .error err => .done (.error err) db
  | .ok none => .done (.integer 0) db
  | .ok (some o) =>
    if o.validCache then .done (.integer (toLongLong (readLE 8 o.card))) db
    else
      let (card, invalid) := hllCount srv o
      if invalid then .done (.error invalidHllErr) db
      else
        .done (.integer (toLongLong card.toNat))
          (db.set key { o with card := leBytes 8 card.toNat }.toBytes)

def pfcountCommand (srv : Server) (db : Db) (keys : List Bytes) : Outcome :=
  match keys with
  | [key] => pfcountSingle srv db key
  | keys =>
    match mergeKeys db keys emptyRegisters false with
    | .error none => .assertion
    | .error (some err) => .done (.error err) db
    | .ok (registers, _) => .done (.integer (toLongLong (hllCountRaw srv registers).toNat)) db

/-- Write the registers from `j` on to an object; what `hllSparseSet` returns is not looked at. -/
def writeAll (sparseMaxBytes : Nat) : Hll → Nat → List Nat → Option Hll
  | o, _, [] => some o
  | o, j, count :: counts =>
    if count = 0 then writeAll sparseMaxBytes o (j + 1) counts
    else
      match hllSet sparseMaxBytes o j count with
      | .changed o => writeAll sparseMaxBytes o (j + 1) counts
      | .same o => writeAll sparseMaxBytes o (j + 1) counts
      | .corrupt => writeAll sparseMaxBytes o (j + 1) counts
      | .assertion => none

/-- The object that a merge writes to; its type was checked with those of the sources. -/
def mergeTarget (db : Db) (dest : Bytes) : Hll :=
  match lookupHll db dest with
  | .ok (some o) => o
  | _ => createHLLObject

def pfmergeCommand (srv : Server) (db : Db) (dest : Bytes) (srcs : List Bytes) : Outcome :=
  match mergeKeys db (dest :: srcs) emptyRegisters false with
  | .error none => .assertion
  | .error (some err) => .done (.error err) db
  | .ok (max, useDense) =>
    let o := mergeTarget db dest
    match if useDense then hllSparseToDense o else .ok o with
    | .err => .done (.error invalidHllErr) (db.set dest o.toBytes)
    | .outside => .assertion
    | .ok o =>
      match writeAll srv.hllSparseMaxBytes o 0 max with
      | none => .assertion
      | some o => .done .ok (db.set dest o.invalidateCache.toBytes)

end Redis.HyperLogLog
