import Redis.Shared
import Redis.Strings.Bitfield

/-! The commands of `t_string.c` and `bitops.c` that write to part of a string value, or
make one of others. A value is the text it stands for, whatever its encoding. -/
namespace Redis.Strings

open ByteBuffer Util Shared List

/-- A value of the key space: a string, or some other type. -/
inductive Obj where
  | str (s : Bytes)
  | other
deriving DecidableEq, Repr

abbrev Db : Type := Dict Obj

inductive Reply where
  | error (text : String)
  | integer (v : Int)
  | array (vals : List (Option Int))
deriving DecidableEq, Repr

def Reply.isError : Reply → Bool
  | .error _ => true
  | _ => false

/-- A command is answered, or the server aborts because it got no memory. -/
inductive Outcome where
  | done (reply : Reply) (db : Db)
  | abort

/-- The client that sends the command: its connection to a master is not limited. -/
structure Client where
  master : Bool

/-- The default of `proto-max-bulk-len`. -/
def protoMaxBulkLen : Nat := 512 * 1024 * 1024

/-- Memory that `malloc` can give at all. -/
def ptrdiffMax : Nat := 2 ^ 63 - 1

/-- `sdsnewlen` of zero bytes: a header of up to 17 bytes, the string, and a zero byte. -/
def sdsnewlen (len : Nat) : Option Bytes :=
  if 17 + len + 1 ≤ ptrdiffMax then some (List.replicate len 0) else none

/-- `sdsgrowzero`: a long string is allocated with a megabyte to spare. -/
def sdsgrowzero (s : Bytes) (len : Nat) : Option Bytes :=
  if len ≤ s.length then some s
  else if 17 + (len + 1024 * 1024) + 1 ≤ ptrdiffMax then
    some (s ++ List.replicate (len - s.length) 0)
  else none

/-- A machine word read as a `long long`. -/
def toLongLong (v : Nat) : Int := Int.bmod v (2 ^ 64)

/-- The length is passed as a `long long`. -/
def checkStringLength (c : Client) (size : Int) : Bool :=
  c.master || decide (size ≤ protoMaxBulkLen)

def stringTooLong : String :=
  addReplyError "string exceeds maximum allowed size (proto-max-bulk-len)"

/-- Store a string under a key. -/
def Db.set (db : Db) (key : Bytes) (s : Bytes) : Db := Dict.set db key (.str s)

def appendCommand (c : Client) (db : Db) (key append : Bytes) : Outcome :=
  match db key with
  | none => .done (.integer append.length) (db.set key append)
  | some .other => .done (.error wrongtypeerr) db
  | some (.str s) =>
    if checkStringLength c (toLongLong (s.length + append.length)) then
      .done (.integer (s ++ append).length) (db.set key (s ++ append))
    else .done (.error stringTooLong) db

/-- Make room in a string, and copy the value to its place. -/
def setrangeWrite (db : Db) (key s : Bytes) (offset : Nat) (value : Bytes) : Outcome :=
  match sdsgrowzero s (offset + value.length) with
  | none => .abort
  | some s => .done (.integer (store s offset value).length) (db.set key (store s offset value))

/-- `SETRANGE` with an offset that is not negative. -/
def setrangeAt (c : Client) (db : Db) (key : Bytes) (offset : Nat) (value : Bytes) : Outcome :=
  match db key with
  | none =>
    if value = [] then .done (.integer 0) db
    else if checkStringLength c (toLongLong (offset + value.length)) then
      match sdsnewlen (offset + value.length) with
      | none => .abort
      | some s => setrangeWrite db key s offset value
    else .done (.error stringTooLong) db
  | some .other => .done (.error wrongtypeerr) db
  | some (.str s) =>
    if value = [] then .done (.integer s.length) db
    else if checkStringLength c (toLongLong (offset + value.length)) then
      setrangeWrite db key s offset value
    else .done (.error stringTooLong) db

def setrangeCommand (c : Client) (db : Db) (key offset value : Bytes) : Outcome :=
  match getLongFromObjectOrReply offset none with
  | .error err => .done (.error err) db
  | .ok offset =>
    if offset < 0 then .done (.error (addReplyError "offset is out of range")) db
    else setrangeAt c db key offset.toNat value

def bitOffsetErr : String := addReplyError "bit offset is not an integer or out of range"

/-- The offset of a bit. With `hash`, a number behind `#` counts fields of `bits` bits;
the product wraps around. -/
def getBitOffsetFromArgument (o : Bytes) (hash : Bool) (bits : Nat) : Except String Nat :=
  let usehash := hash && decide (0 < bits) && decide (o.head? = some 35)
  match string2ll (if usehash then o.tail else o) with
  | none => .error bitOffsetErr
  | some loffset =>
    let loffset := if usehash then Int.bmod (loffset * bits) (2 ^ 64) else loffset
    if loffset < 0 ∨ loffset.toNat / 8 ≥ 512 * 1024 * 1024 then .error bitOffsetErr
    else .ok loffset.toNat

def bitfieldTypeErr : String :=
  addReplyError
    "Invalid bitfield type. Use something like i16 u8. Note that u64 is not supported but i64 is."

/-- The sign and the width of a type such as `i16` or `u8`. -/
def getBitfieldTypeFromArgument (o : Bytes) : Except String (Bool × Nat) :=
  match o with
  | [] => .error bitfieldTypeErr
  | kind :: width =>
    if kind = 105 ∨ kind = 117 then
      match string2ll (cString width) with
      | none => .error bitfieldTypeErr
      | some llbits =>
        if llbits < 1 ∨ (kind = 105 ∧ llbits > 64) ∨ (kind = 117 ∧ llbits > 63) then
          .error bitfieldTypeErr
        else .ok (kind = 105, llbits.toNat)
    else .error bitfieldTypeErr

/-- Make room for bit `maxbit` in the string of a key. The string itself is returned;
`.error` holds the outcome if there is none. -/
def lookupStringForBitCommand (db : Db) (key : Bytes) (maxbit : Nat) : Except Outcome Bytes :=
  match db key with
  | none =>
    match sdsnewlen (maxbit / 8 + 1) with
    | none => .error .abort
    | some s => .ok s
  | some .other => .error (.done (.error wrongtypeerr) db)
  | some (.str s) =>
    match sdsgrowzero s (maxbit / 8 + 1) with
    | none => .error .abort
    | some s => .ok s

def bitErr : String := "bit is not an integer or out of range"

def setbitCommand (db : Db) (key offset on : Bytes) : Outcome :=
  match getBitOffsetFromArgument offset false 0 with
  | .error err => .done (.error err) db
  | .ok bitoffset =>
    match getLongFromObjectOrReply on (some bitErr) with
    | .error err => .done (.error err) db
    | .ok on =>
      if on ≠ 0 ∧ on ≠ 1 then .done (.error (addReplyError bitErr)) db
      else
        match lookupStringForBitCommand db key bitoffset with
        | .error outcome => outcome
        | .ok s =>
          .done (.integer (if getBit s bitoffset then 1 else 0))
            (db.set key (setBit s bitoffset (on = 1)))

/-- One step of the argument list of `BITFIELD`; what does not parse ends it. -/
inductive Subcommand where
  | field (opcode : Opcode) (type offset value : Bytes)
  | overflow (owtypename : Bytes)
  | bad
deriving DecidableEq, Repr

def getName : Bytes := [103, 101, 116]

def setName : Bytes := [115, 101, 116]

def incrbyName : Bytes := [105, 110, 99, 114, 98, 121]

def overflowName : Bytes := [111, 118, 101, 114, 102, 108, 111, 119]

def wrapName : Bytes := [119, 114, 97, 112]

def satName : Bytes := [115, 97, 116]

def failName : Bytes := [102, 97, 105, 108]

/-- Cut the arguments into subcommands; each needs its number of arguments. -/
def subcommands : Nat → List Bytes → List Subcommand
  | 0, _ => []
  | _ + 1, [] => []
  | fuel + 1, subcmd :: args =>
    if isName subcmd getName ∧ 2 ≤ args.length then
      .field .get (args.getD 0 []) (args.getD 1 []) [] :: subcommands fuel (args.drop 2)
    else if isName subcmd setName ∧ 3 ≤ args.length then
      .field .set (args.getD 0 []) (args.getD 1 []) (args.getD 2 []) ::
        subcommands fuel (args.drop 3)
    else if isName subcmd incrbyName ∧ 3 ≤ args.length then
      .field .incrby (args.getD 0 []) (args.getD 1 []) (args.getD 2 []) ::
        subcommands fuel (args.drop 3)
    else if isName subcmd overflowName ∧ 1 ≤ args.length then
      .overflow (args.getD 0 []) :: subcommands fuel (args.drop 1)
    else [.bad]

def parseOverflow (owtypename : Bytes) : Except String Overflow :=
  if isName owtypename wrapName then .ok .wrap
  else if isName owtypename satName then .ok .sat
  else if isName owtypename failName then .ok .fail
  else .error (addReplyError "Invalid OVERFLOW type specified")

/-- The operation of a field. The value of `GET` is not read. -/
def parseField (opcode : Opcode) (type offset value : Bytes) (owtype : Overflow) :
    Except String BitfieldOp :=
  match getBitfieldTypeFromArgument type with
  | .error err => .error err
  | .ok (sign, bits) =>
    match getBitOffsetFromArgument offset true bits with
    | .error err => .error err
    | .ok bitoffset =>
      if opcode = .get then .ok ⟨bitoffset, 0, .get, owtype, bits, sign⟩
      else
        match getLongLongFromObjectOrReply value none with
        | .error err => .error err
        | .ok i64 => .ok ⟨bitoffset, BitVec.ofInt 64 i64, opcode, owtype, bits, sign⟩

/-- The operations, or the reply of the first subcommand that is wrong. -/
def parseOps : List Subcommand → Overflow → Except String (List BitfieldOp)
  | [], _ => .ok []
  | .bad :: _, _ => .error syntaxerr
  | .overflow name :: rest, _ =>
    match parseOverflow name with
    | .error err => .error err
    | .ok owtype => parseOps rest owtype
  | .field opcode type offset value :: rest, owtype =>
    match parseField opcode type offset value owtype with
    | .error err => .error err
    | .ok thisop =>
      match parseOps rest owtype with
      | .error err => .error err
      | .ok ops => .ok (thisop :: ops)

/-- The last bit that one of the operations writes. -/
def highestWriteOffset (ops : List BitfieldOp) : Nat :=
  (ops.filter (·.opcode ≠ .get)).foldl (fun high thisop => max high (thisop.offset + thisop.bits - 1)) 0

def bitfieldGeneric (db : Db) (key : Bytes) (args : List Bytes) (flagReadonly : Bool) : Outcome :=
  match parseOps (subcommands args.length args) .wrap with
  | .error err => .done (.error err) db
  | .ok ops =>
    if ∀ thisop ∈ ops, thisop.opcode = .get then
      match db key with
      | some .other => .done (.error wrongtypeerr) db
      | some (.str s) => .done (.array (runOps s ops).2) db
      | none => .done (.array (runOps [] ops).2) db
    else if flagReadonly then
      .done (.error (addReplyError "BITFIELD_RO only supports the GET subcommand")) db
    else
      match lookupStringForBitCommand db key (highestWriteOffset ops) with
      | .error outcome => outcome
      | .ok s => .done (.array (runOps s ops).2) (db.set key (runOps s ops).1)

def bitfieldCommand (db : Db) (key : Bytes) (args : List Bytes) : Outcome :=
  bitfieldGeneric db key args false

inductive Bitop where
  | and
  | or
  | xor
  | not
deriving DecidableEq, Repr

def parseBitop (opname : Bytes) : Option Bitop :=
  if isName opname [97, 110, 100] then some .and
  else if isName opname [111, 114] then some .or
  else if isName opname [120, 111, 114] then some .xor
  else if isName opname [110, 111, 116] then some .not
  else none

/-- The strings of the sources; a missing key is an empty string. -/
def bitopSources (db : Db) : List Bytes → Option (List Bytes)
  | [] => some []
  | key :: keys =>
    match db key with
    | some .other => none
    | some (.str s) => (bitopSources db keys).map (s :: ·)
    | none => (bitopSources db keys).map ([] :: ·)

/-- One byte of the result; the fast path of the source does the same for whole words. -/
def bitopByte (op : Bitop) (src : List Bytes) (j : Nat) : UInt8 :=
  match src with
  | [] => 0
  | first :: rest =>
    let output := first.getD j 0
    rest.foldl
      (fun output s =>
        match op with
        | .and => output &&& s.getD j 0
        | .or => output ||| s.getD j 0
        | .xor => output ^^^ s.getD j 0
        | .not => output)
      (if op = .not then ~~~output else output)

def bitopCommand (db : Db) (opname target : Bytes) (keys : List Bytes) : Outcome :=
  match parseBitop opname with
  | none => .done (.error syntaxerr) db
  | some op =>
    if op = .not ∧ keys.length ≠ 1 then
      .done (.error (addReplyError "BITOP NOT must be called with a single source key.")) db
    else
      match bitopSources db keys with
      | none => .done (.error wrongtypeerr) db
      | some src =>
        let maxlen : Nat := src.foldl (fun m s => max m s.length) 0
        if maxlen ≠ 0 then
          .done (.integer maxlen) (db.set target ((List.range maxlen).map (bitopByte op src)))
        else .done (.integer maxlen) (db.delete target)

end Redis.Strings
