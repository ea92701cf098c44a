import Redis.Util

/-! Integers of arbitrary width inside a string, as `bitops.c` reads and writes them
for `BITFIELD`. Machine words of 64 bits are `BitVec 64`; signed ones are read by
their two's complement. -/
namespace Redis.Strings

open ByteBuffer

/-- Bit `offset` of a string; the first bit of a byte is its highest. -/
def getBit (p : Bytes) (offset : Nat) : Bool :=
  (p.getD (offset / 8) 0).toBitVec.getLsbD (7 - offset % 8)

/-- Clear the bit in its byte, then put the new one there. -/
def setBit (p : Bytes) (offset : Nat) (bitval : Bool) : Bytes :=
  p.modify (offset / 8) fun byteval =>
    let bit := UInt8.ofNat (7 - offset % 8)
    (byteval &&& ~~~(1 <<< bit)) ||| ((if bitval then 1 else 0) <<< bit)

/-- The loop runs from the highest bit of the value to its lowest. -/
def setUnsignedBitfield : Bytes → Nat → Nat → BitVec 64 → Bytes
  | p, _, 0, _ => p
  | p, offset, bits + 1, value =>
    setUnsignedBitfield (setBit p offset (value.getLsbD bits)) (offset + 1) bits value

def setSignedBitfield (p : Bytes) (offset bits : Nat) (value : BitVec 64) : Bytes :=
  setUnsignedBitfield p offset bits value

def getUnsignedBitfieldLoop (p : Bytes) : Nat → Nat → BitVec 64 → BitVec 64
  | _, 0, value => value
  | offset, bits + 1, value =>
    getUnsignedBitfieldLoop p (offset + 1) bits
      ((value <<< 1) ||| (if getBit p offset then 1 else 0))

def getUnsignedBitfield (p : Bytes) (offset bits : Nat) : BitVec 64 :=
  getUnsignedBitfieldLoop p offset bits 0

/-- The highest bit of a narrow value is spread over the bits above it. -/
def getSignedBitfield (p : Bytes) (offset bits : Nat) : BitVec 64 :=
  let value := getUnsignedBitfield p offset bits
  if bits < 64 && value.getLsbD (bits - 1) then value ||| (BitVec.allOnes 64 <<< bits) else value

inductive Overflow where
  | wrap
  | sat
  | fail
deriving DecidableEq, Repr

/-- What to store instead if `value + incr` does not fit; `none` if it fits. With `fail`
the caller does not look at the value. -/
def checkUnsignedBitfieldOverflow (value incr : BitVec 64) (bits : Nat) (owtype : Overflow) :
    Option (BitVec 64) :=
  let max : BitVec 64 := if bits = 64 then BitVec.allOnes 64 else (1 <<< bits) - 1
  let maxincr := max - value
  let minincr := -value
  let wrapped := (value + incr) &&& ~~~(BitVec.allOnes 64 <<< bits)
  if max < value ∨ (0 < incr.toInt ∧ maxincr.toInt < incr.toInt) then
    match owtype with
    | .wrap => some wrapped
    | .sat => some max
    | .fail => some value
  else if incr.toInt < 0 ∧ incr.toInt < minincr.toInt then
    match owtype with
    | .wrap => some wrapped
    | .sat => some 0
    | .fail => some value
  else none

def checkSignedBitfieldOverflow (value incr : BitVec 64) (bits : Nat) (owtype : Overflow) :
    Option (BitVec 64) :=
  let max : BitVec 64 := if bits = 64 then BitVec.intMax 64 else (1 <<< (bits - 1)) - 1
  let min : BitVec 64 := -max - 1
  let maxincr := max - value
  let minincr := min - value
  let sum := value + incr
  let mask := BitVec.allOnes 64 <<< bits
  let wrapped :=
    if bits < 64 then (if sum.getLsbD (bits - 1) then sum ||| mask else sum &&& ~~~mask) else sum
  if max.toInt < value.toInt ∨ (bits ≠ 64 ∧ maxincr.toInt < incr.toInt) ∨
      (0 ≤ value.toInt ∧ 0 < incr.toInt ∧ maxincr.toInt < incr.toInt) then
    match owtype with
    | .wrap => some wrapped
    | .sat => some max
    | .fail => some value
  else if value.toInt < min.toInt ∨ (bits ≠ 64 ∧ incr.toInt < minincr.toInt) ∨
      (value.toInt < 0 ∧ incr.toInt < 0 ∧ incr.toInt < minincr.toInt) then
    match owtype with
    | .wrap => some wrapped
    | .sat => some min
    | .fail => some value
  else none

inductive Opcode where
  | get
  | set
  | incrby
deriving DecidableEq, Repr

structure BitfieldOp where
  offset : Nat
  i64 : BitVec 64
  opcode : Opcode
  owtype : Overflow
  bits : Nat
  sign : Bool
deriving DecidableEq, Repr

/-- The overflow check that fits the type. -/
def BitfieldOp.check (thisop : BitfieldOp) (value incr : BitVec 64) : Option (BitVec 64) :=
  if thisop.sign then checkSignedBitfieldOverflow value incr thisop.bits thisop.owtype
  else checkUnsignedBitfieldOverflow value incr thisop.bits thisop.owtype

def BitfieldOp.read (thisop : BitfieldOp) (p : Bytes) (offset : Nat) : BitVec 64 :=
  if thisop.sign then getSignedBitfield p offset thisop.bits
  else getUnsignedBitfield p offset thisop.bits

def BitfieldOp.write (thisop : BitfieldOp) (p : Bytes) (newval : BitVec 64) : Bytes :=
  if thisop.sign then setSignedBitfield p thisop.offset thisop.bits newval
  else setUnsignedBitfield p thisop.offset thisop.bits newval

/-- `SET` and `INCRBY`: the string afterwards and the number replied, if any. -/
def BitfieldOp.store (thisop : BitfieldOp) (p : Bytes) : Bytes × Option Int :=
  let oldval := thisop.read p thisop.offset
  let checked :=
    if thisop.opcode = .incrby then thisop.check oldval thisop.i64 else thisop.check thisop.i64 0
  let newval := checked.getD (if thisop.opcode = .incrby then oldval + thisop.i64 else thisop.i64)
  let retval := if thisop.opcode = .incrby then newval else oldval
  if checked.isSome ∧ thisop.owtype = .fail then (p, none)
  else (thisop.write p newval, some retval.toInt)

/-- `GET` reads nine bytes into a buffer that is filled with zeros. -/
def BitfieldOp.load (thisop : BitfieldOp) (p : Bytes) : Int :=
  let byte := thisop.offset / 8
  let buf := (p.drop byte).take 9
  (thisop.read (buf ++ List.replicate (9 - buf.length) 0) (thisop.offset - byte * 8)).toInt

/-- Execute the operations in order. -/
def runOps : Bytes → List BitfieldOp → Bytes × List (Option Int)
  | p, [] => (p, [])
  | p, thisop :: ops =>
    match thisop.opcode with
    | .get => ((runOps p ops).1, some (thisop.load p) :: (runOps p ops).2)
    | _ =>
      let (p, reply) := thisop.store p
      ((runOps p ops).1, reply :: (runOps p ops).2)

@[simp] theorem setBit_length (p : Bytes) (offset : Nat) (bitval : Bool) :
    (setBit p offset bitval).length = p.length := by
  rw [setBit, List.length_modify]

@[simp] theorem setUnsignedBitfield_length (p : Bytes) (offset bits : Nat) (value : BitVec 64) :
    (setUnsignedBitfield p offset bits value).length = p.length := by
  induction bits generalizing p offset with
  | zero => rfl
  | succ bits ih => rw [setUnsignedBitfield, ih, setBit_length]

theorem BitfieldOp.write_length (thisop : BitfieldOp) (p : Bytes) (newval : BitVec 64) :
    (thisop.write p newval).length = p.length := by
  rw [BitfieldOp.write, setSignedBitfield, ite_self, setUnsignedBitfield_length]

theorem BitfieldOp.store_length (thisop : BitfieldOp) (p : Bytes) :
    (thisop.store p).1.length = p.length := by
  simp only [BitfieldOp.store]
  split_ifs <;> first | rfl | exact thisop.write_length p _

/-- Writing never changes the length of the string. -/
@[simp] theorem runOps_length (p : Bytes) (ops : List BitfieldOp) :
    (runOps p ops).1.length = p.length := by
  induction ops generalizing p with
  | nil => rfl
  | cons thisop ops ih =>
    rw [runOps]
    split
    · exact ih p
    · exact (ih _).trans (thisop.store_length p)

end Redis.Strings
