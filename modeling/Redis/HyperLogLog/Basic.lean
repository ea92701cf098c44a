import Redis.Library.PackedFields
import Redis.Util

/-! The HyperLogLog objects of `hyperloglog.c`: a header and registers that are packed
into six bits each (dense), or written as a sequence of opcodes (sparse). Only the
floating point estimate at the end of `hllCount` is a parameter. -/
namespace Redis.HyperLogLog

open ByteBuffer PackedFields Util

abbrev hllRegisters : Nat := 16384

abbrev hllBits : Nat := 6

abbrev hllHdrSize : Nat := 16

abbrev hllDenseSize : Nat := hllHdrSize + (hllRegisters * hllBits + 7) / 8

inductive Encoding where
  | dense
  | sparse
deriving DecidableEq, Repr

/-- `struct hllhdr` behind its magic, with the registers up to the end of the string. -/
structure Hll where
  encoding : Encoding
  notused : Bytes
  card : Bytes
  registers : Bytes
deriving DecidableEq, Repr

/-- The length of the string. -/
def Hll.sdslen (h : Hll) : Nat := hllHdrSize + h.registers.length

/-- `HLL_INVALIDATE_CACHE`: the highest bit of the cached cardinality. -/
def Hll.invalidateCache (h : Hll) : Hll := { h with card := h.card.modify 7 (· ||| 128) }

/-- `HLL_VALID_CACHE`. -/
def Hll.validCache (h : Hll) : Bool := h.card.getD 7 0 &&& 128 = 0

/-- A length that is passed as an `int`, if it is not negative there. -/
def intLen (len : Nat) : Option Nat :=
  if len % 2 ^ 32 < 2 ^ 31 then some (len % 2 ^ 32) else none

section Hash

/-- One round of eight bytes. -/
def murmurRound (h k : UInt64) : UInt64 :=
  let m : UInt64 := 0xc6a4a7935bd1e995
  let k := k * m
  let k := k ^^^ (k >>> 47)
  (h ^^^ (k * m)) * m

def murmurLoop : Nat → Bytes → UInt64 → UInt64
  | 0, _, h => h
  | n + 1, data, h => murmurLoop n (data.drop 8) (murmurRound h (UInt64.ofNat (readLE 8 data)))

/-- `MurmurHash64A`, whose length is an `int`. There is no result if that is negative: the loop
does not meet its end and reads on behind the key. The bytes behind the last whole word are xored
in from the top one down, which is one xor with their little endian value. -/
def murmurHash64A (key : Bytes) (seed : UInt64) : Option UInt64 :=
  (intLen key.length).map fun len =>
    let m : UInt64 := 0xc6a4a7935bd1e995
    let h := murmurLoop (len / 8) key (seed ^^^ (UInt64.ofNat len * m))
    let data := (key.take len).drop (8 * (len / 8))
    let h := if data = [] then h else (h ^^^ UInt64.ofNat (readLE data.length data)) * m
    let h := (h ^^^ (h >>> 47)) * m
    h ^^^ (h >>> 47)

/-- The loop of `hllPatLen`; the bit set in front of it ends it after fifty rounds. -/
def hllPatLenLoop : Nat → UInt64 → UInt64 → Nat → Nat
  | 0, _, _, count => count
  | fuel + 1, hash, bit, count =>
    if hash &&& bit = 0 then hllPatLenLoop fuel hash (bit <<< 1) (count + 1) else count

/-- The register of an element and the length of the pattern `00..1` in its hash. -/
def hllPatLen (ele : Bytes) : Option (Nat × Nat) :=
  (murmurHash64A ele 0xadc83b19).map fun hash : UInt64 =>
    ((hash &&& 16383).toNat, hllPatLenLoop 50 ((hash >>> 14) ||| ((1 : UInt64) <<< 50)) 1 1)

end Hash

section Dense

/-- `HLL_DENSE_GET_REGISTER`. -/
def denseGet (p : Bytes) (regnum : Nat) : Nat := getField hllBits p regnum

/-- `HLL_DENSE_SET_REGISTER`. -/
def denseSet (p : Bytes) (regnum val : Nat) : Bytes := setField hllBits p regnum val

/-- The registers afterwards, and whether the register was raised. -/
def hllDenseSet (registers : Bytes) (index count : Nat) : Bytes × Bool :=
  if count > denseGet registers index then (denseSet registers index count, true)
  else (registers, false)

/-- One more register with this value. -/
def incr (reghisto : List Nat) (val : Nat) : List Nat := reghisto.modify val (· + 1)

/-- Sixteen registers in the twelve bytes from `r` on. -/
def denseBlock (p : Bytes) (r : Nat) : List Nat :=
  let b := fun i => byteAt p (r + i)
  [b 0 &&& 63,
    ((b 0 >>> 6) ||| (b 1 <<< 2)) &&& 63,
    ((b 1 >>> 4) ||| (b 2 <<< 4)) &&& 63,
    (b 2 >>> 2) &&& 63,
    b 3 &&& 63,
    ((b 3 >>> 6) ||| (b 4 <<< 2)) &&& 63,
    ((b 4 >>> 4) ||| (b 5 <<< 4)) &&& 63,
    (b 5 >>> 2) &&& 63,
    b 6 &&& 63,
    ((b 6 >>> 6) ||| (b 7 <<< 2)) &&& 63,
    ((b 7 >>> 4) ||| (b 8 <<< 4)) &&& 63,
    (b 8 >>> 2) &&& 63,
    b 9 &&& 63,
    ((b 9 >>> 6) ||| (b 10 <<< 2)) &&& 63,
    ((b 10 >>> 4) ||| (b 11 <<< 4)) &&& 63,
    (b 11 >>> 2) &&& 63]

/-- The unrolled loop of the source. -/
def hllDenseRegHisto (registers : Bytes) (reghisto : List Nat) : List Nat :=
  (List.range 1024).foldl (fun histo j => (denseBlock registers (12 * j)).foldl incr histo) reghisto

end Dense

section Sparse

def isZero (b : UInt8) : Bool := b &&& 0xc0 = 0

def isXzero (b : UInt8) : Bool := b &&& 0xc0 = 0x40

def isVal (b : UInt8) : Bool := b &&& 0x80 ≠ 0

def zeroLen (b : UInt8) : Nat := (b &&& 0x3f).toNat + 1

def xzeroLen (b b' : UInt8) : Nat := (((b &&& 0x3f).toNat <<< 8) ||| b'.toNat) + 1

def valValue (b : UInt8) : Nat := ((b >>> 2) &&& 0x1f).toNat + 1

def valLen (b : UInt8) : Nat := (b &&& 0x3).toNat + 1

def valSet (val len : Nat) : Bytes := [UInt8.ofNat ((((val - 1) <<< 2) ||| (len - 1)) ||| 0x80)]

def zeroSet (len : Nat) : Bytes := [UInt8.ofNat (len - 1)]

def xzeroSet (len : Nat) : Bytes :=
  [UInt8.ofNat (((len - 1) >>> 8) ||| 0x40), UInt8.ofNat ((len - 1) &&& 0xff)]

/-- An opcode: a run of zeros in the short or the long form, or of a value. -/
inductive Op where
  | zero (len : Nat)
  | xzero (len : Nat)
  | val (v len : Nat)
deriving DecidableEq, Repr

def Op.runlen : Op → Nat
  | .zero len => len
  | .xzero len => len
  | .val _ len => len

def Op.regval : Op → Nat
  | .zero _ => 0
  | .xzero _ => 0
  | .val v _ => v

/-- The bytes it takes. -/
def Op.size : Op → Nat
  | .xzero _ => 2
  | _ => 1

/-- The opcode at the front of a string. -/
def readOp (s : Bytes) : Op :=
  let b := s.getD 0 0
  if isZero b then .zero (zeroLen b)
  else if isXzero b then .xzero (xzeroLen b (s.getD 1 0))
  else .val (valValue b) (valLen b)

/-- Set a run of dense registers. -/
def denseSetRun : Bytes → Nat → Nat → Nat → Bytes
  | p, _, _, 0 => p
  | p, idx, regval, runlen + 1 => denseSetRun (denseSet p idx regval) (idx + 1) regval runlen

/-- The opcodes of a string, from left to right. -/
def opcodes : Nat → Bytes → List Op
  | 0, _ => []
  | fuel + 1, s => if s = [] then [] else readOp s :: opcodes fuel (s.drop (readOp s).size)

/-- The opcodes that begin in the first `stop` bytes; the last one may end behind them. -/
def opcodesBefore : Nat → Nat → Bytes → List Op
  | 0, _, _ => []
  | fuel + 1, stop, s =>
    if stop = 0 then []
    else readOp s :: opcodesBefore fuel (stop - (readOp s).size) (s.drop (readOp s).size)

/-- `C_OK` with what was made, `C_ERR`, or a write outside of the registers. -/
inductive Converted (α : Type) where
  | ok (a : α)
  | err
  | outside
deriving DecidableEq, Repr

def Converted.map {α β : Type} (f : α → β) : Converted α → Converted β
  | .ok a => .ok (f a)
  | .err => .err
  | .outside => .outside

/-- Behind the loop the index has to be behind the last register. -/
def sparseEnd {α : Type} (idx : Int) (a : α) : Converted α :=
  if idx ≠ hllRegisters then .err else .ok a

/-- The loop of `hllSparseToDense` and `hllMerge` over the opcodes. The index is an `int`; the
limit is checked for values only, on a sum that is an `int` or a `long`. -/
def sparseLoop {α : Type} (sum : Int → Int) (write : α → Nat → Nat → Nat → α) :
    List Op → Int → α → Converted α
  | [], idx, a => sparseEnd idx a
  | .val v len :: ops, idx, a =>
    if sum (len + idx) > hllRegisters then sparseEnd idx a
    else if idx < 0 ∨ idx + len > hllRegisters then .outside
    else sparseLoop sum write ops (idx + len) (write a idx.toNat v len)
  | op :: ops, idx, a => sparseLoop sum write ops (cInt (idx + op.runlen)) a

/-- The header is copied, with the cached cardinality. -/
def hllSparseToDense (o : Hll) : Converted Hll :=
  match o.encoding with
  | .dense => .ok o
  | .sparse =>
    (sparseLoop cInt denseSetRun (opcodes o.registers.length o.registers) 0
      (List.replicate (hllDenseSize - hllHdrSize) 0)).map
        fun dense => { o with encoding := .dense, registers := dense }

/-- Where a register is: its opcode, the one in front of it, and the registers it covers. -/
structure Located where
  p : Nat
  prev : Option Nat
  first : Nat
  op : Op

/-- Step 1 of `hllSparseSet`. -/
def locate (index : Nat) : Nat → Bytes → Nat → Option Nat → Nat → Option Located
  | 0, _, _, _, _ => none
  | fuel + 1, s, p, prev, first =>
    if s = [] then none
    else
      let op := readOp s
      if index ≤ first + op.runlen - 1 then some ⟨p, prev, first, op⟩
      else locate index fuel (s.drop op.size) (p + op.size) (some p) (first + op.runlen)

/-- A run of zeros in the form that its length asks for. -/
def zeroRun (len : Nat) : Bytes := if len > 64 then xzeroSet len else zeroSet len

/-- Step 2, the general case: the opcodes that replace the one that was found. -/
def splitSeq (op : Op) (first index count : Nat) : Bytes :=
  let last := first + op.runlen - 1
  match op with
  | .val curval _ =>
    (if index ≠ first then valSet curval (index - first) else []) ++ valSet count 1 ++
      (if index ≠ last then valSet curval (last - index) else [])
  | _ =>
    (if index ≠ first then zeroRun (index - first) else []) ++ valSet count 1 ++
      (if index ≠ last then zeroRun (last - index) else [])

/-- Step 4: merge neighbouring values, over at most `scanlen` opcodes from `p` on. -/
def mergeScan : Nat → Bytes → Nat → Bytes
  | 0, s, _ => s
  | scanlen + 1, s, p =>
    if s.length ≤ p then s
    else
      let b := s.getD p 0
      if isXzero b then mergeScan scanlen s (p + 2)
      else if isZero b then mergeScan scanlen s (p + 1)
      else if p + 1 < s.length ∧ isVal (s.getD (p + 1) 0) ∧ valValue b = valValue (s.getD (p + 1) 0) ∧
          valLen b + valLen (s.getD (p + 1) 0) ≤ 4 then
        mergeScan scanlen
          (s.take p ++ valSet (valValue b) (valLen b + valLen (s.getD (p + 1) 0)) ++ s.drop (p + 2)) p
      else mergeScan scanlen s (p + 1)

/-- The return values 1, 0 and -1, and the end of the server: an assertion fails, or memory
outside of the registers is written or behind the element is read. -/
inductive SetResult where
  | changed (o : Hll)
  | same (o : Hll)
  | corrupt
  | assertion
deriving DecidableEq, Repr

/-- The label `promote`. -/
def promote (o : Hll) (index count : Nat) : SetResult :=
  match hllSparseToDense o with
  | .err => .corrupt
  | .outside => .assertion
  | .ok o =>
    let (registers, changed) := hllDenseSet o.registers index count
    if changed then .changed { o with registers } else .assertion

/-- The label `updated`. -/
def updated (o : Hll) (registers : Bytes) (prev : Option Nat) : SetResult :=
  .changed (Hll.invalidateCache { o with registers := mergeScan 5 registers (prev.getD 0) })

def hllSparseSet (sparseMaxBytes : Nat) (o : Hll) (index count : Nat) : SetResult :=
  if count > 32 then promote o index count
  else
    match locate index o.registers.length o.registers 0 none 0 with
    | none => .corrupt
    | some ⟨p, prev, first, op⟩ =>
      let replaced := fun seq => o.registers.take p ++ seq ++ o.registers.drop (p + op.size)
      -- cases A, B and C
      if op.regval ≠ 0 ∧ op.regval ≥ count then .same o
      else if op.runlen = 1 ∧ op.size = 1 then updated o (replaced (valSet count 1)) prev
      else
        let seq := splitSeq op first index count
        if seq.length > op.size ∧ o.sdslen + (seq.length - op.size) > sparseMaxBytes then
          promote o index count
        else updated o (replaced seq) prev

/-- The index wraps as an `int`. The counts, also `int`s in the source, are not cut off: they say
nothing about a string whose runs sum up to more than an `int` holds. -/
def sparseRegHistoLoop : List Op → Int → List Nat → List Nat × Int
  | [], idx, reghisto => (reghisto, idx)
  | op :: ops, idx, reghisto =>
    sparseRegHistoLoop ops (cInt (idx + op.runlen)) (reghisto.modify op.regval (· + op.runlen))

/-- The opcodes that `hllSparseRegHisto` reads. Its length is an `int`: a negative one reads
nothing. -/
def histoOps (sparse : Bytes) : List Op :=
  let sparselen := (intLen sparse.length).getD 0
  opcodesBefore sparselen sparselen sparse

/-- The histogram, and whether the registers are not all covered. -/
def hllSparseRegHisto (sparse : Bytes) (reghisto : List Nat) : List Nat × Bool :=
  let scan := sparseRegHistoLoop (histoOps sparse) 0 reghisto
  (scan.1, scan.2 ≠ hllRegisters)

end Sparse

/-- Registers of one byte each, in words of eight. -/
def hllRawRegHisto (registers : List Nat) (reghisto : List Nat) : List Nat :=
  (List.range (hllRegisters / 8)).foldl
    (fun histo j =>
      let bytes := (registers.drop (8 * j)).take 8
      if bytes.all (· = 0) then histo.modify 0 (· + 8) else bytes.foldl incr histo)
    reghisto

/-- Raise a run of registers. -/
def raiseRun : List Nat → Nat → Nat → Nat → List Nat
  | max, _, _, 0 => max
  | max, i, regval, runlen + 1 =>
    raiseRun (max.modify i fun m => if regval > m then regval else m) (i + 1) regval runlen

/-- Merge an object into an array of registers of one byte each. -/
def hllMerge (max : List Nat) (hll : Hll) : Converted (List Nat) :=
  match hll.encoding with
  | .dense =>
    .ok (max.mapIdx fun i m =>
      if denseGet hll.registers i > m then denseGet hll.registers i else m)
  | .sparse => sparseLoop id raiseRun (opcodes hll.registers.length hll.registers) 0 max

/-- One opcode covers the registers of a new object. -/
def createHLLObject : Hll :=
  ⟨.sparse, [0, 0, 0], [0, 0, 0, 0, 0, 0, 0, 0], xzeroSet hllRegisters⟩

/-- Set a register of an object of either encoding. -/
def hllSet (sparseMaxBytes : Nat) (o : Hll) (index count : Nat) : SetResult :=
  match o.encoding with
  | .dense =>
    let (registers, changed) := hllDenseSet o.registers index count
    if changed then .changed { o with registers } else .same o
  | .sparse => hllSparseSet sparseMaxBytes o index count

def hllAdd (sparseMaxBytes : Nat) (o : Hll) (ele : Bytes) : SetResult :=
  match hllPatLen ele with
  | none => .assertion
  | some (index, count) => hllSet sparseMaxBytes o index count

end Redis.HyperLogLog
