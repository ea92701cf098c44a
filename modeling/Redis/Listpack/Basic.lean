import Redis.Util

/-! The byte-level code of `listpack.c`. A listpack is the string of its bytes
and a pointer into it is an offset; functions that only read from a pointer on
take the bytes from there on. -/
namespace Redis.Listpack

open ByteBuffer Util

def uint32Max : Nat := 2 ^ 32 - 1

def uint64Max : Nat := 2 ^ 64 - 1

def lpHdrSize : Nat := 6

def lpHdrNumeleUnknown : Nat := 65535

def lpEof : Nat := 0xff

/-- The first byte of an element says how it is encoded: the bits under a mask
have a fixed value. -/
def lpEncodingIs (mask value byte : Nat) : Bool := byte &&& mask = value

def lpEncodingIs7BitUint : Nat → Bool := lpEncodingIs 0x80 0
def lpEncodingIs6BitStr : Nat → Bool := lpEncodingIs 0xc0 0x80
def lpEncodingIs13BitInt : Nat → Bool := lpEncodingIs 0xe0 0xc0
def lpEncodingIs12BitStr : Nat → Bool := lpEncodingIs 0xf0 0xe0
def lpEncodingIs16BitInt : Nat → Bool := lpEncodingIs 0xff 0xf1
def lpEncodingIs24BitInt : Nat → Bool := lpEncodingIs 0xff 0xf2
def lpEncodingIs32BitInt : Nat → Bool := lpEncodingIs 0xff 0xf3
def lpEncodingIs64BitInt : Nat → Bool := lpEncodingIs 0xff 0xf4
def lpEncodingIs32BitStr : Nat → Bool := lpEncodingIs 0xff 0xf0

def lpEncoding6BitStrLen (p : Bytes) : Nat := byteAt p 0 &&& 0x3f

def lpEncoding12BitStrLen (p : Bytes) : Nat := ((byteAt p 0 &&& 0xf) <<< 8) ||| byteAt p 1

def lpEncoding32BitStrLen (p : Bytes) : Nat := readLE 4 (p.drop 1)

def lpGetTotalBytes (lp : Bytes) : Nat := readLE 4 lp

def lpGetNumElements (lp : Bytes) : Nat := readLE 2 (lp.drop 4)

def lpSetTotalBytes (lp : Bytes) (v : Nat) : Bytes := store lp 0 (leBytes 4 v)

def lpSetNumElements (lp : Bytes) (v : Nat) : Bytes := store lp 4 (leBytes 2 v)

/-- The same function as `string2ll`, which the source adapts it from. -/
def lpStringToInt64 (s : Bytes) : Option Int := string2ll s

def lpNew : Bytes := leBytes 4 (lpHdrSize + 1) ++ leBytes 2 0 ++ [255]

/-- A signed integer as an unsigned one of so many bits. -/
def unsignedWord (bits : Nat) (v : Int) : Nat := (if v < 0 then 2 ^ bits + v else v).toNat

/-- The integer encodings of `lpEncodeGetType`: what it stores in `intenc`. -/
def lpEncodeInt (v : Int) : Bytes :=
  if 0 ≤ v ∧ v ≤ 127 then [UInt8.ofNat v.toNat]
  else if -4096 ≤ v ∧ v ≤ 4095 then
    let v := unsignedWord 13 v
    [UInt8.ofNat ((v >>> 8) ||| 0xc0), UInt8.ofNat (v &&& 0xff)]
  else if -32768 ≤ v ∧ v ≤ 32767 then
    0xf1 :: leBytes 2 (unsignedWord 16 v)
  else if -8388608 ≤ v ∧ v ≤ 8388607 then
    0xf2 :: leBytes 3 (unsignedWord 24 v)
  else if -2147483648 ≤ v ∧ v ≤ 2147483647 then
    0xf3 :: leBytes 4 (unsignedWord 32 v)
  else 0xf4 :: leBytes 8 (unsignedWord 64 v)

/-- Whether the element is stored as an integer, with its encoding, and the
encoded length. The sums are 32-bit, as `size` is. -/
def lpEncodeGetType (ele : Bytes) : Option Bytes × Nat :=
  match lpStringToInt64 ele with
  | some v => (some (lpEncodeInt v), (lpEncodeInt v).length)
  | none =>
    if ele.length < 64 then (none, 1 + ele.length)
    else if ele.length < 4096 then (none, 2 + ele.length)
    else (none, (5 + ele.length) % 2 ^ 32)

/-- The reverse-encoded length behind an element; without a buffer the code only
returns the number of bytes. -/
def lpEncodeBacklen (l : Nat) : Bytes :=
  if l ≤ 127 then [UInt8.ofNat l]
  else if l < 16383 then [UInt8.ofNat (l >>> 7), UInt8.ofNat ((l &&& 127) ||| 128)]
  else if l < 2097151 then
    [UInt8.ofNat (l >>> 14), UInt8.ofNat (((l >>> 7) &&& 127) ||| 128),
      UInt8.ofNat ((l &&& 127) ||| 128)]
  else if l < 268435455 then
    [UInt8.ofNat (l >>> 21), UInt8.ofNat (((l >>> 14) &&& 127) ||| 128),
      UInt8.ofNat (((l >>> 7) &&& 127) ||| 128), UInt8.ofNat ((l &&& 127) ||| 128)]
  else
    [UInt8.ofNat (l >>> 28), UInt8.ofNat (((l >>> 21) &&& 127) ||| 128),
      UInt8.ofNat (((l >>> 14) &&& 127) ||| 128), UInt8.ofNat (((l >>> 7) &&& 127) ||| 128),
      UInt8.ofNat ((l &&& 127) ||| 128)]

/-- The bytes `lpEncodeString` writes. -/
def lpEncodeString (s : Bytes) : Bytes :=
  if s.length < 64 then UInt8.ofNat (s.length ||| 0x80) :: s
  else if s.length < 4096 then
    UInt8.ofNat ((s.length >>> 8) ||| 0xe0) :: UInt8.ofNat (s.length &&& 0xff) :: s
  else 0xf0 :: leBytes 4 s.length ++ s

def lpCurrentEncodedSize (p : Bytes) : Nat :=
  let b := byteAt p 0
  if lpEncodingIs7BitUint b then 1
  else if lpEncodingIs6BitStr b then 1 + lpEncoding6BitStrLen p
  else if lpEncodingIs13BitInt b then 2
  else if lpEncodingIs16BitInt b then 3
  else if lpEncodingIs24BitInt b then 4
  else if lpEncodingIs32BitInt b then 5
  else if lpEncodingIs64BitInt b then 9
  else if lpEncodingIs12BitStr b then 2 + lpEncoding12BitStrLen p
  else if lpEncodingIs32BitStr b then (5 + lpEncoding32BitStrLen p) % 2 ^ 32
  else if b = lpEof then 1
  else 0

def lpSkip (lp : Bytes) (p : Nat) : Nat :=
  let entrylen := lpCurrentEncodedSize (lp.drop p)
  p + (entrylen + (lpEncodeBacklen entrylen).length)

def lpFirst (lp : Bytes) : Option Nat := if byteAt lp lpHdrSize = lpEof then none else some lpHdrSize

def lpNext (lp : Bytes) (p : Nat) : Option Nat :=
  if byteAt lp (lpSkip lp p) = lpEof then none else some (lpSkip lp p)

/-- The two's complement conversion at the end of `lpGet`. -/
def signedValue (uval negstart negmax : Nat) : Int :=
  if uval ≥ negstart then -((negmax - uval : Nat) : Int) - 1 else uval

/-- `lpGet` without a buffer: the string, or the integer in `*count`. -/
def lpGet (p : Bytes) : Value :=
  let b := byteAt p 0
  if lpEncodingIs7BitUint b then .int (signedValue (b &&& 0x7f) uint64Max 0)
  else if lpEncodingIs6BitStr b then .str ((p.drop 1).take (lpEncoding6BitStrLen p))
  else if lpEncodingIs13BitInt b then
    .int (signedValue (((b &&& 0x1f) <<< 8) ||| byteAt p 1) (2 ^ 12) 8191)
  else if lpEncodingIs16BitInt b then .int (signedValue (readLE 2 (p.drop 1)) (2 ^ 15) (2 ^ 16 - 1))
  else if lpEncodingIs24BitInt b then .int (signedValue (readLE 3 (p.drop 1)) (2 ^ 23) (2 ^ 24 - 1))
  else if lpEncodingIs32BitInt b then .int (signedValue (readLE 4 (p.drop 1)) (2 ^ 31) (2 ^ 32 - 1))
  else if lpEncodingIs64BitInt b then .int (signedValue (readLE 8 (p.drop 1)) (2 ^ 63) (2 ^ 64 - 1))
  else if lpEncodingIs12BitStr b then .str ((p.drop 2).take (lpEncoding12BitStrLen p))
  else if lpEncodingIs32BitStr b then .str ((p.drop 5).take (lpEncoding32BitStrLen p))
  else .int (signedValue (12345678900000000 + b) uint64Max 0)

/-- `LP_BEFORE`, `LP_AFTER` and `LP_REPLACE`. -/
inductive Where where
  | before
  | after
  | replace
deriving DecidableEq, Repr

/-- Give the block behind the `replaced` bytes at `poff` its new place, `len`
bytes behind `poff`. The memory grows before the move and shrinks after it. -/
def relocate (lp : Bytes) (poff replaced len oldBytes newBytes : Nat) (w : Where) : Bytes :=
  let lp := if newBytes > oldBytes then realloc lp newBytes else lp
  let lp :=
    if w = .before then memmove lp (poff + len) poff (oldBytes - poff)
    else
      let lendiff : Int := len - replaced
      memmove lp (poff + replaced + lendiff).toNat (poff + replaced) (oldBytes - poff - replaced)
  if newBytes < oldBytes then realloc lp newBytes else lp

/-- The bytes of the entry that is replaced. -/
def replacedLen (lp : Bytes) (poff : Nat) (w : Where) : Nat :=
  if w = .replace then
    let size := lpCurrentEncodedSize (lp.drop poff)
    (size + (lpEncodeBacklen size).length) % 2 ^ 32
  else 0

/-- The header update at the end of `lpInsert`. -/
def updateNumElements (lp : Bytes) (ele : Option Bytes) (w : Where) : Bytes :=
  if w ≠ .replace ∨ ele.isNone then
    let numElements := lpGetNumElements lp
    if numElements ≠ lpHdrNumeleUnknown then
      if ele.isSome then lpSetNumElements lp (numElements + 1)
      else lpSetNumElements lp ((numElements + 2 ^ 32 - 1) % 2 ^ 32)
    else lp
  else lp

/-- `lpInsert` from the point on where only `LP_BEFORE` and `LP_REPLACE` are
left. -/
def lpInsertAt (lp : Bytes) (ele : Option Bytes) (poff : Nat) (w : Where) :
    Option (Bytes × Option Nat) :=
  let (intenc, enclen) := (ele.map lpEncodeGetType).getD (none, 0)
  let backlen := if ele.isSome then lpEncodeBacklen enclen else []
  let oldBytes := lpGetTotalBytes lp
  let replaced := replacedLen lp poff w
  let newBytes := (oldBytes + enclen + backlen.length + 2 ^ 64 - replaced) % 2 ^ 64
  if newBytes > uint32Max then none
  else
    let lp := relocate lp poff replaced (enclen + backlen.length) oldBytes newBytes w
    let newp := if ele.isNone ∧ byteAt lp poff = lpEof then none else some poff
    let lp :=
      match ele with
      | none => lp
      | some ele => store (store lp poff (intenc.getD (lpEncodeString ele))) (poff + enclen) backlen
    some (lpSetTotalBytes (updateNumElements lp ele w) newBytes, newp)

/-- `lpInsert`, with `*newp` next to the new listpack. No element means deletion;
`none` is the `NULL` of a listpack that would be too large. -/
def lpInsert (lp : Bytes) (ele : Option Bytes) (p : Nat) (w : Where) :
    Option (Bytes × Option Nat) :=
  let w := if ele.isNone then .replace else w
  if w = .after then lpInsertAt lp ele (lpSkip lp p) .before else lpInsertAt lp ele p w

def lpAppend (lp ele : Bytes) : Option Bytes :=
  (lpInsert lp (some ele) (lpGetTotalBytes lp - 1) .before).map Prod.fst

def lpDelete (lp : Bytes) (p : Nat) : Option (Bytes × Option Nat) := lpInsert lp none p .replace

end Redis.Listpack
