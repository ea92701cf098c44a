import Redis.Util

/-! The byte-level code of `ziplist.c`. A ziplist is the string of its bytes
and a pointer into it is an offset; functions that only read from a pointer on
take the bytes from there on. Words are little-endian. -/
namespace Redis.Ziplist

open ByteBuffer Util

def zipEnd : Nat := 255

def zipBigPrevlen : Nat := 254

def uint16Max : Nat := 65535

def ziplistHeaderSize : Nat := 10

def ziplistEndSize : Nat := 1

def zipInt16B : Nat := 0xc0
def zipInt32B : Nat := 0xd0
def zipInt64B : Nat := 0xe0
def zipInt24B : Nat := 0xf0
def zipInt8B : Nat := 0xfe
def zipIntImmMin : Nat := 0xf1
def zipIntImmMax : Nat := 0xfd

/-- The header fields `zlbytes`, `zltail` and `zllen`. -/
def ziplistBytes (zl : Bytes) : Nat := readLE 4 zl

def ziplistTailOffset (zl : Bytes) : Nat := readLE 4 (zl.drop 4)

def ziplistLength (zl : Bytes) : Nat := readLE 2 (zl.drop 8)

def setZiplistBytes (zl : Bytes) (v : Nat) : Bytes := store zl 0 (leBytes 4 v)

def setZiplistTailOffset (zl : Bytes) (v : Nat) : Bytes := store zl 4 (leBytes 4 v)

def setZiplistLength (zl : Bytes) (v : Nat) : Bytes := store zl 8 (leBytes 2 v)

/-- The increment is an integer converted to an unsigned one. -/
def ziplistIncrLength (zl : Bytes) (incr : Int) : Bytes :=
  if ziplistLength zl < uint16Max then
    setZiplistLength zl ((ziplistLength zl + incr) % 2 ^ 16).toNat
  else zl

structure ZlEntry where
  prevrawlensize : Nat
  prevrawlen : Nat
  lensize : Nat
  len : Nat
  headersize : Nat
  encoding : Nat
deriving DecidableEq, Repr

/-- `ZIP_IS_STR`. -/
def zipIsStr (encoding : Nat) : Bool := encoding &&& 0xc0 < 0xc0

/-- `ZIP_ENTRY_ENCODING` at the bytes `p`. -/
def zipEntryEncoding (p : Bytes) : Nat :=
  if byteAt p 0 < 0xc0 then byteAt p 0 &&& 0xc0 else byteAt p 0

/-- Bytes of an integer of this encoding; an invalid one panics. -/
def zipIntSize (encoding : Nat) : Option Nat :=
  if encoding = zipInt8B then some 1
  else if encoding = zipInt16B then some 2
  else if encoding = zipInt24B then some 3
  else if encoding = zipInt32B then some 4
  else if encoding = zipInt64B then some 8
  else if zipIntImmMin ≤ encoding ∧ encoding ≤ zipIntImmMax then some 0
  else none

/-- The header bytes `zipStoreEntryEncoding` writes; without a destination it
only returns their number. -/
def zipStoreEntryEncoding (encoding rawlen : Nat) : Bytes :=
  if zipIsStr encoding then
    if rawlen ≤ 0x3f then [UInt8.ofNat rawlen]
    else if rawlen ≤ 0x3fff then
      [UInt8.ofNat (0x40 ||| ((rawlen >>> 8) &&& 0x3f)), UInt8.ofNat (rawlen &&& 0xff)]
    else
      [0x80, UInt8.ofNat ((rawlen >>> 24) &&& 0xff), UInt8.ofNat ((rawlen >>> 16) &&& 0xff),
        UInt8.ofNat ((rawlen >>> 8) &&& 0xff), UInt8.ofNat (rawlen &&& 0xff)]
  else [UInt8.ofNat encoding]

/-- `ZIP_DECODE_LENGTH`: the encoding, the size of the header and the length
of the data. -/
def zipDecodeLength (p : Bytes) : Nat × Nat × Nat :=
  let encoding := zipEntryEncoding p
  if encoding < 0xc0 then
    if encoding = 0 then (encoding, 1, byteAt p 0 &&& 0x3f)
    else if encoding = 0x40 then
      (encoding, 2, ((byteAt p 0 &&& 0x3f) <<< 8) ||| byteAt p 1)
    else
      (encoding, 5, (byteAt p 1 <<< 24) ||| (byteAt p 2 <<< 16) ||| (byteAt p 3 <<< 8) |||
        byteAt p 4)
  else (encoding, 1, (zipIntSize encoding).getD 0)

def zipStorePrevEntryLengthLarge (len : Nat) : Bytes := 254 :: leBytes 4 len

def zipStorePrevEntryLength (len : Nat) : Bytes :=
  if len < zipBigPrevlen then [UInt8.ofNat len] else zipStorePrevEntryLengthLarge len

/-- `ZIP_DECODE_PREVLENSIZE`. -/
def zipDecodePrevlensize (p : Bytes) : Nat := if byteAt p 0 < zipBigPrevlen then 1 else 5

/-- `ZIP_DECODE_PREVLEN`. -/
def zipDecodePrevlen (p : Bytes) : Nat :=
  if zipDecodePrevlensize p = 1 then byteAt p 0 else readLE 4 (p.drop 1)

def zipPrevLenByteDiff (p : Bytes) (len : Nat) : Int :=
  (zipStorePrevEntryLength len).length - zipDecodePrevlensize p

def zipRawEntryLength (p : Bytes) : Nat :=
  let prevlensize := zipDecodePrevlensize p
  let (_, lensize, len) := zipDecodeLength (p.drop prevlensize)
  prevlensize + lensize + len

/-- The smallest encoding that holds a value. -/
def zipIntEncoding (value : Int) : Nat :=
  if 0 ≤ value ∧ value ≤ 12 then zipIntImmMin + value.toNat
  else if -2 ^ 7 ≤ value ∧ value ≤ 2 ^ 7 - 1 then zipInt8B
  else if -2 ^ 15 ≤ value ∧ value ≤ 2 ^ 15 - 1 then zipInt16B
  else if -2 ^ 23 ≤ value ∧ value ≤ 2 ^ 23 - 1 then zipInt24B
  else if -2 ^ 31 ≤ value ∧ value ≤ 2 ^ 31 - 1 then zipInt32B
  else zipInt64B

def zipTryEncoding (entry : Bytes) : Option (Int × Nat) :=
  if entry.length ≥ 32 ∨ entry.length = 0 then none
  else (string2ll entry).map fun value => (value, zipIntEncoding value)

/-- A C integer stored in so many bytes. -/
def intBytes (n : Nat) (value : Int) : Bytes := leBytes n (value % 256 ^ n).toNat

def zipSaveInteger (value : Int) (encoding : Nat) : Bytes :=
  if encoding = zipInt8B then intBytes 1 value
  else if encoding = zipInt16B then intBytes 2 value
  else if encoding = zipInt24B then (intBytes 4 (value * 256)).drop 1
  else if encoding = zipInt32B then intBytes 4 value
  else if encoding = zipInt64B then intBytes 8 value
  else []

/-- The bytes read as a signed word. -/
def loadInt (n : Nat) (p : Bytes) : Int := Int.bmod (readLE n p) (256 ^ n)

def zipLoadInteger (p : Bytes) (encoding : Nat) : Int :=
  if encoding = zipInt8B then loadInt 1 p
  else if encoding = zipInt16B then loadInt 2 p
  else if encoding = zipInt32B then loadInt 4 p
  else if encoding = zipInt24B then loadInt 4 (0 :: p) / 256
  else if encoding = zipInt64B then loadInt 8 p
  else (encoding &&& 0x0f : Nat) - 1

def zipEntry (p : Bytes) : ZlEntry :=
  let prevrawlensize := zipDecodePrevlensize p
  let (encoding, lensize, len) := zipDecodeLength (p.drop prevrawlensize)
  { prevrawlensize, prevrawlen := zipDecodePrevlen p, lensize, len,
    headersize := prevrawlensize + lensize, encoding }

/-- The header followed by the end marker, as `ziplistNew` fills it in. -/
def ziplistNew : Bytes :=
  leBytes 4 (ziplistHeaderSize + ziplistEndSize) ++ leBytes 4 ziplistHeaderSize ++ leBytes 2 0 ++
    [255]

/-- `ziplistResize` takes the new size as an `unsigned int`. -/
def ziplistResize (zl : Bytes) (len : Nat) : Bytes :=
  let len := len % 2 ^ 32
  store (setZiplistBytes (realloc zl len) len) (len - 1) [255]

/-- The part of `__ziplistCascadeUpdate` that makes the `prevlen` field of the
entry at `np`, now of `prevsize` bytes, wide enough for `rawlen`. -/
def widenPrevlen (zl : Bytes) (curlen np prevsize rawlen : Nat) : Bytes :=
  let rawlensize := (zipStorePrevEntryLength rawlen).length
  let extra := rawlensize - prevsize
  let zl := ziplistResize zl (curlen + extra)
  let zl :=
    if ziplistTailOffset zl ≠ np then setZiplistTailOffset zl (ziplistTailOffset zl + extra) else zl
  let zl := memmove zl (np + rawlensize) (np + prevsize) (curlen - np - prevsize - 1)
  store zl np (zipStorePrevEntryLength rawlen)

/-- The loop of `__ziplistCascadeUpdate`. Each round moves on by one entry. -/
def cascadeLoop : Nat → Bytes → Nat → Nat → Bytes
  | 0, zl, _, _ => zl
  | fuel + 1, zl, curlen, p =>
    if byteAt zl p = zipEnd then zl
    else
      let cur := zipEntry (zl.drop p)
      let rawlen := cur.headersize + cur.len
      let rawlensize := (zipStorePrevEntryLength rawlen).length
      if byteAt zl (p + rawlen) = zipEnd then zl
      else
        let next := zipEntry (zl.drop (p + rawlen))
        if next.prevrawlen = rawlen then zl
        else if next.prevrawlensize < rawlensize then
          cascadeLoop fuel (widenPrevlen zl curlen (p + rawlen) next.prevrawlensize rawlen)
            (curlen + (rawlensize - next.prevrawlensize)) (p + rawlen)
        else if next.prevrawlensize > rawlensize then
          store zl (p + rawlen) (zipStorePrevEntryLengthLarge rawlen)
        else store zl (p + rawlen) (zipStorePrevEntryLength rawlen)

/-- `__ziplistCascadeUpdate`; there are fewer entries than bytes. -/
def ziplistCascadeUpdate (zl : Bytes) (p : Nat) : Bytes :=
  cascadeLoop zl.length zl (ziplistBytes zl) p

/-- Add `diff` to the tail offset unless the entry at `p` is the last one. -/
def adjustTail (zl : Bytes) (p : Nat) (diff : Int) : Bytes :=
  let tail := zipEntry (zl.drop p)
  if byteAt zl (p + tail.headersize + tail.len) ≠ zipEnd then
    setZiplistTailOffset zl ((ziplistTailOffset zl + diff) % 2 ^ 32).toNat
  else zl

/-- The loop of `__ziplistDelete` that walks over the entries to delete. -/
def skipEntries : Nat → Bytes → Nat → Nat → Nat × Nat
  | 0, _, p, deleted => (p, deleted)
  | num + 1, zl, p, deleted =>
    if byteAt zl p = zipEnd then (p, deleted)
    else skipEntries num zl (p + zipRawEntryLength (zl.drop p)) (deleted + 1)

/-- The part of `__ziplistDelete` before the resizing: what follows the deleted
entries, which reach from `firstp` to `p`, moves to the front. The second
component is `nextdiff`. -/
def closeGap (zl : Bytes) (firstp p prevrawlen : Nat) : Bytes × Int :=
  let totlen := p - firstp
  if byteAt zl p ≠ zipEnd then
    let nextdiff := zipPrevLenByteDiff (zl.drop p) prevrawlen
    let p := (p - nextdiff).toNat
    let zl := store zl p (zipStorePrevEntryLength prevrawlen)
    let zl := setZiplistTailOffset zl (ziplistTailOffset zl - totlen)
    let zl := adjustTail zl p nextdiff
    (memmove zl firstp p (ziplistBytes zl - p - 1), nextdiff)
  else (setZiplistTailOffset zl (firstp - prevrawlen), 0)

/-- `__ziplistDelete`. -/
def ziplistDeleteAt (zl : Bytes) (p num : Nat) : Bytes :=
  let first := zipEntry (zl.drop p)
  let firstp := p
  let (p, deleted) := skipEntries num zl p 0
  let totlen := p - firstp
  if totlen > 0 then
    let (zl, nextdiff) := closeGap zl firstp p first.prevrawlen
    let zl := ziplistResize zl (ziplistBytes zl - totlen + nextdiff).toNat
    let zl := ziplistIncrLength zl (-deleted)
    if nextdiff ≠ 0 then ziplistCascadeUpdate zl firstp else zl
  else zl

/-- The length of the entry before `p`, found by `__ziplistInsert`. -/
def prevlenAt (zl : Bytes) (p : Nat) : Nat :=
  if byteAt zl p ≠ zipEnd then zipDecodePrevlen (zl.drop p)
  else
    let ptail := ziplistTailOffset zl
    if byteAt zl ptail ≠ zipEnd then zipRawEntryLength (zl.drop ptail) else 0

/-- The part of `__ziplistInsert` that makes room for `reqlen` bytes at `p`
and stores that length in the entry that follows. -/
def makeRoom (zl : Bytes) (p curlen reqlen : Nat) (nextdiff : Int) (forcelarge : Bool) : Bytes :=
  if byteAt zl p ≠ zipEnd then
    let zl := memmove zl (p + reqlen) (p - nextdiff).toNat (curlen - p - 1 + nextdiff).toNat
    let zl :=
      if forcelarge then store zl (p + reqlen) (zipStorePrevEntryLengthLarge reqlen)
      else store zl (p + reqlen) (zipStorePrevEntryLength reqlen)
    let zl := setZiplistTailOffset zl (ziplistTailOffset zl + reqlen)
    adjustTail zl (p + reqlen) nextdiff
  else setZiplistTailOffset zl p

/-- The three stores that write the new entry itself. -/
def writeEntry (zl : Bytes) (p prevlen : Nat) (header data : Bytes) : Bytes :=
  let zl := store zl p (zipStorePrevEntryLength prevlen)
  let p := p + (zipStorePrevEntryLength prevlen).length
  let zl := store zl p header
  store zl (p + header.length) data

/-- `__ziplistInsert`. -/
def ziplistInsert (zl : Bytes) (p : Nat) (s : Bytes) : Bytes :=
  let curlen := ziplistBytes zl
  let prevlen := prevlenAt zl p
  let encoded := zipTryEncoding s
  let encoding := (encoded.map Prod.snd).getD 0
  let datalen := if encoded.isSome then (zipIntSize encoding).getD 0 else s.length
  let reqlen := datalen + (zipStorePrevEntryLength prevlen).length +
    (zipStoreEntryEncoding encoding s.length).length
  let diff := if byteAt zl p ≠ zipEnd then zipPrevLenByteDiff (zl.drop p) reqlen else 0
  let forcelarge : Bool := diff = -4 ∧ reqlen < 4
  let nextdiff := if forcelarge then 0 else diff
  let zl := ziplistResize zl (curlen + reqlen + nextdiff).toNat
  let zl := makeRoom zl p curlen reqlen nextdiff forcelarge
  let zl := if nextdiff ≠ 0 then ziplistCascadeUpdate zl (p + reqlen) else zl
  let data :=
    if zipIsStr encoding then s else zipSaveInteger ((encoded.map Prod.fst).getD 0) encoding
  let zl := writeEntry zl p prevlen (zipStoreEntryEncoding encoding s.length) data
  ziplistIncrLength zl 1

/-- The two ends `ziplistPush` works at. -/
inductive Where where
  | head
  | tail
deriving DecidableEq, Repr

def ziplistPush (zl s : Bytes) : Where → Bytes
  | .head => ziplistInsert zl ziplistHeaderSize s
  | .tail => ziplistInsert zl (ziplistBytes zl - 1) s

/-- The backward walk of `ziplistIndex`, with what is left of the index. -/
def indexBack (zl : Bytes) : Nat → Nat → Nat × Nat
  | 0, p => (p, 0)
  | index + 1, p =>
    let prevlen := zipDecodePrevlen (zl.drop p)
    if prevlen > 0 then indexBack zl index (p - prevlen) else (p, index + 1)

/-- The forward walk of `ziplistIndex`. -/
def indexForward (zl : Bytes) : Nat → Nat → Nat × Nat
  | 0, p => (p, 0)
  | index + 1, p =>
    if byteAt zl p = zipEnd then (p, index + 1)
    else indexForward zl index (p + zipRawEntryLength (zl.drop p))

def ziplistIndex (zl : Bytes) (index : Int) : Option Nat :=
  let (p, left) :=
    if index < 0 then
      let p := ziplistTailOffset zl
      if byteAt zl p ≠ zipEnd then indexBack zl (-index - 1).toNat p
      else (p, (-index - 1).toNat)
    else indexForward zl index.toNat ziplistHeaderSize
  if byteAt zl p = zipEnd ∨ left > 0 then none else some p

def ziplistNext (zl : Bytes) (p : Nat) : Option Nat :=
  if byteAt zl p = zipEnd then none
  else
    let p := p + zipRawEntryLength (zl.drop p)
    if byteAt zl p = zipEnd then none else some p

/-- `ziplistGet` at an entry, the bytes from it on. -/
def ziplistGet (p : Bytes) : Option Value :=
  if byteAt p 0 = zipEnd then none
  else
    let entry := zipEntry p
    if zipIsStr entry.encoding then some (.str ((p.drop entry.headersize).take entry.len))
    else some (.int (zipLoadInteger (p.drop entry.headersize) entry.encoding))

/-- `ziplistDelete`; the pointer it updates keeps its offset. -/
def ziplistDelete (zl : Bytes) (p : Nat) : Bytes := ziplistDeleteAt zl p 1

def ziplistDeleteRange (zl : Bytes) (index : Int) (num : Nat) : Bytes :=
  match ziplistIndex zl index with
  | none => zl
  | some p => ziplistDeleteAt zl p num

end Redis.Ziplist
