import Redis.Ziplist.Basic

/-! The sets of integers of `intset.c`: a sorted array of cells of two, four or eight bytes. A
result `none` is an access outside the memory of the set. -/
namespace Redis.Intsets

open ByteBuffer Util
open Ziplist (intBytes loadInt)

/-- The two words of the header, and the bytes that are allocated behind it. -/
structure Intset where
  encoding : Nat
  length : Nat
  contents : Bytes
deriving DecidableEq, Repr

def intsetEncInt16 : Nat := 2
def intsetEncInt32 : Nat := 4
def intsetEncInt64 : Nat := 8

/-- `_intsetValueEncoding`. -/
def intsetValueEncoding (v : Int) : Nat :=
  if v < -2 ^ 31 ∨ v > 2 ^ 31 - 1 then intsetEncInt64
  else if v < -2 ^ 15 ∨ v > 2 ^ 15 - 1 then intsetEncInt32
  else intsetEncInt16

/-- `_intsetGetEncoded`. -/
def intsetGetEncoded (is : Intset) (pos : Int) (enc : Nat) : Option Int :=
  if 0 ≤ pos ∧ (pos.toNat + 1) * enc ≤ is.contents.length then
    some (loadInt enc (is.contents.drop (pos.toNat * enc)))
  else none

/-- `_intsetGet`. -/
def intsetGetAt (is : Intset) (pos : Int) : Option Int := intsetGetEncoded is pos is.encoding

/-- `_intsetSet`. -/
def intsetSetAt (is : Intset) (pos : Nat) (value : Int) : Option Intset :=
  if (pos + 1) * is.encoding ≤ is.contents.length then
    some { is with contents := store is.contents (pos * is.encoding) (intBytes is.encoding value) }
  else none

def intsetNew : Intset := ⟨intsetEncInt16, 0, []⟩

/-- The size is a 32-bit word. -/
def intsetResize (is : Intset) (len : Nat) : Intset :=
  { is with contents := realloc is.contents (len * is.encoding % 2 ^ 32) }

/-- The loop of `intsetSearch`, which ends with `min`, `mid` and `cur`. -/
def searchLoop (is : Intset) (value : Int) : Nat → Int → Int → Int → Int → Option (Int × Int × Int)
  | 0, _, _, _, _ => none
  | fuel + 1, min, max, mid, cur =>
    if max ≥ min then do
      let mid := (min + max) / 2
      let cur ← intsetGetAt is mid
      if value > cur then searchLoop is value fuel (mid + 1) max mid cur
      else if value < cur then searchLoop is value fuel min (mid - 1) mid cur
      else some (min, mid, cur)
    else some (min, mid, cur)

/-- Whether the value is there, and its place or the place for it. -/
def intsetSearch (is : Intset) (value : Int) : Option (Bool × Nat) :=
  if is.length = 0 then some (false, 0)
  else do
    let max := cInt (is.length - 1)
    let last ← intsetGetAt is max
    let first ← intsetGetAt is 0
    if value > last then some (false, is.length)
    else if value < first then some (false, 0)
    else do
      let (min, mid, cur) ← searchLoop is value (is.length + 1) 0 max (-1) (-1)
      if value = cur then some (true, mid.toNat) else some (false, min.toNat)

/-- The loop of `intsetUpgradeAndAdd`, from the last value to the first. -/
def upgradeLoop (curenc prepend : Nat) : Nat → Intset → Option Intset
  | 0, is => some is
  | length + 1, is => do
      let value ← intsetGetEncoded is length curenc
      let is ← intsetSetAt is (length + prepend) value
      upgradeLoop curenc prepend length is

def intsetUpgradeAndAdd (is : Intset) (value : Int) : Option Intset := do
  let curenc := is.encoding
  let newenc := intsetValueEncoding value
  let length := is.length
  let prepend := if value < 0 then 1 else 0
  let is := intsetResize { is with encoding := newenc } (length + 1)
  let is ← upgradeLoop curenc prepend length is
  let is ← intsetSetAt is (if value < 0 then 0 else is.length) value
  some { is with length := (is.length + 1) % 2 ^ 32 }

def intsetMoveTail (is : Intset) (source target : Nat) : Option Intset :=
  let bytes := (is.length - source) * is.encoding % 2 ^ 32
  if source * is.encoding + bytes ≤ is.contents.length ∧
      target * is.encoding + bytes ≤ is.contents.length then
    some { is with
      contents := memmove is.contents (target * is.encoding) (source * is.encoding) bytes }
  else none

/-- The result says whether the value was added. -/
def intsetAdd (is : Intset) (value : Int) : Option (Intset × Bool) :=
  if intsetValueEncoding value > is.encoding then (intsetUpgradeAndAdd is value).map (·, true)
  else do
    let (found, pos) ← intsetSearch is value
    if found then some (is, false)
    else do
      let is := intsetResize is (is.length + 1)
      let is ← (if pos < is.length then intsetMoveTail is pos (pos + 1) else some is)
      let is ← intsetSetAt is pos value
      some ({ is with length := (is.length + 1) % 2 ^ 32 }, true)

/-- The result says whether the value was there. -/
def intsetRemove (is : Intset) (value : Int) : Option (Intset × Bool) :=
  if intsetValueEncoding value > is.encoding then some (is, false)
  else do
    let (found, pos) ← intsetSearch is value
    if found then do
      let len := is.length
      let is ← (if pos < len - 1 then intsetMoveTail is (pos + 1) pos else some is)
      some ({ intsetResize is (len - 1) with length := len - 1 }, true)
    else some (is, false)

def intsetFind (is : Intset) (value : Int) : Option Bool :=
  if intsetValueEncoding value > is.encoding then some false
  else (intsetSearch is value).map Prod.fst

/-- The inner `none` is a position out of range. -/
def intsetGet (is : Intset) (pos : Nat) : Option (Option Int) :=
  if pos < is.length then (intsetGetAt is pos).map some else some none

def intsetLen (is : Intset) : Nat := is.length

end Redis.Intsets
