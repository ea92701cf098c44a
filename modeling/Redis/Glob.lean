import Redis.Util

/-! The glob-style matcher of util.c. A pattern is NUL terminated and every length fits an
`int`. -/
namespace Redis.Glob

open ByteBuffer Util

/-- A `char` is signed. -/
def schar (c : UInt8) : Int := (c.toNat : Int).bmod 256

/-- `tolower` of a `char`. -/
def lowered (nocase : Bool) (c : UInt8) : Int := schar (if nocase then toLower c else c)

def inRange (nocase : Bool) (start stop c : UInt8) : Bool :=
  let (start, stop) := if schar start > schar stop then (stop, start) else (start, stop)
  lowered nocase start ≤ lowered nocase c ∧ lowered nocase c ≤ lowered nocase stop

/-- The loop over a class, up to its closing bracket or the end of the pattern: whether `c`
was found in it, and the pattern behind it. An escaped byte is compared as it is. -/
def classLoop (nocase : Bool) (c : UInt8) : Bytes → Bool → Bool × Bytes
  | [], found => (found, [])
  | 92 :: e :: rest, found => classLoop nocase c rest (found || e == c)
  | 93 :: rest, found => (found, rest)
  | a :: 45 :: b :: rest, found => classLoop nocase c rest (found || inRange nocase a b c)
  | a :: rest, found => classLoop nocase c rest (found || lowered nocase a == lowered nocase c)

/-- The suffixes of a string that are not empty. -/
def suffixes : Bytes → List Bytes
  | [] => []
  | c :: s => (c :: s) :: suffixes s

/-- One round of the loop: `more` goes on with the pattern and the string behind the byte
that was matched. -/
def matchByte (nocase : Bool) (more : Bytes → Bytes → Bool) (c : UInt8) (s : Bytes) :
    Bytes → Bool
  | 63 :: rest => more rest s
  | 91 :: 94 :: body =>
    let (found, rest) := classLoop nocase c body false
    !found && more rest s
  | 91 :: body =>
    let (found, rest) := classLoop nocase c body false
    found && more rest s
  | 92 :: e :: rest => lowered nocase e == lowered nocase c && more rest s
  | a :: rest => lowered nocase a == lowered nocase c && more rest s
  | [] => false

/-- Each round uses up a byte of the pattern, which bounds the rounds. -/
def stringmatchLoop (nocase : Bool) : Nat → Bytes → Bytes → Bool
  | 0, pattern, string => pattern.isEmpty && string.isEmpty
  | rounds + 1, pattern, string =>
    match pattern, string with
    | [], string => string.isEmpty
    | _ :: _, [] => false
    | 42 :: rest, string =>
      let rest := rest.dropWhile (· = 42)
      rest.isEmpty || (suffixes string).any (stringmatchLoop nocase rounds rest)
    | pattern, c :: s =>
      -- behind the last byte of the string only stars may follow
      let more := fun rest s =>
        if s.isEmpty then (rest.dropWhile (· = 42)).isEmpty
        else stringmatchLoop nocase rounds rest s
      matchByte nocase more c s pattern

def stringmatchlen (pattern string : Bytes) (nocase : Bool) : Bool :=
  stringmatchLoop nocase (pattern.length + 1) pattern string

example : stringmatchlen (word "h[^a]*o") (word "hello") false = true ∧
    stringmatchlen (word "h[^e-a]*") (word "hello") false = false := by
  decide

end Redis.Glob
