import Redis.Util

/-! Quoted strings: `sdscatrepr` writes one, and `sdssplitargs` reads a line of words, quoted
or not. -/
namespace Redis.Sds

open ByteBuffer Util

section Write

def isprint (c : UInt8) : Bool := 32 ≤ c.toNat && c.toNat ≤ 126

/-- One byte of the string. -/
def reprByte (c : UInt8) : Bytes :=
  if c = 92 ∨ c = 34 then [92, c]
  else if c = 10 then [92, 110]
  else if c = 13 then [92, 114]
  else if c = 9 then [92, 116]
  else if c = 7 then [92, 97]
  else if c = 8 then [92, 98]
  else if isprint c then [c]
  else [92, 120, hexDigit (c.toNat / 16), hexDigit (c.toNat % 16)]

def sdscatrepr (s p : Bytes) : Bytes := s ++ 34 :: p.flatMap reprByte ++ [34]

end Write

section Read

def isHexDigit (c : UInt8) : Bool :=
  (48 ≤ c.toNat && c.toNat ≤ 57) || (97 ≤ c.toNat && c.toNat ≤ 102) ||
    (65 ≤ c.toNat && c.toNat ≤ 70)

def hexDigitToInt (c : UInt8) : Nat :=
  if 48 ≤ c.toNat ∧ c.toNat ≤ 57 then c.toNat - 48
  else if 97 ≤ c.toNat ∧ c.toNat ≤ 102 then c.toNat - 87
  else if 65 ≤ c.toNat ∧ c.toNat ≤ 70 then c.toNat - 55
  else 0

/-- What a character stands for behind a backslash. -/
def unescape (c : UInt8) : UInt8 :=
  if c = 110 then 10
  else if c = 114 then 13
  else if c = 116 then 9
  else if c = 98 then 8
  else if c = 97 then 7
  else c

/-- Behind a closing quote there is white space or nothing. -/
def closeToken (current : Bytes) : Bytes → Option (Bytes × Bytes)
  | [] => some (current, [])
  | c :: rest => if isspace c then some (current, c :: rest) else none

/-- From inside double quotes to the end of the token: the token and what is left of the
line. -/
def doubleQuoted : Bytes → Bytes → Option (Bytes × Bytes)
  | _, [] => none
  | current, 92 :: 120 :: a :: b :: rest =>
    if isHexDigit a ∧ isHexDigit b then
      doubleQuoted (current ++ [UInt8.ofNat (hexDigitToInt a * 16 + hexDigitToInt b)]) rest
    else doubleQuoted (current ++ [120]) (a :: b :: rest)
  | current, 92 :: c :: rest => doubleQuoted (current ++ [unescape c]) rest
  | current, c :: rest =>
    if c = 34 then closeToken current rest else doubleQuoted (current ++ [c]) rest

def singleQuoted : Bytes → Bytes → Option (Bytes × Bytes)
  | _, [] => none
  | current, 92 :: 39 :: rest => singleQuoted (current ++ [39]) rest
  | current, c :: rest =>
    if c = 39 then closeToken current rest else singleQuoted (current ++ [c]) rest

def isSeparator (c : UInt8) : Bool := c = 32 || c = 10 || c = 13 || c = 9

/-- From outside quotes to the end of the token; a separator is used up. -/
def readToken : Bytes → Bytes → Option (Bytes × Bytes)
  | current, [] => some (current, [])
  | current, c :: rest =>
    if isSeparator c then some (current, rest)
    else if c = 34 then doubleQuoted current rest
    else if c = 39 then singleQuoted current rest
    else readToken (current ++ [c]) rest

/-- What a call ends with. The third end is an overflow of `*argc`, which is an `int`. -/
inductive Split where
  | tokens (argv : List Bytes)
  | null
  | overflow
deriving DecidableEq, Repr

/-- The loop over the tokens, with a bound on its rounds. For each token `(*argc)+1` is computed,
the new size of the array. -/
def splitLoop : Nat → Bytes → List Bytes → Option Split
  | 0, _, _ => none
  | rounds + 1, p, argv =>
    let p := p.dropWhile isspace
    if p = [] then some (.tokens argv)
    else
      match readToken [] p with
      | none => some .null
      | some (current, rest) =>
        if argv.length + 1 < 2 ^ 31 then splitLoop rounds rest (argv ++ [current])
        else some .overflow

def sdssplitargs (line : Bytes) : Option Split :=
  splitLoop ((cString line).length + 1) (cString line) []

example : sdssplitargs (word "set k \"a\\x41\\n\" 'it\\'s'") =
    some (.tokens [word "set", word "k", [97, 65, 10], word "it's"]) := by decide

end Read

end Redis.Sds
