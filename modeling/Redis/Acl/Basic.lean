import Redis.Acl.Commands

/-! Access control lists: the rules of `ACLSetUser`, the description that
`ACLDescribeUser` gives of a user, and the check that is made before a command runs. -/
namespace Redis.Acl

open ByteBuffer Util Glob

section Users

/-- A user, with the flags as one field each. `allowedSubcommands` has the first arguments that
a command with a given identifier may be called with, although its bit is not set. -/
structure User where
  enabled : Bool
  disabled : Bool
  allkeys : Bool
  allcommands : Bool
  nopass : Bool
  allowedCommands : BitVec userCommandBitsCount
  allowedSubcommands : Nat → List Bytes
  passwords : List Bytes
  patterns : List Bytes

/-- The user that `ACLCreateUser` makes. -/
def aclCreateUser : User where
  enabled := false
  disabled := true
  allkeys := false
  allcommands := false
  nopass := false
  allowedCommands := 0
  allowedSubcommands := fun _ => []
  passwords := []
  patterns := []

def aclGetUserCommandBit (u : User) (id : Nat) : Bool := u.allowedCommands.getLsbD id

def aclUserCanExecuteFutureCommands (u : User) : Bool :=
  aclGetUserCommandBit u (userCommandBitsCount - 1)

/-- An identifier that is too large changes nothing. -/
def aclSetUserCommandBit (u : User) (id : Nat) (value : Bool) : User :=
  if id ≥ userCommandBitsCount then u
  else if value then
    { u with allowedCommands := u.allowedCommands ||| BitVec.twoPow userCommandBitsCount id }
  else
    { u with
      allowedCommands := u.allowedCommands &&& ~~~ BitVec.twoPow userCommandBitsCount id
      allcommands := false }

def aclResetSubcommandsForCommand (u : User) (id : Nat) : User :=
  { u with allowedSubcommands := Function.update u.allowedSubcommands id [] }

def aclResetSubcommands (u : User) : User := { u with allowedSubcommands := fun _ => [] }

/-- `strcasecmp` finds no difference. -/
def sameName (a b : Bytes) : Bool := lowerName a = lowerName b

def aclAddAllowedSubcommand (u : User) (id : Nat) (sub : Bytes) : User :=
  if (u.allowedSubcommands id).any (sameName · sub) then u
  else
    { u with allowedSubcommands :=
        Function.update u.allowedSubcommands id (u.allowedSubcommands id ++ [sub]) }

end Users

section Passwords

/-- What SHA-256 gives. -/
abbrev Digest := { bytes : Bytes // bytes.length = 32 }

def aclHashPassword (sha256 : Bytes → Digest) (cleartext : Bytes) : Bytes :=
  (sha256 cleartext).val.flatMap fun b => [hexDigit (b.toNat / 16), hexDigit (b.toNat % 16)]

def isHashChar (c : UInt8) : Bool :=
  (97 ≤ c.toNat && c.toNat ≤ 102) || (48 ≤ c.toNat && c.toNat ≤ 57)

/-- The length of the hash is an `int` here. -/
def aclCheckPasswordHash (hash : Bytes) : Bool :=
  (hash.length : Int).bmod (2 ^ 32) = 64 && (hash.take 64).all isHashChar

/-- A space or a NUL. -/
def aclStringHasSpaces (s : Bytes) : Bool := s.any fun c => isspace c || c = 0

end Passwords

inductive Errno where
  | einval
  | enoent
  | ebusy
  | eexist
  | enodev
  | ebadmsg
deriving DecidableEq, Repr

section Rules

variable (sha256 : Bytes → Digest) (table : Commands)

def setOn (u : User) : User := { u with enabled := true, disabled := false }

def setOff (u : User) : User := { u with disabled := true, enabled := false }

def allKeys (u : User) : User := { u with allkeys := true, patterns := [] }

def resetKeys (u : User) : User := { u with allkeys := false, patterns := [] }

def allCommands (u : User) : User :=
  aclResetSubcommands { u with allowedCommands := BitVec.allOnes _, allcommands := true }

def noCommands (u : User) : User :=
  aclResetSubcommands { u with allowedCommands := 0, allcommands := false }

def noPass (u : User) : User := { u with nopass := true, passwords := [] }

def resetPass (u : User) : User := { u with nopass := false, passwords := [] }

/-- The hash that `>password` or `#hash` stands for. -/
def givenHash (clear : Bool) (arg : Bytes) : Except Errno Bytes :=
  if clear then .ok (aclHashPassword sha256 arg)
  else if aclCheckPasswordHash arg then .ok arg else .error .ebadmsg

def addPassword (u : User) (newpass : Bytes) : User :=
  { u with
    passwords := if newpass ∈ u.passwords then u.passwords else u.passwords ++ [newpass]
    nopass := false }

def removePassword (u : User) (delpass : Bytes) : Except Errno User :=
  if delpass ∈ u.passwords then .ok { u with passwords := u.passwords.erase delpass }
  else .error .enodev

def addPattern (u : User) (newpat : Bytes) : Except Errno User :=
  if u.allkeys then .error .eexist
  else if aclStringHasSpaces newpat then .error .einval
  else .ok { u with
    patterns := if newpat ∈ u.patterns then u.patterns else u.patterns ++ [newpat]
    allkeys := false }

/-- The dictionary of commands does not tell upper and lower case apart. -/
def aclLookupCommand (name : Bytes) : Option RedisCommand :=
  table.commands.find? fun cmd => sameName cmd.name name

/-- A command as a whole: its bit, with no subcommands. -/
def setWholeCommand (u : User) (id : Nat) (value : Bool) : User :=
  aclResetSubcommandsForCommand (aclSetUserCommandBit u id value) id

def setCommand (u : User) (name : Bytes) (value : Bool) : Except Errno User :=
  match aclLookupCommand table name with
  | none => .error .enoent
  | some _ => .ok (setWholeCommand u (aclGetCommandID table.ids name) value)

/-- The command and the subcommand of `+command|subcommand`. -/
def splitRule (name : Bytes) : Bytes × Bytes :=
  ((cString name).takeWhile (· ≠ 124), ((cString name).dropWhile (· ≠ 124)).tail)

def addSubcommand (u : User) (name : Bytes) : Except Errno User :=
  let (copy, sub) := splitRule name
  match aclLookupCommand table copy with
  | none => .error .enoent
  | some _ =>
    let id := aclGetCommandID table.ids copy
    if sub = [] then .error .einval
    else if aclGetUserCommandBit u id then .error .ebusy
    else .ok (aclSetUserCommandBit (aclAddAllowedSubcommand u id sub) id false)

/-- The commands of modules are in no category. -/
def setCategoryBit (category : Category) (value : Bool) (u : User) (cmd : RedisCommand) : User :=
  if cmd.isModule then u
  else if category ∈ cmd.categories then setWholeCommand u cmd.id value
  else u

def aclSetUserCommandBitsForCategory (u : User) (category : Bytes) (value : Bool) :
    Except Errno User :=
  match aclGetCommandCategoryFlagByName category with
  | none => .error .enoent
  | some cflag => .ok (table.commands.foldl (setCategoryBit cflag value) u)

/-- The rules that are told by their first character. -/
def applyOperator (u : User) (op : Bytes) : Except Errno User :=
  let first := op.getD 0 0
  let second := op.getD 1 0
  if first = 62 ∨ first = 35 then
    (givenHash sha256 (first = 62) (op.drop 1)).map (addPassword u)
  else if first = 60 ∨ first = 33 then
    (givenHash sha256 (first = 60) (op.drop 1)).bind (removePassword u)
  else if first = 126 then addPattern u (op.drop 1)
  else if first = 43 ∧ second ≠ 64 then
    if 124 ∉ cString op then setCommand table u (op.drop 1) true
    else addSubcommand table u (op.drop 1)
  else if first = 45 ∧ second ≠ 64 then setCommand table u (op.drop 1) false
  else if (first = 43 ∨ first = 45) ∧ second = 64 then
    aclSetUserCommandBitsForCategory table u (op.drop 2) (first = 43)
  else if named op "reset" then .ok (noCommands (setOff (resetKeys (resetPass u))))
  else .error .einval

/-- A rule; an error leaves the user as it was. -/
def aclSetUser (u : User) (op : Bytes) : Except Errno User :=
  if op = [] then .ok u
  else if named op "on" then .ok (setOn u)
  else if named op "off" then .ok (setOff u)
  else if named op "allkeys" ∨ named op "~*" then .ok (allKeys u)
  else if named op "resetkeys" then .ok (resetKeys u)
  else if named op "allcommands" ∨ named op "+@all" then .ok (allCommands u)
  else if named op "nocommands" ∨ named op "-@all" then .ok (noCommands u)
  else if named op "nopass" then .ok (noPass u)
  else if named op "resetpass" then .ok (resetPass u)
  else applyOperator sha256 table u op

/-- The user after a rule that may be rejected. -/
def afterRule (u : User) (op : Bytes) : User :=
  match aclSetUser sha256 table u op with
  | .ok u' => u'
  | .error _ => u

end Rules

section Description

variable (sha256 : Bytes → Digest) (table : Commands)

/-- How many of the commands of a category a user may run, and how many not. -/
def aclCountCategoryBitsForUser (u : User) (category : Category) : Nat × Nat :=
  let cmds := table.commands.filter fun cmd => category ∈ cmd.categories
  (cmds.countP fun cmd => aclGetUserCommandBit u cmd.id,
    cmds.countP fun cmd => !aclGetUserCommandBit u cmd.id)

/-- A description as it grows: the user that the rules so far would make, and those rules. -/
structure Draft where
  fakeuser : User
  rules : List Bytes

def categoryRule (additive : Bool) (name : String) : Bytes :=
  word (if additive then "+@" else "-@") ++ word name

def describeCategory (u : User) (additive : Bool) (d : Draft) (item : String × Category) : Draft :=
  let (on, off) := aclCountCategoryBitsForUser table u item.2
  if (additive ∧ on > off) ∨ (!additive ∧ off > on) then
    let op := categoryRule additive item.1
    ⟨afterRule sha256 table d.fakeuser op, d.rules ++ [op]⟩
  else d

def commandRule (cmd : RedisCommand) (value : Bool) : Bytes :=
  (if value then 43 else 45) :: cmd.name

def subcommandRule (cmd : RedisCommand) (sub : Bytes) : Bytes := 43 :: cmd.name ++ 124 :: sub

/-- A single command, where the categories did not give it the right bit. -/
def describeBit (u : User) (d : Draft) (cmd : RedisCommand) : Draft :=
  let userbit := aclGetUserCommandBit u cmd.id
  if userbit ≠ aclGetUserCommandBit d.fakeuser cmd.id then
    ⟨aclSetUserCommandBit d.fakeuser cmd.id userbit, d.rules ++ [commandRule cmd userbit]⟩
  else d

/-- A single command and, if it is not allowed as a whole, its subcommands. -/
def describeCommand (u : User) (d : Draft) (cmd : RedisCommand) : Draft :=
  let d := describeBit u d cmd
  if aclGetUserCommandBit u cmd.id then d
  else { d with rules := d.rules ++ (u.allowedSubcommands cmd.id).map (subcommandRule cmd) }

/-- A user whose memory is all zero. -/
def fakeUser : User := { aclCreateUser with disabled := false }

/-- The rule that a description of commands starts with. -/
def firstRule (additive : Bool) : Bytes := word (if additive then "-@all" else "+@all")

/-- The description before it is compared with the bitmap of the user. -/
def draftCommandRules (u : User) : Draft :=
  let additive := !aclUserCanExecuteFutureCommands u
  let start : Draft :=
    ⟨afterRule sha256 table fakeUser (firstRule additive), [firstRule additive]⟩
  let withCategories := aclCommandCategories.foldl (describeCategory sha256 table u additive) start
  table.commands.foldl (describeCommand u) withCategories

/-- The rules one by one. There is no result where the bitmaps differ, which is a panic. -/
def aclDescribeUserCommandRules (u : User) : Option (List Bytes) :=
  let d := draftCommandRules sha256 table u
  if d.fakeuser.allowedCommands = u.allowedCommands then some d.rules else none

/-- The flags that are not told in another way. -/
def flagRules (u : User) : List Bytes :=
  (if u.enabled then [word "on"] else []) ++ (if u.disabled then [word "off"] else []) ++
    (if u.nopass then [word "nopass"] else [])

def keyRules (u : User) : List Bytes :=
  if u.allkeys then [word "~*"] else u.patterns.map (126 :: ·)

/-- The rules of a description, between which `ACLDescribeUser` puts spaces. -/
def aclDescribeUserRules (u : User) : Option (List Bytes) :=
  (aclDescribeUserCommandRules sha256 table u).map fun rules =>
    flagRules u ++ u.passwords.map (35 :: ·) ++ keyRules u ++ rules

end Description

section Check

inductive Permission where
  | ok
  | deniedCmd
  | deniedKey (keyidx : Nat)
deriving DecidableEq, Repr

def RedisCommand.isAuth (cmd : RedisCommand) : Bool := cmd.name = word "auth"

/-- The first part of `ACLCheckCommandPerm`: `AUTH` is always allowed. -/
def commandAllowed (u : User) (cmd : RedisCommand) (argv : List Bytes) : Bool :=
  u.allcommands || cmd.isAuth || aclGetUserCommandBit u cmd.id ||
    (2 ≤ argv.length && (u.allowedSubcommands cmd.id).any (sameName (argv.getD 1 [])))

def keyAllowed (u : User) (key : Bytes) : Bool :=
  u.patterns.any fun pattern => stringmatchlen pattern key false

/-- There is no result where the search for the keys panics. -/
def aclCheckCommandPerm (u : User) (cmd : RedisCommand) (argv : List Bytes) : Option Permission :=
  if !commandAllowed u cmd argv then some .deniedCmd
  else if !u.allkeys ∧ (cmd.getkeysProc.isSome ∨ cmd.firstkey ≠ 0) then
    (getKeysFromCommand cmd argv).map fun keyidx =>
      match keyidx.find? fun idx => !keyAllowed u (argv.getD idx []) with
      | some idx => .deniedKey idx
      | none => .ok
  else some .ok

end Check

end Redis.Acl
