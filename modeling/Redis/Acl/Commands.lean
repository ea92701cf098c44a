import Redis.Glob
import Redis.KeyPositions.Basic

/-! The command table, as far as the access control lists read it: the name of a command, its
identifier, its categories and where its keys are. -/
namespace Redis.Acl

open ByteBuffer Util KeyPositions

inductive Category where
  | keyspace
  | read
  | write
  | set
  | sortedset
  | list
  | hash
  | string
  | bitmap
  | hyperloglog
  | geo
  | stream
  | pubsub
  | admin
  | fast
  | slow
  | blocking
  | dangerous
  | connection
  | transaction
  | scripting
deriving DecidableEq, Repr

/-- `ACLCommandCategories`. -/
def aclCommandCategories : List (String × Category) :=
  [("keyspace", .keyspace), ("read", .read), ("write", .write), ("set", .set),
    ("sortedset", .sortedset), ("list", .list), ("hash", .hash), ("string", .string),
    ("bitmap", .bitmap), ("hyperloglog", .hyperloglog), ("geo", .geo), ("stream", .stream),
    ("pubsub", .pubsub), ("admin", .admin), ("fast", .fast), ("slow", .slow),
    ("blocking", .blocking), ("dangerous", .dangerous), ("connection", .connection),
    ("transaction", .transaction), ("scripting", .scripting)]

def aclGetCommandCategoryFlagByName (name : Bytes) : Option Category :=
  (aclCommandCategories.find? fun item => named name item.1).map (·.2)

/-- The functions that find keys which are not at fixed places. -/
inductive GetKeysProc where
  | reader (cmd : KeyCommand)
  | memory
deriving DecidableEq, Repr

/-- An entry of the command table; `moduleName` is the module that registered it. -/
structure RedisCommand where
  name : Bytes
  arity : Int
  categories : List Category
  getkeysProc : Option GetKeysProc
  firstkey : Int
  lastkey : Int
  keystep : Int
  moduleName : Option Bytes
  id : Nat
deriving DecidableEq, Repr

/-- The flag `CMD_MODULE`. -/
def RedisCommand.isModule (cmd : RedisCommand) : Bool := cmd.moduleName.isSome

section Keys

def memoryGetKeys (argv : List Bytes) : List Nat :=
  if 3 ≤ argv.length ∧ named (argv.getD 1 []) "usage" then [2] else []

/-- The loop of `getKeysUsingCommandTable` from argument `j` on. An argument that is not there
means no keys at all where the arity is not fixed, and a panic otherwise. -/
def keysLoop (cmd : RedisCommand) (argc last : Int) : Nat → Int → List Nat → Option (List Nat)
  | 0, _, keys => some keys
  | rounds + 1, j, keys =>
    if j > last then some keys
    else if j ≥ argc then (if cmd.arity < 0 then some [] else none)
    else keysLoop cmd argc last rounds (j + cmd.keystep) (keys ++ [j.toNat])

def getKeysUsingCommandTable (cmd : RedisCommand) (argv : List Bytes) : Option (List Nat) :=
  if cmd.firstkey = 0 then some []
  else
    let argc : Int := argv.length
    let last := if cmd.lastkey < 0 then argc + cmd.lastkey else cmd.lastkey
    keysLoop cmd argc last (argv.length + 1) cmd.firstkey []

def getKeysFromCommand (cmd : RedisCommand) (argv : List Bytes) : Option (List Nat) :=
  match cmd.getkeysProc with
  | some (.reader reader) => some (KeyPositions.getKeysFromCommand reader argv)
  | some .memory => some (memoryGetKeys argv)
  | none => getKeysUsingCommandTable cmd argv

end Keys

section Identifiers

/-- The last bit of a bitmap stands for the commands that are still to come. -/
def userCommandBitsCount : Nat := 1024

def lowerName (name : Bytes) : Bytes := (cString name).map toLower

/-- `ACLGetCommandID`: `ids` has the lower case names in the order in which they got their
identifiers, which leave out the last bit. A name that is not there would get the next one. -/
def aclGetCommandID (ids : List Bytes) (name : Bytes) : Nat :=
  let i := ids.idxOf (lowerName name)
  if i < userCommandBitsCount - 1 then i else i + 1

/-- `server.orig_commands` in the order of its iterator, and the names that have an
identifier. -/
structure Commands where
  commands : List RedisCommand
  ids : List Bytes

/-- The commands have the identifiers of their names, and no identifier is the reserved one. -/
structure Commands.Valid (t : Commands) : Prop where
  known : ∀ cmd ∈ t.commands, lowerName cmd.name ∈ t.ids ∧ cmd.id = aclGetCommandID t.ids cmd.name
  room : t.ids.length < userCommandBitsCount

/-- A name in the command table: in lower case, without the characters that have a meaning in
a rule. -/
def ValidName (name : Bytes) : Prop :=
  name ≠ [] ∧ name.head? ≠ some 64 ∧ ∀ c ∈ name, c ≠ 0 ∧ c ≠ 124 ∧ toLower c = c

instance (name : Bytes) : Decidable (ValidName name) :=
  inferInstanceAs (Decidable (_ ∧ _ ∧ _))

/-- The commands of a server that loads no module. -/
structure CommandTable extends Commands where
  valid : toCommands.Valid
  names : ∀ cmd ∈ commands, ValidName cmd.name
  distinct : (commands.map RedisCommand.name).Nodup

end Identifiers

end Redis.Acl
