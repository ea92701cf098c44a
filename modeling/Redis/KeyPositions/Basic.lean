import Redis.Shared

/-! Where the keys of a command are. `getKeysFromCommand` looks for them in the arguments
with a reader of its own for each command; the command parses its options itself. -/
namespace Redis.KeyPositions

open ByteBuffer Util Shared

/-- The commands whose keys are not at fixed places. -/
inductive KeyCommand where
  | sort
  | georadius
  | georadiusRo
  | georadiusbymember
  | georadiusbymemberRo
  | zunionstore
  | zinterstore
  | eval
  | evalsha
  | xread
  | xreadgroup
  | migrate
  | stralgo
deriving DecidableEq, Repr

section GetKeys

def zunionInterGetKeys (argv : List Bytes) : List Nat :=
  let num := atoi (cString (argv.getD 2 []))
  if num < 1 ∨ num > (argv.length : Int) - 3 then [] else List.range' 3 num.toNat ++ [1]

def evalGetKeys (argv : List Bytes) : List Nat :=
  let num := atoi (cString (argv.getD 2 []))
  if num ≤ 0 ∨ num > (argv.length : Int) - 3 then [] else List.range' 3 num.toNat

/-- The options that are skipped together with their arguments. -/
def skiplist (o : Bytes) : Nat :=
  if named o "limit" then 2 else if named o "get" ∨ named o "by" then 1 else 0

/-- The loop of `sortGetKeys` from argument `i` on: `skip` arguments are skipped first. The
argument of `STORE` is not skipped. -/
def sortGetKeysLoop : Nat → List Bytes → Nat → Option Nat → Option Nat
  | _, [], _, found => found
  | i, _ :: rest, skip + 1, found => sortGetKeysLoop (i + 1) rest skip found
  | i, a :: rest, 0, found =>
    if named a "store" ∧ rest ≠ [] then sortGetKeysLoop (i + 1) rest 0 (some (i + 1))
    else sortGetKeysLoop (i + 1) rest (skiplist a) found

def sortGetKeys (argv : List Bytes) : List Nat :=
  1 :: (sortGetKeysLoop 2 (argv.drop 2) 0 none).toList

/-- The first argument `KEYS` from argument `i` on. -/
def findKeys : Nat → List Bytes → Option Nat
  | _, [] => none
  | i, a :: rest => if named a "keys" then some i else findKeys (i + 1) rest

def migrateGetKeys (argv : List Bytes) : List Nat :=
  match findKeys 6 (argv.drop 6) with
  | none => [3]
  | some i =>
    if (argv.getD 3 []).length = 0 then List.range' (i + 1) (argv.length - (i + 1)) else [3]

def georadiusGetKeysLoop : Nat → List Bytes → Option Nat → Option Nat
  | _, [], storedKey => storedKey
  | i, a :: rest, storedKey =>
    if named a "store" ∨ named a "storedist" then
      match rest with
      | [] => storedKey
      | _ :: rest => georadiusGetKeysLoop (i + 2) rest (some (i + 1))
    else georadiusGetKeysLoop (i + 1) rest storedKey

def georadiusGetKeys (argv : List Bytes) : List Nat :=
  1 :: (georadiusGetKeysLoop 5 (argv.drop 5) none).toList

def lcsGetKeysLoop : Nat → List Bytes → List Nat
  | _, [] => []
  | i, a :: rest =>
    if named a "strings" then []
    else if named a "keys" ∧ rest.length ≥ 2 then [i + 1, i + 2]
    else lcsGetKeysLoop (i + 1) rest

def lcsGetKeys (argv : List Bytes) : List Nat := lcsGetKeysLoop 1 (argv.drop 1)

/-- The position of `STREAMS`, from argument `i` on. -/
def xreadStreamsPos : Nat → List Bytes → Option Nat
  | _, [] => none
  | i, a :: rest =>
    if named a "block" ∨ named a "count" then
      match rest with
      | [] => none
      | _ :: rest => xreadStreamsPos (i + 2) rest
    else if named a "group" then
      match rest with
      | _ :: _ :: rest => xreadStreamsPos (i + 3) rest
      | _ => none
    else if named a "noack" then xreadStreamsPos (i + 1) rest
    else if named a "streams" then some i
    else none

def xreadGetKeys (argv : List Bytes) : List Nat :=
  match xreadStreamsPos 1 (argv.drop 1) with
  | none => []
  | some streamsPos =>
    let num := argv.length - streamsPos - 1
    if num = 0 ∨ num % 2 ≠ 0 then [] else List.range' (streamsPos + 1) (num / 2)

/-- The entries of the command table for these commands. -/
def getKeysFromCommand (cmd : KeyCommand) (argv : List Bytes) : List Nat :=
  match cmd with
  | .sort => sortGetKeys argv
  | .georadius | .georadiusRo | .georadiusbymember | .georadiusbymemberRo => georadiusGetKeys argv
  | .zunionstore | .zinterstore => zunionInterGetKeys argv
  | .eval | .evalsha => evalGetKeys argv
  | .xread | .xreadgroup => xreadGetKeys argv
  | .migrate => migrateGetKeys argv
  | .stralgo => lcsGetKeys argv

end GetKeys

section Commands

/-- What the commands need to know beside their arguments, and the conversions to floating
point, which accept an argument or give an error. -/
structure Env where
  clusterEnabled : Bool
  lua : Bool
  extractLongLat : Bytes → Bytes → Except String Unit
  extractRadius : Bytes → Except String Unit
  weight : Bytes → Except String Unit

structure SortArgs where
  desc : Bool
  alpha : Bool
  limitStart : Int
  limitCount : Int
  sortby : Option Bytes
  dontsort : Bool
  operations : List Bytes
  storekey : Option Nat

/-- The loop of `sortCommand` over its options, from argument `j` on. -/
def sortOptions (env : Env) : Nat → List Bytes → SortArgs → Except String SortArgs
  | _, [], args => .ok args
  | j, a :: rest, args =>
    if named a "asc" then sortOptions env (j + 1) rest { args with desc := false }
    else if named a "desc" then sortOptions env (j + 1) rest { args with desc := true }
    else if named a "alpha" then sortOptions env (j + 1) rest { args with alpha := true }
    else if named a "limit" then
      match rest with
      | start :: count :: rest =>
        match getLongFromObjectOrReply start none, getLongFromObjectOrReply count none with
        | .ok start, .ok count =>
          sortOptions env (j + 3) rest { args with limitStart := start, limitCount := count }
        | .error err, _ => .error err
        | _, .error err => .error err
      | _ => .error syntaxerr
    else if named a "store" then
      match rest with
      | _ :: rest => sortOptions env (j + 2) rest { args with storekey := some (j + 1) }
      | _ => .error syntaxerr
    else if named a "by" then
      match rest with
      | pattern :: rest =>
        if 42 ∉ cString pattern then
          sortOptions env (j + 2) rest { args with sortby := some pattern, dontsort := true }
        else if env.clusterEnabled then
          .error (addReplyError "BY option of SORT denied in Cluster mode.")
        else sortOptions env (j + 2) rest { args with sortby := some pattern }
      | _ => .error syntaxerr
    else if named a "get" then
      match rest with
      | pattern :: rest =>
        if env.clusterEnabled then
          .error (addReplyError "GET option of SORT denied in Cluster mode.")
        else sortOptions env (j + 2) rest { args with operations := args.operations ++ [pattern] }
      | _ => .error syntaxerr
    else .error syntaxerr

/-- The arguments that the command uses as keys, or the reply to wrong arguments. -/
def sortKeys (env : Env) (argv : List Bytes) : Except String (List Nat) := do
  let args ← sortOptions env 2 (argv.drop 2) ⟨false, false, 0, -1, none, false, [], none⟩
  .ok (1 :: args.storekey.toList)

structure GeoradiusArgs where
  withdist : Bool
  withhash : Bool
  withcoords : Bool
  sort : Option Bool
  count : Int
  storekey : Option Nat
  storedist : Bool

/-- The loop of `georadiusGeneric`, from argument `i` on; `nostore` for the read-only commands. -/
def georadiusOptions (nostore : Bool) : Nat → List Bytes → GeoradiusArgs → Except String GeoradiusArgs
  | _, [], args => .ok args
  | i, a :: rest, args =>
    if named a "withdist" then georadiusOptions nostore (i + 1) rest { args with withdist := true }
    else if named a "withhash" then
      georadiusOptions nostore (i + 1) rest { args with withhash := true }
    else if named a "withcoord" then
      georadiusOptions nostore (i + 1) rest { args with withcoords := true }
    else if named a "asc" then georadiusOptions nostore (i + 1) rest { args with sort := some true }
    else if named a "desc" then georadiusOptions nostore (i + 1) rest { args with sort := some false }
    else if named a "count" then
      match rest with
      | count :: rest =>
        match getLongLongFromObjectOrReply count none with
        | .error err => .error err
        | .ok count =>
          if count ≤ 0 then .error (addReplyError "COUNT must be > 0")
          else georadiusOptions nostore (i + 2) rest { args with count := count }
      | _ => .error syntaxerr
    else if named a "store" ∧ nostore = false then
      match rest with
      | _ :: rest => georadiusOptions nostore (i + 2) rest
          { args with storekey := some (i + 1), storedist := false }
      | _ => .error syntaxerr
    else if named a "storedist" ∧ nostore = false then
      match rest with
      | _ :: rest => georadiusOptions nostore (i + 2) rest
          { args with storekey := some (i + 1), storedist := true }
      | _ => .error syntaxerr
    else .error syntaxerr

def extractUnit (unit : Bytes) : Except String Unit :=
  if cString unit ∈ [word "m", word "km", word "ft", word "mi"] then .ok ()
  else .error (addReplyError "unsupported unit provided. please use m, km, ft, mi")

/-- The options stand behind the unit, which is argument `baseArgs - 1`. -/
def georadiusKeys (env : Env) (coords nostore : Bool) (argv : List Bytes) :
    Except String (List Nat) := do
  let baseArgs := if coords then 6 else 5
  let _ ← (if coords then env.extractLongLat (argv.getD 2 []) (argv.getD 3 []) else .ok ())
  let _ ← env.extractRadius (argv.getD (baseArgs - 2) [])
  let _ ← extractUnit (argv.getD (baseArgs - 1) [])
  let args ← georadiusOptions nostore baseArgs (argv.drop baseArgs)
    ⟨false, false, false, none, 0, none, false⟩
  if args.storekey.isSome ∧ (args.withdist ∨ args.withhash ∨ args.withcoords) then
    .error (addReplyError ("STORE option in GEORADIUS is not compatible with " ++
      "WITHDIST, WITHHASH and WITHCOORDS options"))
  else .ok (1 :: args.storekey.toList)

/-- The options of `ZUNIONSTORE`; so many weights are to be read first. -/
def zunionInterOptions (env : Env) (setnum : Nat) : List Bytes → Nat → Except String Unit
  | [], _ => .ok ()
  | a :: rest, weights + 1 => do
      env.weight a
      zunionInterOptions env setnum rest weights
  | a :: rest, 0 =>
    if rest.length ≥ setnum ∧ named a "weights" then zunionInterOptions env setnum rest setnum
    else if named a "aggregate" then
      match rest with
      | kind :: rest =>
        if named kind "sum" ∨ named kind "min" ∨ named kind "max" then
          zunionInterOptions env setnum rest 0
        else .error syntaxerr
      | _ => .error syntaxerr
    else .error syntaxerr

def zunionInterKeys (env : Env) (argv : List Bytes) : Except String (List Nat) := do
  let setnum ← getLongFromObjectOrReply (argv.getD 2 []) none
  if setnum < 1 then
    .error (addReplyError "at least 1 input key is needed for ZUNIONSTORE/ZINTERSTORE")
  else if setnum > (argv.length : Int) - 3 then .error syntaxerr
  else do
    let _ ← zunionInterOptions env setnum.toNat (argv.drop (3 + setnum.toNat)) 0
    .ok (1 :: List.range' 3 setnum.toNat)

/-- The arguments that the script gets in its table `KEYS`. -/
def evalKeys (argv : List Bytes) : Except String (List Nat) := do
  let numkeys ← getLongLongFromObjectOrReply (argv.getD 2 []) none
  if numkeys > (argv.length : Int) - 3 then
    .error (addReplyError "Number of keys can't be greater than number of args")
  else if numkeys < 0 then .error (addReplyError "Number of keys can't be negative")
  else .ok (List.range' 3 numkeys.toNat)

structure XreadArgs where
  timeout : Int
  count : Int
  groupname : Option Bytes
  consumername : Option Bytes
  noack : Bool
  streams : Option (Nat × Nat)

def onlyGroup (name : String) : String :=
  addReplyError ("The " ++ name ++ " option is only supported by XREADGROUP. You called XREAD instead.")

def getTimeoutFromObjectOrReply (o : Bytes) : Except String Int := do
  let tval ← getLongLongFromObjectOrReply o (some "timeout is not an integer or out of range")
  if tval < 0 then .error (addReplyError "timeout is negative") else .ok tval

/-- The loop of `xreadCommand`; `STREAMS` ends it. -/
def xreadOptions (env : Env) (xreadgroup : Bool) : Nat → List Bytes → XreadArgs → Except String XreadArgs
  | _, [], args => .ok args
  | i, a :: rest, args =>
    if named a "block" then
      match rest with
      | timeout :: rest =>
        if env.lua then
          .error (addReplyError "command is not allowed with BLOCK option from scripts")
        else
          match getTimeoutFromObjectOrReply timeout with
          | .error err => .error err
          | .ok timeout => xreadOptions env xreadgroup (i + 2) rest { args with timeout := timeout }
      | _ => .error syntaxerr
    else if named a "count" then
      match rest with
      | count :: rest =>
        match getLongLongFromObjectOrReply count none with
        | .error err => .error err
        | .ok count =>
          xreadOptions env xreadgroup (i + 2) rest
            { args with count := if count < 0 then 0 else count }
      | _ => .error syntaxerr
    else if named a "streams" ∧ rest ≠ [] then
      if rest.length % 2 ≠ 0 then
        .error (addReplyError ("Unbalanced XREAD list of streams: " ++
          "for each stream key an ID or '$' must be specified."))
      else .ok { args with streams := some (i + 1, rest.length / 2) }
    else if named a "group" then
      match rest with
      | groupname :: consumername :: rest =>
        if xreadgroup then
          xreadOptions env xreadgroup (i + 3) rest
            { args with groupname := some groupname, consumername := some consumername }
        else .error (onlyGroup "GROUP")
      | _ => .error syntaxerr
    else if named a "noack" then
      if xreadgroup then xreadOptions env xreadgroup (i + 1) rest { args with noack := true }
      else .error (onlyGroup "NOACK")
    else .error syntaxerr

def xreadKeys (env : Env) (xreadgroup : Bool) (argv : List Bytes) : Except String (List Nat) := do
  let args ← xreadOptions env xreadgroup 1 (argv.drop 1) ⟨-1, 0, none, none, false, none⟩
  match args.streams with
  | none => .error syntaxerr
  | some (streamsArg, streamsCount) =>
    if xreadgroup ∧ args.groupname = none then
      .error (addReplyError "Missing GROUP option for XREADGROUP")
    else .ok (List.range' streamsArg streamsCount)

structure MigrateArgs where
  copy : Bool
  replace : Bool
  username : Option Bytes
  password : Option Bytes
  firstKey : Nat
  numKeys : Nat

/-- The loop of `migrateCommand`; what follows `KEYS` are all keys. -/
def migrateOptions (key : Bytes) : Nat → List Bytes → MigrateArgs → Except String MigrateArgs
  | _, [], args => .ok args
  | j, a :: rest, args =>
    if named a "copy" then migrateOptions key (j + 1) rest { args with copy := true }
    else if named a "replace" then migrateOptions key (j + 1) rest { args with replace := true }
    else if named a "auth" then
      match rest with
      | password :: rest => migrateOptions key (j + 2) rest { args with password := some password }
      | _ => .error syntaxerr
    else if named a "auth2" then
      match rest with
      | username :: password :: rest => migrateOptions key (j + 3) rest
          { args with username := some username, password := some password }
      | _ => .error syntaxerr
    else if named a "keys" then
      if key.length ≠ 0 then
        .error (addReplyError ("When using MIGRATE KEYS option, the key argument" ++
          " must be set to the empty string"))
      else .ok { args with firstKey := j + 1, numKeys := rest.length }
    else .error syntaxerr

def migrateKeys (argv : List Bytes) : Except String (List Nat) := do
  let args ← migrateOptions (argv.getD 3 []) 6 (argv.drop 6) ⟨false, false, none, none, 3, 1⟩
  let _ ← getLongFromObjectOrReply (argv.getD 5 []) none
  let _ ← getLongFromObjectOrReply (argv.getD 4 []) none
  .ok (List.range' args.firstKey args.numKeys)

/-- Where the two strings come from: the arguments themselves, or the keys from a position on. -/
inductive LcsSource where
  | strings
  | keys (first : Nat)

structure LcsArgs where
  getidx : Bool
  getlen : Bool
  withmatchlen : Bool
  minmatchlen : Int
  source : Option LcsSource

def eitherUse : String := addReplyError "Either use STRINGS or KEYS"

/-- The loop of `stralgoLCS`; that the keys hold strings is not asked here. -/
def lcsOptions : Nat → List Bytes → LcsArgs → Except String LcsArgs
  | _, [], args => .ok args
  | j, a :: rest, args =>
    if named a "idx" then lcsOptions (j + 1) rest { args with getidx := true }
    else if named a "len" then lcsOptions (j + 1) rest { args with getlen := true }
    else if named a "withmatchlen" then lcsOptions (j + 1) rest { args with withmatchlen := true }
    else if named a "minmatchlen" then
      match rest with
      | len :: rest =>
        match getLongLongFromObjectOrReply len none with
        | .error err => .error err
        | .ok len => lcsOptions (j + 2) rest { args with minmatchlen := if len < 0 then 0 else len }
      | _ => .error syntaxerr
    else if named a "strings" then
      match rest with
      | _ :: _ :: rest =>
        if args.source.isSome then .error eitherUse
        else lcsOptions (j + 3) rest { args with source := some .strings }
      | _ => .error syntaxerr
    else if named a "keys" then
      match rest with
      | _ :: _ :: rest =>
        if args.source.isSome then .error eitherUse
        else lcsOptions (j + 3) rest { args with source := some (.keys (j + 1)) }
      | _ => .error syntaxerr
    else .error syntaxerr

def stralgoKeys (argv : List Bytes) : Except String (List Nat) :=
  if named (argv.getD 1 []) "lcs" then do
    let args ← lcsOptions 2 (argv.drop 2) ⟨false, false, false, 0, none⟩
    match args.source with
    | none => .error (addReplyError ("Please specify two strings: " ++
        "STRINGS or KEYS options are mandatory"))
    | some source =>
      if args.getlen ∧ args.getidx then
        .error (addReplyError ("If you want both the length and indexes, please just use IDX."))
      else
        match source with
        | .strings => .ok []
        | .keys first => .ok [first, first + 1]
  else .error syntaxerr

/-- At least so many arguments, the name among them. -/
def arity : KeyCommand → Nat
  | .sort => 2
  | .georadius | .georadiusRo => 6
  | .georadiusbymember | .georadiusbymemberRo => 5
  | .zunionstore | .zinterstore => 4
  | .eval | .evalsha => 3
  | .xread => 4
  | .xreadgroup => 7
  | .migrate => 6
  | .stralgo => 2

/-- The positions of the arguments that a command uses as keys, if it accepts its arguments. -/
def keysUsed (env : Env) (cmd : KeyCommand) (argv : List Bytes) : Except String (List Nat) :=
  if argv.length < arity cmd then .error (addReplyError "wrong number of arguments")
  else
    match cmd with
    | .sort => sortKeys env argv
    | .georadius => georadiusKeys env true false argv
    | .georadiusRo => georadiusKeys env true true argv
    | .georadiusbymember => georadiusKeys env false false argv
    | .georadiusbymemberRo => georadiusKeys env false true argv
    | .zunionstore | .zinterstore => zunionInterKeys env argv
    | .eval | .evalsha => evalKeys argv
    | .xread => xreadKeys env false argv
    | .xreadgroup => xreadKeys env true argv
    | .migrate => migrateKeys argv
    | .stralgo => stralgoKeys argv

end Commands

end Redis.KeyPositions
