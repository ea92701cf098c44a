import Redis.Resp

/-! The input side of a client in `networking.c`: the query buffer, the state of the
request that is being parsed, and the loop that executes what is complete. What
executing a command does is a parameter, and so is the old inline protocol. -/
namespace Redis.Networking.Input

open ByteBuffer Util

def protoInlineMaxSize : Nat := 1024 * 64

def protoMbulkBigArg : Nat := 1024 * 32

inductive ReqType where
  | inline
  | multibulk
deriving DecidableEq, Repr

/-- The fields of `client` that parsing uses. A `bulklen` of -1 is `none`; `state` is
what commands read and change, and `fed` what went to the own replicas. -/
structure Client (σ : Type) where
  querybuf : Bytes
  qbPos : Nat
  reqtype : Option ReqType
  multibulklen : Nat
  bulklen : Option Nat
  argv : List Bytes
  master : Bool
  reploff : Int
  readReploff : Int
  pendingQuerybuf : Bytes
  fed : Bytes
  state : σ

/-- The result of parsing: a whole request, nothing to do but wait for more input,
an error that is replied and closes the connection, or a failed assertion. -/
inductive Parsed where
  | ok
  | wait
  | error (reply : String)
  | assertion
deriving DecidableEq, Repr

/-- What the server does with a request. `halted` stands for the conditions under
which the loop leaves the input alone: clients are paused, or this one is
blocked, about to be closed, or waits for a script. -/
structure Server (σ : Type) where
  protoMaxBulkLen : Nat
  maxBulkLen_lt : protoMaxBulkLen < 2 ^ 63
  processCommand : σ → List Bytes → σ
  inMulti : σ → Bool
  halted : σ → Bool
  processInlineBuffer : Client σ → Parsed × Client σ

variable {σ : Type}

/-- The bytes that are not parsed yet. -/
def Client.unread (c : Client σ) : Bytes := c.querybuf.drop c.qbPos

/-- `strchr`: the index of a character in front of the first zero byte. -/
def strchr (b : UInt8) : Bytes → Option Nat
  | [] => none
  | x :: rest => if x = b then some 0 else if x = 0 then none else (strchr b rest).map (· + 1)

/-- A line at the front of the buffer, if it is there with its two end bytes. -/
inductive Line where
  | wait
  | tooBig
  | line (len : Nat)

def findLine (s : Bytes) : Line :=
  match strchr 13 s with
  | none => if s.length > protoInlineMaxSize then .tooBig else .wait
  | some newline => if (newline : Int) > (s.length : Int) - 2 then .wait else .line newline

/-- The number in a line, behind its first character. -/
def lineNumber (s : Bytes) (len : Nat) : Option Int := string2ll ((s.drop 1).take (len - 1))

/-- Read the number of arguments. -/
def readMultibulklen (c : Client σ) : Parsed × Client σ :=
  if c.argv ≠ [] then (.assertion, c)
  else match findLine c.unread with
    | .tooBig => (.error "Protocol error: too big mbulk count string", c)
    | .wait => (.wait, c)
    | .line len =>
      if c.unread.head? ≠ some 42 then (.assertion, c)
      else match lineNumber c.unread len with
        | none => (.error "Protocol error: invalid multibulk length", c)
        | some ll =>
          if ll > 1024 * 1024 then (.error "Protocol error: invalid multibulk length", c)
          else (.ok, { c with qbPos := c.qbPos + len + 2, multibulklen := ll.toNat })

/-- Make a large argument start at the front of the buffer. -/
def alignBulk (c : Client σ) (ll : Nat) : Client σ :=
  if ll ≥ protoMbulkBigArg ∧ c.unread.length ≤ ll + 2 then
    { c with querybuf := c.unread, qbPos := 0 }
  else c

def expectedDollar (b : UInt8) : String :=
  "Protocol error: expected '$', got '" ++ String.singleton (Char.ofNat b.toNat) ++ "'"

/-- Read the length of an argument, if it is not known. -/
def readBulklen (srv : Server σ) (c : Client σ) : Parsed × Client σ :=
  if c.bulklen.isSome then (.ok, c)
  else match findLine c.unread with
    | .tooBig => (.error "Protocol error: too big bulk count string", c)
    | .wait => (.wait, c)
    | .line len =>
      if c.unread.head? ≠ some 36 then (.error (expectedDollar (c.unread.headD 0)), c)
      else match lineNumber c.unread len with
        | none => (.error "Protocol error: invalid bulk length", c)
        | some ll =>
          if ll < 0 ∨ (c.master = false ∧ ll > srv.protoMaxBulkLen) then
            (.error "Protocol error: invalid bulk length", c)
          else
            let c := alignBulk { c with qbPos := c.qbPos + len + 2 } ll.toNat
            (.ok, { c with bulklen := some ll.toNat })

/-- Take an argument of `bulklen` bytes; the buffer itself is handed over if it
holds just a large argument. -/
def takeBulk (c : Client σ) (bulklen : Nat) : Client σ :=
  let c := { c with bulklen := none, multibulklen := c.multibulklen - 1 }
  if c.qbPos = 0 ∧ bulklen ≥ protoMbulkBigArg ∧ c.querybuf.length = bulklen + 2 then
    { c with argv := c.argv ++ [c.querybuf.take bulklen], querybuf := [] }
  else
    { c with argv := c.argv ++ [c.unread.take bulklen], qbPos := c.qbPos + bulklen + 2 }

/-- The loop over the arguments, one a round. -/
def readArguments (srv : Server σ) : Nat → Client σ → Parsed × Client σ
  | 0, c => (.ok, c)
  | missing + 1, c =>
    match readBulklen srv c with
    | (.ok, c) =>
      let bulklen := c.bulklen.getD 0
      if c.unread.length < bulklen + 2 then (.wait, c)
      else readArguments srv missing (takeBulk c bulklen)
    | stopped => stopped

def processMultibulkBuffer (srv : Server σ) (c : Client σ) : Parsed × Client σ :=
  if c.multibulklen = 0 then
    match readMultibulklen c with
    | (.ok, c) => readArguments srv c.multibulklen c
    | stopped => stopped
  else readArguments srv c.multibulklen c

def resetClient (c : Client σ) : Client σ :=
  { c with argv := [], reqtype := none, multibulklen := 0, bulklen := none }

/-- The master's offset, and the part of its stream that goes on to the replicas. -/
def commandProcessed (srv : Server σ) (c : Client σ) : Client σ :=
  let reploff :=
    if c.master ∧ srv.inMulti c.state = false then
      c.readReploff - c.querybuf.length + c.qbPos
    else c.reploff
  let applied := (reploff - c.reploff).toNat
  let c := resetClient { c with reploff := reploff }
  if c.master then
    { c with fed := c.fed ++ c.pendingQuerybuf.take applied
             pendingQuerybuf := c.pendingQuerybuf.drop applied }
  else c

def processCommandAndResetClient (srv : Server σ) (c : Client σ) : Client σ :=
  commandProcessed srv { c with state := srv.processCommand c.state c.argv }

/-- A command that was executed, and what holds right after it. -/
structure Executed where
  argv : List Bytes
  inMulti : Bool
  reploff : Int

/-- Find out what kind of request it is. -/
def detectType (c : Client σ) : Client σ :=
  match c.reqtype with
  | some _ => c
  | none =>
    { c with reqtype := if c.unread.head? = some 42 then some .multibulk else some .inline }

def parseRequest (srv : Server σ) (c : Client σ) : Parsed × Client σ :=
  if c.reqtype = some .inline then srv.processInlineBuffer c else processMultibulkBuffer srv c

/-- The loop of `processInputBuffer`; every round takes at least a byte. -/
def inputLoop (srv : Server σ) : Nat → Client σ → Client σ × List Executed
  | 0, c => (c, [])
  | fuel + 1, c =>
    if c.qbPos < c.querybuf.length ∧ srv.halted c.state = false then
      match parseRequest srv (detectType c) with
      | (.ok, c) =>
        if c.argv = [] then inputLoop srv fuel (resetClient c)
        else
          let done := processCommandAndResetClient srv c
          let later := inputLoop srv fuel done
          (later.1, ⟨c.argv, srv.inMulti done.state, done.reploff⟩ :: later.2)
      | (_, c) => (c, [])
    else (c, [])

/-- Execute all that is complete, and trim the buffer. -/
def processInputBuffer (srv : Server σ) (c : Client σ) : Client σ × List Executed :=
  let (c, executed) := inputLoop srv (c.unread.length + 1) c
  ({ c with querybuf := c.unread, qbPos := 0 }, executed)

/-- Put bytes from the socket into the buffer. -/
def receive (c : Client σ) (nread : Bytes) : Client σ :=
  let c := { c with querybuf := c.querybuf ++ nread }
  if c.master then
    { c with pendingQuerybuf := c.pendingQuerybuf ++ nread
             readReploff := c.readReploff + nread.length }
  else c

/-- `readQueryFromClient` after the socket gave some bytes. The client is not closed here for a
query buffer above `client-query-buffer-limit`. -/
def readQueryFromClient (srv : Server σ) (c : Client σ) (nread : Bytes) :
    Client σ × List Executed := processInputBuffer srv (receive c nread)

/-- Reads one after the other. -/
def readAll (srv : Server σ) : Client σ → List Bytes → Client σ × List Executed
  | c, [] => (c, [])
  | c, nread :: reads =>
    let now := readQueryFromClient srv c nread
    let later := readAll srv now.1 reads
    (later.1, now.2 ++ later.2)

/-- A connection on which nothing was received yet. -/
def createClient (master : Bool) (offset : Int) (state : σ) : Client σ :=
  { querybuf := [], qbPos := 0, reqtype := none, multibulklen := 0, bulklen := none, argv := [],
    master, reploff := offset, readReploff := offset, pendingQuerybuf := [], fed := [], state }

end Redis.Networking.Input
