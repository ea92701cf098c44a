import Redis.Library.Simulation
import Redis.Util

/-! The output side of a client in `networking.c`: a fixed buffer, then a list of
blocks with spare room, where a length that is not known yet has a node without
a block. Limits on the output and closing connections are left out. How much an allocation really gives is chosen by each call. -/
namespace Redis.Networking

open ByteBuffer Util

def protoReplyChunkBytes : Nat := 16 * 1024

def netMaxWritesPerEvent : Nat := 1024 * 64

/-- `clientReplyBlock`; `buf` is the part in use. -/
structure Block where
  size : Nat
  buf : Bytes
  fits : buf.length ≤ size

/-- A node of the reply list. A placeholder has no block yet, and is known by the
number of its `addReplyDeferredLen`. -/
inductive Node where
  | placeholder (id : Nat)
  | block (b : Block)

/-- The fields of `client` that hold its output; `bufpos` is the length of `buf`. -/
structure Client where
  buf : Bytes
  sentlen : Nat
  reply : List Node
  replyBytes : Int
  deferred : Nat
  closeAfterReply : Bool

def createClient : Client :=
  { buf := [], sentlen := 0, reply := [], replyBytes := 0, deferred := 0, closeAfterReply := false }

def clientHasPendingReplies (c : Client) : Bool := !c.buf.isEmpty || !c.reply.isEmpty

/-- `_addReplyToBuffer`; `none` is `C_ERR`. -/
def addReplyToBuffer (c : Client) (s : Bytes) : Option Client :=
  if c.closeAfterReply then some c
  else if c.reply ≠ [] then none
  else if s.length > protoReplyChunkBytes - c.buf.length then none
  else some { c with buf := c.buf ++ s }

/-- Copy what fits into a block. -/
def Block.fill (b : Block) (s : Bytes) : Block :=
  { size := b.size
    buf := b.buf ++ s.take (b.size - b.buf.length)
    fits := by
      have h := b.fits
      rw [List.length_append, List.length_take]
      omega }

/-- A new block for `s`, in an allocation of `request` bytes and the `slack` that
the allocator adds. -/
def Block.new (s : Bytes) (request slack : Nat) (h : s.length ≤ request) : Block :=
  { size := request + slack, buf := s, fits := by omega }

/-- Move the content of a block to make room for `s` in front of it. -/
def Block.glue (b : Block) (s : Bytes) (h : b.size - b.buf.length ≥ s.length) : Block :=
  { size := b.size
    buf := s ++ b.buf
    fits := by
      have hfits := b.fits
      rw [List.length_append]
      omega }

/-- The length a new block of the list is asked for. -/
def blockRequest (len : Nat) : Nat :=
  if len < protoReplyChunkBytes then protoReplyChunkBytes else len

theorem le_blockRequest (len : Nat) : len ≤ blockRequest len := by
  rw [blockRequest]
  split_ifs <;> omega

/-- Fill the block of the last node; gives the list and what did not fit. -/
def fillTail : List Node → Bytes → List Node × Bytes
  | [], s => ([], s)
  | [.placeholder id], s => ([.placeholder id], s)
  | [.block tail], s => ([.block (tail.fill s)], s.drop (tail.size - tail.buf.length))
  | n :: m :: rest, s => (n :: (fillTail (m :: rest) s).1, (fillTail (m :: rest) s).2)

/-- `_addReplyProtoToList`, without the limits on the output buffer. -/
def addReplyProtoToList (c : Client) (s : Bytes) (slack : Nat) : Client :=
  if c.closeAfterReply then c
  else
    let (reply, rest) := fillTail c.reply s
    if rest = [] then { c with reply }
    else
      let tail := Block.new rest (blockRequest rest.length) slack (le_blockRequest _)
      { c with reply := reply ++ [.block tail], replyBytes := c.replyBytes + tail.size }

def addReplyProto (c : Client) (s : Bytes) (slack : Nat) : Client :=
  match addReplyToBuffer c s with
  | some c' => c'
  | none => addReplyProtoToList c s slack

/-- Give back the room of a last block that will not be filled any more; gives the
list and the change of its size. -/
def trimTail : List Node → Nat → List Node × Int
  | [], _ => ([], 0)
  | [.placeholder id], _ => ([.placeholder id], 0)
  | [.block tail], slack =>
    if tail.size - tail.buf.length > tail.size / 4 ∧ tail.buf.length < protoReplyChunkBytes then
      let trimmed := Block.new tail.buf tail.buf.length slack (Nat.le_refl _)
      ([.block trimmed], trimmed.size - tail.size)
    else ([.block tail], 0)
  | n :: m :: rest, slack => (n :: (trimTail (m :: rest) slack).1, (trimTail (m :: rest) slack).2)

def trimReplyUnusedTailSpace (c : Client) (slack : Nat) : Client :=
  { c with reply := (trimTail c.reply slack).1
           replyBytes := c.replyBytes + (trimTail c.reply slack).2 }

/-- Add a placeholder, with the next number. -/
def addReplyDeferredLen (c : Client) (slack : Nat) : Client :=
  let c := trimReplyUnusedTailSpace c slack
  { c with reply := c.reply ++ [.placeholder c.deferred], deferred := c.deferred + 1 }

/-- `sprintf(lenstr, "%c%ld\r\n", prefix, length)`. -/
def lenstr (kind : UInt8) (length : Nat) : Bytes := kind :: ll2string length ++ [13, 10]

/-- Put the length in front of the next block, or into a block of its own; gives
the list and the change of its size. -/
def setDeferred (id : Nat) (hdr : Bytes) (slack : Nat) : List Node → List Node × Int
  | [] => ([], 0)
  | .placeholder ln :: rest =>
    let buf := Block.new hdr hdr.length slack (Nat.le_refl _)
    if ln = id then
      match rest with
      | .block next :: rest' =>
        if h : next.size - next.buf.length ≥ hdr.length ∧
            next.buf.length < protoReplyChunkBytes * 4 then
          (.block (next.glue hdr h.1) :: rest', 0)
        else (.block buf :: rest, buf.size)
      | _ => (.block buf :: rest, buf.size)
    else
      let after := setDeferred id hdr slack rest
      (.placeholder ln :: after.1, after.2)
  | .block b :: rest =>
    let after := setDeferred id hdr slack rest
    (.block b :: after.1, after.2)

def setDeferredAggregateLen (c : Client) (id length : Nat) (kind : UInt8) (slack : Nat) : Client :=
  { c with reply := (setDeferred id (lenstr kind length) slack c.reply).1
           replyBytes := c.replyBytes + (setDeferred id (lenstr kind length) slack c.reply).2 }

/-- What can go wrong while writing: a node without a block, or the assertion. -/
inductive Fault where
  | nullBlock
  | replyBytes
deriving DecidableEq, Repr

/-- Delete the empty blocks at the front, as the loop does before it writes. -/
def dropUnused : List Node → List Node × Nat
  | .block o :: rest =>
    if o.buf = [] then ((dropUnused rest).1, (dropUnused rest).2 + o.size)
    else (.block o :: rest, 0)
  | reply => (reply, 0)

/-- The socket takes `n` bytes of the fixed buffer. -/
def sendBuffer (c : Client) (n : Nat) : Client × Bytes :=
  let chunk := (c.buf.drop c.sentlen).take n
  if c.sentlen + chunk.length = c.buf.length then ({ c with buf := [], sentlen := 0 }, chunk)
  else ({ c with sentlen := c.sentlen + chunk.length }, chunk)

/-- The socket takes `n` bytes of the first block. -/
def sendBlock (c : Client) (o : Block) (rest : List Node) (n : Nat) : Except Fault (Client × Bytes) :=
  let chunk := (o.buf.drop c.sentlen).take n
  if c.sentlen + chunk.length = o.buf.length then
    if rest = [] ∧ c.replyBytes - o.size ≠ 0 then .error .replyBytes
    else .ok ({ c with reply := rest, replyBytes := c.replyBytes - o.size, sentlen := 0 }, chunk)
  else .ok ({ c with sentlen := c.sentlen + chunk.length }, chunk)

/-- One call of `connWrite` that takes `n` bytes. -/
def sendSome (c : Client) (n : Nat) : Except Fault (Client × Bytes) :=
  if c.buf ≠ [] then .ok (sendBuffer c n)
  else match c.reply with
    | .block o :: rest => sendBlock c o rest n
    | _ => .error .nullBlock

/-- The empty blocks are only looked at when the fixed buffer is sent. -/
def skipUnused (c : Client) : Client :=
  if c.buf ≠ [] then c
  else { c with reply := (dropUnused c.reply).1, replyBytes := c.replyBytes - (dropUnused c.reply).2 }

/-- The loop of `writeToClient`. The results of `connWrite` are given; when they
are used up the socket takes nothing more. `limited` says whether the limit on
the bytes of one call applies. -/
def writeLoop (limited : Bool) : List Int → Client → Nat → Except Fault (Client × Bytes)
  | [], c, _ => .ok (skipUnused c, [])
  | nwritten :: results, c, totwritten =>
    let c := skipUnused c
    if clientHasPendingReplies c then
      if nwritten ≤ 0 then .ok (c, [])
      else do
        let (c, chunk) ← sendSome c nwritten.toNat
        let totwritten := totwritten + chunk.length
        if limited ∧ totwritten > netMaxWritesPerEvent then return (c, chunk)
        else
          let (c, more) ← writeLoop limited results c totwritten
          return (c, chunk ++ more)
    else .ok (c, [])

/-- `writeToClient` on a connection that stays up: the client, and the bytes that
went to the socket. -/
def writeToClient (c : Client) (limited : Bool) (results : List Int) :
    Except Fault (Client × Bytes) := do
  let (c, sent) ← writeLoop limited results c 0
  return (if clientHasPendingReplies c then c else { c with sentlen := 0 }, sent)

end Redis.Networking
