import Redis.RadixTree.Enumeration

/-! The timeouts of blocked clients: a radix tree whose keys are a deadline in big endian
order and the address of a client, and the loop that unblocks the clients that are due. -/
namespace Redis.Blocking

open ByteBuffer RadixTree

/-- The address of a client. -/
abbrev ClientPtr := UInt64

/-- The flags `CLIENT_BLOCKED` and `CLIENT_IN_TO_TABLE`, and `bpop.timeout`. -/
structure Client where
  blocked : Bool
  inTimeoutTable : Bool
  timeout : Int

structure Server where
  clients : ClientPtr → Option Client
  clientsTimeoutTable : Rax Unit

section Keys

/-- The deadline is an unsigned number here. -/
def encodeTimeoutKey (timeout : Int) (c : ClientPtr) : Bytes :=
  (leBytes 8 (timeout % 2 ^ 64).toNat).reverse ++ leBytes 8 c.toNat

def decodeTimeoutKey (buf : Bytes) : Nat × ClientPtr :=
  (readLE 8 (buf.take 8).reverse, UInt64.ofNat (readLE 8 (buf.drop 8)))

end Keys

section Code

variable (s : Server)

def Server.setClient (c : ClientPtr) (client : Client) : Server :=
  { s with clients := Function.update s.clients c (some client) }

def addClientToTimeoutTable (c : ClientPtr) (client : Client) : Server :=
  if client.timeout = 0 then s.setClient c client
  else
    let (table, added, _) := raxTryInsert s.clientsTimeoutTable (encodeTimeoutKey client.timeout c) none
    { s.setClient c { client with inTimeoutTable := client.inTimeoutTable || added } with
      clientsTimeoutTable := table }

def removeClientFromTimeoutTable (c : ClientPtr) (client : Client) : Server :=
  if !client.inTimeoutTable then s.setClient c client
  else
    { s.setClient c { client with inTimeoutTable := false } with
      clientsTimeoutTable :=
        (raxRemove s.clientsTimeoutTable (encodeTimeoutKey client.timeout c)).1 }

/-- A timeout of zero stays zero; the sum with the clock is a `long long`. -/
def getTimeout (tval now : Fin (2 ^ 63)) : Int :=
  if 0 < tval.val then ((tval.val + now.val : Nat) : Int).bmod (2 ^ 64) else 0

def blockClient (c : ClientPtr) (client : Client) : Server :=
  addClientToTimeoutTable s c { client with blocked := true }

def unblockClient (c : ClientPtr) (client : Client) : Server :=
  removeClientFromTimeoutTable s c { client with blocked := false }

/-- Whether the client was unblocked is returned too. -/
def checkBlockedClientTimeout (c : ClientPtr) (client : Client) (now : Int) : Server × Bool :=
  if client.blocked ∧ client.timeout ≠ 0 ∧ client.timeout < now then (unblockClient s c client, true)
  else (s.setClient c client, false)

end Code

/-- The loop of `handleBlockedClientsTimeout` with a bound on its rounds, and the clients that
were unblocked so far. There is no result at an address where no client is. -/
def timeoutLoop (now : Fin (2 ^ 63)) :
    Nat → Server → Iterator Unit → List ClientPtr → Option (Server × List ClientPtr)
  | 0, _, _, _ => none
  | rounds + 1, s, it, done =>
    let (it, more) := raxNext s.clientsTimeoutTable it
    if !more then some (s, done)
    else
      let (timeout, c) := decodeTimeoutKey it.cur.key
      if timeout ≥ now.val then some (s, done)
      else
        match s.clients c with
        | none => none
        | some client =>
          let (s, unblocked) :=
            checkBlockedClientTimeout s c { client with inTimeoutTable := false } now.val
          let table := (raxRemove s.clientsTimeoutTable it.cur.key).1
          timeoutLoop now rounds { s with clientsTimeoutTable := table }
            (raxSeek table it .first []) (if unblocked then done ++ [c] else done)

def handleBlockedClientsTimeout (s : Server) (now : Fin (2 ^ 63)) :
    Option (Server × List ClientPtr) :=
  if s.clientsTimeoutTable.numele = 0 then some (s, [])
  else
    timeoutLoop now (s.clientsTimeoutTable.numele + 1) s
      (raxSeek s.clientsTimeoutTable raxStart .first []) []

section World

/-- The server, and when and with what timeout each blocked client blocked. -/
structure World where
  server : Server
  since : ClientPtr → Option (Nat × Nat)

inductive Event where
  | connect (c : ClientPtr)
  | block (c : ClientPtr) (tval now : Fin (2 ^ 63))
  | unblock (c : ClientPtr)
  | free (c : ClientPtr)
  | handle (now : Fin (2 ^ 63))

def World.initial : World := ⟨⟨fun _ => none, raxNew⟩, fun _ => none⟩

/-- The clients that time out are returned with the new state. A client that is blocked runs
no command. -/
def World.step (w : World) : Event → Option (World × List ClientPtr)
  | .connect c =>
    if (w.server.clients c).isSome then some (w, [])
    else some ({ w with server := w.server.setClient c ⟨false, false, 0⟩ }, [])
  | .block c tval now =>
    match w.server.clients c with
    | none => some (w, [])
    | some client =>
      if client.blocked then some (w, [])
      else
        some (⟨blockClient w.server c { client with timeout := getTimeout tval now },
          Function.update w.since c (some (now.val, tval.val))⟩, [])
  | .unblock c =>
    match w.server.clients c with
    | none => some (w, [])
    | some client =>
      if client.blocked then
        some (⟨unblockClient w.server c client, Function.update w.since c none⟩, [])
      else some (w, [])
  | .free c =>
    match w.server.clients c with
    | none => some (w, [])
    | some client =>
      let server := if client.blocked then unblockClient w.server c client else w.server
      some (⟨{ server with clients := Function.update server.clients c none },
        Function.update w.since c none⟩, [])
  | .handle now =>
    (handleBlockedClientsTimeout w.server now).map fun (server, out) =>
      (⟨server, fun c => if c ∈ out then none else w.since c⟩, out)

def World.run (w : World) : List Event → Option World
  | [] => some w
  | e :: events =>
    match w.step e with
    | none => none
    | some (w', _) => World.run w' events

end World

end Redis.Blocking
