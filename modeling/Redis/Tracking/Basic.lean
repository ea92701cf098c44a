import Redis.Library.ByteBuffer
import Redis.Library.SortedMap

/-! Client side caching, `tracking.c`: which clients may have which keys in their caches, and
the invalidation messages they are sent. The radix trees are maps here, and a client is its
ID. There is no redirection, and no `OPTIN` and `OPTOUT`. -/
namespace Redis.Tracking

open ByteBuffer

abbrev ClientId := Nat

/-- The flags of a client, whether it speaks RESP3, and its `client_tracking_prefixes`. -/
structure Client where
  tracking : Bool
  bcast : Bool
  noloop : Bool
  resp3 : Bool
  prefixes : List Bytes

/-- The keys that were modified in the current cycle of the event loop, each with the client
that did it, and the clients to notify. -/
structure BcastState where
  keys : SortedMap Bytes (Option ClientId)
  clients : List ClientId

/-- The tables are allocated when the first client enables tracking. `sent` has the
invalidation messages, the keys they name, in the order in which they are sent. -/
structure State where
  clients : ClientId → Client
  allocated : Bool
  trackingTable : Bytes → Option (List ClientId)
  prefixTable : SortedMap Bytes BcastState
  trackingClients : Nat
  sent : List (ClientId × List Bytes)

variable (s : State)

def enableBcastTrackingForPrefix (c : ClientId) (p : Bytes) : State :=
  let bs := (s.prefixTable.find p).getD ⟨SortedMap.empty, []⟩
  if c ∈ bs.clients then s
  else
    let client := s.clients c
    { s with
      prefixTable := s.prefixTable.insert p { bs with clients := bs.clients ++ [c] }
      clients := Function.update s.clients c { client with prefixes := client.prefixes ++ [p] } }

/-- The flags that are set before the prefixes are entered. -/
def setTracking (c : ClientId) (bcast noloop : Bool) : State :=
  let client := s.clients c
  { s with
    trackingClients := if client.tracking then s.trackingClients else s.trackingClients + 1
    allocated := true
    clients := Function.update s.clients c { client with tracking := true, bcast, noloop } }

def enableTracking (c : ClientId) (bcast noloop : Bool) (prefixes : List Bytes) : State :=
  let s := setTracking s c bcast noloop
  if bcast then
    (if prefixes = [] then [[]] else prefixes).foldl (enableBcastTrackingForPrefix · c) s
  else s

/-- One key of a command. -/
def trackingRememberKey (c : ClientId) (s : State) (key : Bytes) : State :=
  let ids := (s.trackingTable key).getD []
  { s with
    trackingTable := Function.update s.trackingTable key
      (some (if c ∈ ids then ids else ids ++ [c])) }

def trackingRememberKeys (c : ClientId) (keys : List Bytes) : State :=
  keys.foldl (trackingRememberKey c) s

/-- The end of `call`, for a command that only reads. -/
def rememberRead (c : ClientId) (keys : List Bytes) : State :=
  if (s.clients c).tracking ∧ !(s.clients c).bcast then trackingRememberKeys s c keys else s

/-- Nothing can be sent to a client of RESP2. -/
def sendTrackingMessage (c : ClientId) (keys : List Bytes) : State :=
  if (s.clients c).resp3 then { s with sent := s.sent ++ [(c, keys)] } else s

/-- The author of the first change in a cycle stays. -/
def BcastState.rememberKey (bs : BcastState) (author : Option ClientId) (key : Bytes) :
    BcastState :=
  if (bs.keys.find key).isSome then bs else { bs with keys := bs.keys.insert key author }

def trackingRememberKeyToBroadcast (author : Option ClientId) (key : Bytes) : State :=
  { s with
    prefixTable := s.prefixTable.mapValues fun p bs =>
      if p.length > key.length then bs
      else if p ≠ [] ∧ key.take p.length ≠ p then bs
      else bs.rememberKey author key }

/-- The message to one of the clients that may have the key. -/
def invalidateFor (author : Option ClientId) (key : Bytes) (s : State) (id : ClientId) : State :=
  let target := s.clients id
  if !target.tracking ∨ target.bcast then s
  else if target.noloop ∧ author = some id then s
  else sendTrackingMessage s id [key]

def trackingInvalidateKeyRaw (author : Option ClientId) (key : Bytes) (bcast : Bool) : State :=
  if !s.allocated then s
  else
    let s := if bcast ∧ s.prefixTable.entries ≠ [] then trackingRememberKeyToBroadcast s author key
      else s
    match s.trackingTable key with
    | none => s
    | some ids =>
      let s := ids.foldl (invalidateFor author key) s
      { s with trackingTable := Function.update s.trackingTable key none }

/-- A key was changed by a client, or it expired. -/
def trackingInvalidateKey (author : Option ClientId) (key : Bytes) : State :=
  trackingInvalidateKeyRaw s author key true

/-- The names of the changed keys, without those that the client changed first; none if
there would be no name. -/
def trackingBuildBroadcastReply (c : Option ClientId) (keys : SortedMap Bytes (Option ClientId)) :
    Option (List Bytes) :=
  match c with
  | none => some (keys.entries.map Prod.fst)
  | some c =>
    let others := keys.entries.filter fun e => e.2 ≠ some c
    if others = [] then none else some (others.map Prod.fst)

/-- The message to one of the clients of a prefix. -/
def broadcastTo (keys : SortedMap Bytes (Option ClientId)) (s : State) (c : ClientId) : State :=
  if (s.clients c).noloop then
    match trackingBuildBroadcastReply (some c) keys with
    | none => s
    | some adhoc => sendTrackingMessage s c adhoc
  else
    match trackingBuildBroadcastReply none keys with
    | none => s
    | some proto => sendTrackingMessage s c proto

def broadcastPrefix (s : State) (e : Bytes × BcastState) : State :=
  if e.2.keys.entries = [] then s else e.2.clients.foldl (broadcastTo e.2.keys) s

def trackingBroadcastInvalidationMessages : State :=
  if !s.allocated ∨ s.trackingClients = 0 then s
  else
    let s := s.prefixTable.entries.foldl broadcastPrefix s
    { s with prefixTable := s.prefixTable.mapValues fun _ bs => { bs with keys := SortedMap.empty } }

end Redis.Tracking
