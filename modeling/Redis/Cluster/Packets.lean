import Redis.Cluster.Election

/-! What `clusterProcessPacket` does with the configuration that a master announces: its
epochs, the slots it claims, and an epoch that collides with the receiver's own. -/
namespace Redis.Cluster

def clusterSlots : Nat := 16384

/-- The cluster state with what the slots need: which ones are imported, and how many keys
each one holds. -/
structure SlotState (Node : Type) extends ClusterState Node where
  importingSlotsFrom : Nat → Option Node
  slotsKeysCount : Nat → Nat
  noRedirection : Bool

section Code

variable {Node : Type}

section Collision

variable [LinearOrder Node]

/-- Nodes have the order that `memcmp` gives to their names. -/
def clusterHandleConfigEpochCollision (s : ClusterState Node) (sender : Node) : ClusterState Node :=
  let me := s.nodes s.myself
  if (s.nodes sender).configEpoch ≠ me.configEpoch ∨ !(s.nodes sender).isMaster ∨ !me.isMaster then s
  else if sender ≤ s.myself then s
  else
    let epoch := (s.currentEpoch + 1) % 2 ^ 64
    { s with
      currentEpoch := epoch
      nodes := Function.update s.nodes s.myself { me with configEpoch := epoch } }

/-- The last thing that is done with the epochs of a packet. -/
def resolveCollision (s : ClusterState Node) (sender : Node) (senderConfigEpoch : Nat) :
    ClusterState Node :=
  let me := s.nodes s.myself
  if me.isMaster ∧ (s.nodes sender).isMaster ∧ senderConfigEpoch = me.configEpoch then
    clusterHandleConfigEpochCollision s sender
  else s

/-- All that is done with the epochs of a packet from a known node. -/
def processEpochs (s : ClusterState Node) (hdr : ClusterMsg Node) : ClusterState Node :=
  resolveCollision (noteEpochs s hdr) hdr.sender hdr.configEpoch

end Collision

variable [DecidableEq Node]

def SlotState.setNode (s : SlotState Node) (n : Node) (node : ClusterNode Node) : SlotState Node :=
  { s with nodes := Function.update s.nodes n node }

def SlotState.setSlot (s : SlotState Node) (slot : Nat) (owner : Option Node) : SlotState Node :=
  { s with slots := Function.update s.slots slot owner }

def clusterNodeSetSlotBit (n : ClusterNode Node) (slot : Nat) : ClusterNode Node :=
  if slot ∈ n.slots then n else { n with slots := slot :: n.slots }

def clusterNodeClearSlotBit (n : ClusterNode Node) (slot : Nat) : ClusterNode Node :=
  { n with slots := n.slots.filter (· ≠ slot) }

def clusterAddSlot (s : SlotState Node) (n : Node) (slot : Nat) : SlotState Node :=
  if (s.slots slot).isSome then s
  else (s.setNode n (clusterNodeSetSlotBit (s.nodes n) slot)).setSlot slot (some n)

/-- The result is missing if the bit of the owner was not set, which is an assertion. -/
def clusterDelSlot (s : SlotState Node) (slot : Nat) : Option (SlotState Node) :=
  match s.slots slot with
  | none => some s
  | some n =>
    if slot ∈ (s.nodes n).slots then
      some ((s.setNode n (clusterNodeClearSlotBit (s.nodes n) slot)).setSlot slot none)
    else none

/-- What the loop over the slots has done so far. -/
structure SlotScan (Node : Type) where
  state : SlotState Node
  newmaster : Option Node
  dirtySlots : List Nat

/-- The slot is free, or its owner has a smaller epoch than the claim. -/
def yields (s : SlotState Node) (senderConfigEpoch : Nat) (j : Nat) : Bool :=
  match s.slots j with
  | none => true
  | some n => (s.nodes n).configEpoch < senderConfigEpoch

/-- One claimed slot. -/
def updateSlot (curmaster : Option Node) (sender : Node) (senderConfigEpoch : Nat)
    (scan : SlotScan Node) (j : Nat) : Option (SlotScan Node) :=
  let s := scan.state
  if s.slots j = some sender then some scan
  else if (s.importingSlotsFrom j).isSome then some scan
  else if yields s senderConfigEpoch j then do
    let dirtySlots :=
      if s.slots j = some s.myself ∧ s.slotsKeysCount j ≠ 0 ∧ sender ≠ s.myself then
        scan.dirtySlots ++ [j]
      else scan.dirtySlots
    let newmaster := if s.slots j = curmaster then some sender else scan.newmaster
    let s ← clusterDelSlot s j
    some ⟨clusterAddSlot s sender j, newmaster, dirtySlots⟩
  else some scan

/-- The assertions are that a node does not replicate itself and that it serves no slots. -/
def clusterSetMaster (s : SlotState Node) (n : Node) : Option (SlotState Node) :=
  let me := s.nodes s.myself
  if n = s.myself ∨ me.numslots ≠ 0 then none
  else
    some { s.setNode s.myself { me with isMaster := false, slaveof := some n } with
      importingSlotsFrom := if me.isMaster then fun _ => none else s.importingSlotsFrom
      mfEnd := 0
      mfCanStart := false }

def delKeysInSlots (s : SlotState Node) (dirtySlots : List Nat) : SlotState Node :=
  { s with slotsKeysCount := fun j => if j ∈ dirtySlots then 0 else s.slotsKeysCount j }

/-- The end of `clusterUpdateSlotsConfigWith`: a node whose master was left without slots
replicates the new owner. There is no result if there is no such master to look at. -/
def followSlots (curmaster : Option Node) (sender : Node) (scan : SlotScan Node) :
    Option (SlotState Node) :=
  let s := scan.state
  match scan.newmaster, curmaster with
  | none, _ => some (delKeysInSlots s scan.dirtySlots)
  | some _, none => none
  | some _, some master =>
    if (s.nodes master).numslots = 0 then clusterSetMaster s sender
    else some (delKeysInSlots s scan.dirtySlots)

def clusterUpdateSlotsConfigWith (s : SlotState Node) (sender : Node) (senderConfigEpoch : Nat)
    (slots : List Nat) : Option (SlotState Node) :=
  let me := s.nodes s.myself
  let curmaster := if me.isMaster then some s.myself else me.slaveof
  if sender = s.myself then some s
  else do
    let claimed := (List.range clusterSlots).filter (· ∈ slots)
    let scan ← claimed.foldlM (updateSlot curmaster sender senderConfigEpoch) ⟨s, none, []⟩
    if scan.state.noRedirection then some scan.state else followSlots curmaster sender scan

def clusterSetNodeAsMaster (s : SlotState Node) (n : Node) : SlotState Node :=
  if (s.nodes n).isMaster then s
  else s.setNode n { s.nodes n with isMaster := true, slaveof := none }

/-- The two bitmaps differ. -/
def slotsDiffer (a b : List Nat) : Bool :=
  (List.range clusterSlots).any fun j => decide (j ∈ a) ≠ decide (j ∈ b)

end Code

section Packet

variable {Node : Type} [LinearOrder Node]

/-- A PING or PONG in which a node says that it is a master. -/
def clusterProcessAnnouncement (s : SlotState Node) (hdr : ClusterMsg Node) :
    Option (SlotState Node) :=
  if !s.known hdr.sender then some s
  else
    let inHandshake := (s.nodes hdr.sender).handshake
    let senderConfigEpoch := if inHandshake then 0 else hdr.configEpoch
    let s := if inHandshake then s else { s with toClusterState := noteEpochs s.toClusterState hdr }
    let s := clusterSetNodeAsMaster s hdr.sender
    let updated :=
      if slotsDiffer (s.nodes hdr.sender).slots hdr.myslots then
        clusterUpdateSlotsConfigWith s hdr.sender senderConfigEpoch hdr.myslots
      else some s
    updated.map fun s =>
      { s with toClusterState := resolveCollision s.toClusterState hdr.sender senderConfigEpoch }

end Packet

end Redis.Cluster
