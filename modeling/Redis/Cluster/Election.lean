import Mathlib

/-! The election of a replica in `cluster.c`: how a master votes, how a replica asks for
votes and counts them, and the network of nodes that do so. Epochs are 64-bit counters
that only grow by one. -/
namespace Redis.Cluster

/-- What a node has in its table about another node. The slots are those of the bitmap. -/
structure ClusterNode (Node : Type) where
  isMaster : Bool
  slaveof : Option Node
  failed : Bool
  handshake : Bool
  linked : Bool
  slots : List Nat
  configEpoch : Nat
  votedTime : Int

def ClusterNode.numslots {Node : Type} (n : ClusterNode Node) : Nat := n.slots.length

/-- What a node knows about the cluster: its size, the nodes, who serves a slot, and a
manual failover that is going on. -/
structure View (Node : Type) where
  size : Nat
  known : Node → Bool
  nodes : Node → ClusterNode Node
  slots : Nat → Option Node
  mfEnd : Int
  mfCanStart : Bool

/-- The part of `clusterState` that elections use. -/
structure ClusterState (Node : Type) extends View Node where
  myself : Node
  currentEpoch : Nat
  lastVoteEpoch : Nat
  failoverAuthTime : Int
  failoverAuthCount : Nat
  failoverAuthSent : Bool
  failoverAuthRank : Int
  failoverAuthEpoch : Nat

inductive MsgType where
  | failoverAuthRequest
  | failoverAuthAck
  | other
deriving DecidableEq, Repr

structure ClusterMsg (Node : Type) where
  type : MsgType
  sender : Node
  currentEpoch : Nat
  configEpoch : Nat
  myslots : List Nat
  forceAck : Bool

structure Config where
  clusterNodeTimeout : Int
  clusterSlaveNoFailover : Bool
  clusterSlaveValidityFactor : Int
  replPingSlavePeriod : Int

section Code

variable {Node : Type} [DecidableEq Node]

/-- A replica speaks for the slots and the configuration of its master. -/
def clusterBuildMessageHdr (s : ClusterState Node) (type : MsgType) : ClusterMsg Node :=
  let me := s.nodes s.myself
  let master := if !me.isMaster then s.nodes (me.slaveof.getD s.myself) else me
  { type := type
    sender := s.myself
    currentEpoch := s.currentEpoch
    configEpoch := master.configEpoch
    myslots := master.slots
    forceAck := type = .failoverAuthRequest && s.mfEnd ≠ 0 }

/-- A claimed slot is served by a node with a greater configuration epoch. -/
def slotIsNewer (s : ClusterState Node) (requestConfigEpoch : Nat) (j : Nat) : Bool :=
  match s.slots j with
  | none => false
  | some n => (s.nodes n).configEpoch > requestConfigEpoch

def setVotedTime (s : ClusterState Node) (master : Node) (now : Int) : ClusterState Node :=
  { s with nodes := Function.update s.nodes master { s.nodes master with votedTime := now } }

/-- The checks on the replica and its master, and the vote. The message is missing if there
is no link to the replica. -/
def voteFor (cfg : Config) (now : Int) (s : ClusterState Node) (node master : Node)
    (request : ClusterMsg Node) : ClusterState Node × Option (ClusterMsg Node) :=
  if (s.nodes node).isMaster ∨ !(s.nodes master).failed ∧ !request.forceAck then (s, none)
  else if now - (s.nodes master).votedTime < cfg.clusterNodeTimeout * 2 then (s, none)
  else if request.myslots.any (slotIsNewer s request.configEpoch) then (s, none)
  else
    let s := setVotedTime { s with lastVoteEpoch := s.currentEpoch } master now
    (s, if (s.nodes node).linked then some (clusterBuildMessageHdr s .failoverAuthAck) else none)

def clusterSendFailoverAuthIfNeeded (cfg : Config) (now : Int) (s : ClusterState Node) (node : Node)
    (request : ClusterMsg Node) : ClusterState Node × Option (ClusterMsg Node) :=
  let me := s.nodes s.myself
  if !me.isMaster ∨ me.numslots = 0 then (s, none)
  else if request.currentEpoch < s.currentEpoch then (s, none)
  else if s.lastVoteEpoch = s.currentEpoch then (s, none)
  else
    match (s.nodes node).slaveof with
    | none => (s, none)
    | some master => voteFor cfg now s node master request

/-- The epochs in the header of every packet. -/
def noteEpochs (s : ClusterState Node) (hdr : ClusterMsg Node) : ClusterState Node :=
  let sender := s.nodes hdr.sender
  { s with
    currentEpoch := max s.currentEpoch hdr.currentEpoch
    nodes := Function.update s.nodes hdr.sender
      { sender with configEpoch := max sender.configEpoch hdr.configEpoch } }

/-- Whether the code counts an acknowledgement. -/
def countsAck (s : ClusterState Node) (hdr : ClusterMsg Node) (senderCurrentEpoch : Nat) : Prop :=
  (s.nodes hdr.sender).isMaster = true ∧ (s.nodes hdr.sender).numslots > 0 ∧
    senderCurrentEpoch ≥ s.failoverAuthEpoch

instance (s : ClusterState Node) (hdr : ClusterMsg Node) (e : Nat) : Decidable (countsAck s hdr e) :=
  inferInstanceAs (Decidable (_ ∧ _ ∧ _))

/-- The parts of `clusterProcessPacket` that elections depend on. -/
def clusterProcessPacket (cfg : Config) (now : Int) (s : ClusterState Node) (hdr : ClusterMsg Node) :
    ClusterState Node × Option (ClusterMsg Node) :=
  if !s.known hdr.sender then (s, none)
  else
    let inHandshake := (s.nodes hdr.sender).handshake
    let senderCurrentEpoch := if inHandshake then 0 else hdr.currentEpoch
    let s := if inHandshake then s else noteEpochs s hdr
    match hdr.type with
    | .failoverAuthRequest => clusterSendFailoverAuthIfNeeded cfg now s hdr.sender hdr
    | .failoverAuthAck =>
      (if countsAck s hdr senderCurrentEpoch then
        { s with failoverAuthCount := s.failoverAuthCount + 1 } else s, none)
    | .other => (s, none)

/-- What `clusterHandleSlaveFailover` reads from elsewhere: the clock, `random`, the rank of
the replica, and how long ago it last heard of its master. -/
structure FailoverInput where
  now : Int
  random : Nat
  rank : Int
  dataAge : Int

inductive FailoverResult (Node : Type) where
  | none
  | request (msg : ClusterMsg Node)
  | promoted

/-- Schedule an election. -/
def scheduleElection (inp : FailoverInput) (s : ClusterState Node) : ClusterState Node :=
  if s.mfEnd ≠ 0 then
    { s with
      failoverAuthTime := inp.now
      failoverAuthCount := 0
      failoverAuthSent := false
      failoverAuthRank := 0 }
  else
    { s with
      failoverAuthTime := inp.now + 500 + (inp.random % 500 : Nat) + inp.rank * 1000
      failoverAuthCount := 0
      failoverAuthSent := false
      failoverAuthRank := inp.rank }

/-- A worse rank delays the election. -/
def delayElection (inp : FailoverInput) (s : ClusterState Node) : ClusterState Node :=
  if s.failoverAuthSent = false ∧ s.mfEnd = 0 ∧ inp.rank > s.failoverAuthRank then
    { s with
      failoverAuthTime := s.failoverAuthTime + (inp.rank - s.failoverAuthRank) * 1000
      failoverAuthRank := inp.rank }
  else s

def startElection (s : ClusterState Node) : ClusterState Node :=
  { s with
    currentEpoch := s.currentEpoch + 1
    failoverAuthEpoch := s.currentEpoch + 1
    failoverAuthSent := true }

/-- `clusterFailoverReplaceYourMaster`, with the configuration epoch of the election. -/
def replaceYourMaster (s : ClusterState Node) (oldmaster : Node) : ClusterState Node :=
  let me := s.nodes s.myself
  let old := s.nodes oldmaster
  { s with
    nodes := Function.update (Function.update s.nodes oldmaster { old with slots := [] }) s.myself
      { me with
        isMaster := true
        slaveof := none
        slots := me.slots ++ old.slots
        configEpoch := max me.configEpoch s.failoverAuthEpoch }
    slots := fun j => if j ∈ old.slots then some s.myself else s.slots j
    mfEnd := 0
    mfCanStart := false }

/-- The data of the replica is too old. -/
def dataIsOld (cfg : Config) (inp : FailoverInput) : Prop :=
  let dataAge :=
    if inp.dataAge > cfg.clusterNodeTimeout then inp.dataAge - cfg.clusterNodeTimeout else inp.dataAge
  cfg.clusterSlaveValidityFactor ≠ 0 ∧ dataAge >
    cfg.replPingSlavePeriod * 1000 + cfg.clusterNodeTimeout * cfg.clusterSlaveValidityFactor

instance (cfg : Config) (inp : FailoverInput) : Decidable (dataIsOld cfg inp) :=
  inferInstanceAs (Decidable (_ ∧ _))

def authTimeout (cfg : Config) : Int :=
  if cfg.clusterNodeTimeout * 2 < 2000 then 2000 else cfg.clusterNodeTimeout * 2

/-- The end of `clusterHandleSlaveFailover`, when an election is due. -/
def runElection (s : ClusterState Node) (oldmaster : Node) :
    ClusterState Node × FailoverResult Node :=
  if s.failoverAuthSent = false then
    let s := startElection s
    (s, .request (clusterBuildMessageHdr s .failoverAuthRequest))
  else if s.failoverAuthCount ≥ s.size / 2 + 1 then (replaceYourMaster s oldmaster, .promoted)
  else (s, .none)

def clusterHandleSlaveFailover (cfg : Config) (inp : FailoverInput) (s : ClusterState Node) :
    ClusterState Node × FailoverResult Node :=
  let authAge := inp.now - s.failoverAuthTime
  let manualFailover : Bool := s.mfEnd ≠ 0 && s.mfCanStart
  let me := s.nodes s.myself
  match me.slaveof with
  | none => (s, .none)
  | some oldmaster =>
    if me.isMaster ∨ !(s.nodes oldmaster).failed ∧ !manualFailover ∨
        cfg.clusterSlaveNoFailover ∧ !manualFailover ∨ (s.nodes oldmaster).numslots = 0 then (s, .none)
    else if dataIsOld cfg inp ∧ !manualFailover then (s, .none)
    else if authAge > authTimeout cfg * 2 then (scheduleElection inp s, .none)
    else
      let s := delayElection inp s
      if inp.now < s.failoverAuthTime then (s, .none)
      else if authAge > authTimeout cfg then (s, .none)
      else runElection s oldmaster

end Code

/-- The nodes, their saved epochs, the packets on their way with their destinations, and
the masters that serve slots. The last two fields are a record: the acknowledgements sent,
as voter, epoch and candidate, and the replicas elected, with the epoch. -/
structure World (Node : Type) where
  servers : Node → ClusterState Node
  saved : Node → Nat × Nat
  network : List (Node × ClusterMsg Node)
  masters : Finset Node
  acks : List (Node × Nat × Node)
  elected : List (Node × Nat)

/-- What happens next. A list of nodes is who a packet is sent to; a family of views is
what the nodes come to know of the configuration at that moment. -/
inductive Action (Node : Type) where
  | deliver (i : Nat) (now : Int)
  | lose (i : Nat)
  | failover (n : Node) (inp : FailoverInput) (dests : List Node) (views : Node → View Node)
  | gossip (n : Node) (dests : List Node)
  | bumpEpoch (n : Node)
  | save (n : Node)
  | restart (n : Node) (epoch : Nat) (view : View Node)
  | learn (views : Node → View Node) (masters : Finset Node)

section Runs

variable {Node : Type} [DecidableEq Node]

/-- Write the epochs to the configuration file. -/
def World.save (w : World Node) (n : Node) : World Node :=
  { w with
    saved := Function.update w.saved n ((w.servers n).currentEpoch, (w.servers n).lastVoteEpoch) }

def World.setServer (w : World Node) (n : Node) (s : ClusterState Node) : World Node :=
  { w with servers := Function.update w.servers n s }

/-- A node has handled a packet. A vote is saved before anything is sent. -/
def World.answer (w : World Node) (dest : Node) (msg : ClusterMsg Node) (s : ClusterState Node) :
    Option (ClusterMsg Node) → World Node
  | none =>
    if s.lastVoteEpoch ≠ (w.servers dest).lastVoteEpoch then (w.setServer dest s).save dest
    else w.setServer dest s
  | some ack =>
    { (w.setServer dest s).save dest with
      network := w.network ++ [(msg.sender, ack)]
      acks := (dest, ack.currentEpoch, msg.sender) :: w.acks }

def World.process (cfg : Config) (w : World Node) (now : Int) (dest : Node) (msg : ClusterMsg Node) :
    World Node :=
  let out := clusterProcessPacket cfg now (w.servers dest) msg
  w.answer dest msg out.1 out.2

/-- A node has gone through `clusterHandleSlaveFailover`. When it is elected, all nodes learn
that it serves the slots of its master. -/
def World.attempt (w : World Node) (n : Node) (dests : List Node) (views : Node → View Node)
    (s : ClusterState Node) : FailoverResult Node → World Node
  | .none => w.setServer n s
  | .request msg =>
    { (w.setServer n s).save n with network := w.network ++ dests.map (·, msg) }
  | .promoted =>
    { w with
      servers := Function.update (fun k => { w.servers k with toView := views k }) n s
      masters := insert n (match ((w.servers n).nodes n).slaveof with
        | none => w.masters
        | some old => w.masters.erase old)
      elected := (n, s.failoverAuthEpoch) :: w.elected }

/-- The state a node starts with: the saved epochs, and what it reads about the others. -/
def startState (n : Node) (view : View Node) (epochs : Nat × Nat) (epoch : Nat) : ClusterState Node where
  toView := view
  myself := n
  currentEpoch := max epochs.1 epoch
  lastVoteEpoch := epochs.2
  failoverAuthTime := 0
  failoverAuthCount := 0
  failoverAuthSent := false
  failoverAuthRank := 0
  failoverAuthEpoch := 0

def World.apply (cfg : Config) (w : World Node) : Action Node → World Node
  | .deliver i now =>
    match w.network[i]? with
    | none => w
    | some (dest, msg) =>
      World.process cfg { w with network := w.network.eraseIdx i } now dest msg
  | .lose i => { w with network := w.network.eraseIdx i }
  | .failover n inp dests views =>
    let out := clusterHandleSlaveFailover cfg inp (w.servers n)
    w.attempt n dests views out.1 out.2
  | .gossip n dests =>
    { w with network := w.network ++ dests.map (·, clusterBuildMessageHdr (w.servers n) .other) }
  | .bumpEpoch n =>
    w.setServer n { w.servers n with currentEpoch := (w.servers n).currentEpoch + 1 }
  | .save n => w.save n
  | .restart n epoch view => w.setServer n (startState n view (w.saved n) epoch)
  | .learn views masters =>
    { w with
      servers := fun k => { w.servers k with toView := views k }
      masters := masters }

/-- A node knows the masters that serve slots, and how many there are; it knows all nodes. -/
structure View.Knows (v : View Node) (masters : Finset Node) : Prop where
  size : v.size = masters.card
  serves : ∀ n, 0 < (v.nodes n).numslots ↔ n ∈ masters
  isMaster : ∀ n ∈ masters, (v.nodes n).isMaster = true
  handshake : ∀ n, (v.nodes n).handshake = false

/-- All nodes know the same `N` masters. -/
structure World.Known (N : Nat) (w : World Node) : Prop where
  card : w.masters.card = N
  knows : ∀ n, (w.servers n).Knows w.masters

/-- Nothing was sent yet. -/
structure World.Initial (w : World Node) : Prop where
  network : w.network = []
  acks : w.acks = []
  elected : w.elected = []
  server : ∀ n, (w.servers n).myself = n ∧ (w.servers n).failoverAuthSent = false ∧
    (w.servers n).failoverAuthCount = 0
  epochs : ∀ n, (w.saved n).2 = (w.servers n).lastVoteEpoch ∧ (w.saved n).2 ≤ (w.saved n).1 ∧
    (w.saved n).1 ≤ (w.servers n).currentEpoch

/-- Runs in which all nodes know the same `N` masters at any time. -/
inductive Reaches (cfg : Config) (N : Nat) (allowed : World Node → Action Node → Prop)
    (w₀ : World Node) : World Node → Prop where
  | start (h : w₀.Known N) : Reaches cfg N allowed w₀ w₀
  | step {w : World Node} {a : Action Node} (prior : Reaches cfg N allowed w₀ w) (ha : allowed w a)
      (h : (w.apply cfg a).Known N) : Reaches cfg N allowed w₀ (w.apply cfg a)

end Runs

end Redis.Cluster
