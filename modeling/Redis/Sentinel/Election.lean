import Redis.Util

/-! How the Sentinels of `sentinel.c` elect the one that leads a failover: votes, the requests
for them, and the count. Sentinels are told apart by their run identifiers. -/
namespace Redis.Sentinel

open Util

/-- The vote that another Sentinel has reported, for one master. -/
structure Peer (Id : Type) where
  leader : Option Id
  leaderEpoch : Nat

/-- `selectSlave` stands for all states behind the election. -/
inductive FailoverState where
  | none
  | waitStart
  | selectSlave
deriving DecidableEq, Repr

/-- What a Sentinel keeps about a master. -/
structure MasterInstance (Id : Type) where
  leader : Option Id
  leaderEpoch : Nat
  failoverState : FailoverState
  failoverEpoch : Nat
  quorum : Nat
  sentinels : Id → Peer Id

structure SentinelState (Id Master : Type) where
  myid : Id
  currentEpoch : Nat
  masters : Master → MasterInstance Id

/-- The arguments of `SENTINEL is-master-down-by-addr`; no run identifier is `*`. -/
structure Request (Id Master : Type) where
  master : Master
  epoch : Nat
  runid : Option Id

/-- The vote in the reply; no leader is `*`. -/
structure Reply (Id Master : Type) where
  master : Master
  leader : Option Id
  leaderEpoch : Nat

section Code

variable {Id Master : Type} [DecidableEq Id] [DecidableEq Master]

def SentinelState.setMaster (s : SentinelState Id Master) (m : Master) (master : MasterInstance Id) :
    SentinelState Id Master :=
  { s with masters := Function.update s.masters m master }

def raiseEpoch (s : SentinelState Id Master) (epoch : Nat) : SentinelState Id Master :=
  { s with currentEpoch := max s.currentEpoch epoch }

/-- The leader and the epoch that it returns are those of the master afterwards. -/
def sentinelVoteLeader (s : SentinelState Id Master) (m : Master) (reqEpoch : Nat) (reqRunid : Id) :
    SentinelState Id Master :=
  let s := raiseEpoch s reqEpoch
  let master := s.masters m
  if master.leaderEpoch < reqEpoch ∧ s.currentEpoch ≤ reqEpoch then
    s.setMaster m { master with leader := some reqRunid, leaderEpoch := s.currentEpoch }
  else s

/-- An epoch that is not a `long long` is refused with an error, which the other side ignores. -/
def isMasterDownByAddr (s : SentinelState Id Master) (request : Request Id Master) :
    SentinelState Id Master × Option (Reply Id Master) :=
  if 2 ^ 63 ≤ request.epoch then (s, none)
  else
    match request.runid with
    | none => (s, some ⟨request.master, none, 0⟩)
    | some runid =>
      let s := sentinelVoteLeader s request.master request.epoch runid
      let master := s.masters request.master
      (s, some ⟨request.master, master.leader, master.leaderEpoch⟩)

def setPeer (s : SentinelState Id Master) (m : Master) (r : Id) (peer : Peer Id) :
    SentinelState Id Master :=
  let master := s.masters m
  s.setMaster m { master with sentinels := Function.update master.sentinels r peer }

def sentinelReceiveIsMasterDownReply (s : SentinelState Id Master) (r : Id)
    (reply : Reply Id Master) : SentinelState Id Master :=
  match reply.leader with
  | none => s
  | some leader => setPeer s reply.master r ⟨some leader, reply.leaderEpoch⟩

/-- The request of `sentinelAskMasterStateToOtherSentinels`. -/
def askRequest (s : SentinelState Id Master) (m : Master) : Request Id Master :=
  ⟨m, s.currentEpoch, if (s.masters m).failoverState ≠ .none then some s.myid else none⟩

/-- A vote that is too old is cleared. -/
def clearVote (s : SentinelState Id Master) (m : Master) (r : Id) : SentinelState Id Master :=
  setPeer s m r { (s.masters m).sentinels r with leader := none }

/-- Only one failover of a master goes on at a time. -/
def sentinelStartFailover (s : SentinelState Id Master) (m : Master) : SentinelState Id Master :=
  let master := s.masters m
  if master.failoverState ≠ .none then s
  else
    let epoch := (s.currentEpoch + 1) % 2 ^ 64
    { s.setMaster m { master with failoverState := .waitStart, failoverEpoch := epoch } with
      currentEpoch := epoch }

def sentinelAbortFailover (s : SentinelState Id Master) (m : Master) : SentinelState Id Master :=
  s.setMaster m { s.masters m with failoverState := .none }

/-- The end of a failover: `sentinelResetMaster`, which keeps the Sentinels and the epochs. -/
def sentinelResetMaster (s : SentinelState Id Master) (m : Master) : SentinelState Id Master :=
  s.setMaster m { s.masters m with leader := none, failoverState := .none }

section Count

variable [Fintype Id]

/-- The other Sentinels that have reported a vote for this leader in the current epoch. -/
def votesFor (s : SentinelState Id Master) (m : Master) (leader : Id) : Nat :=
  (Finset.univ.filter fun r => r ≠ s.myid ∧ ((s.masters m).sentinels r).leader = some leader ∧
    ((s.masters m).sentinels r).leaderEpoch = s.currentEpoch).card

/-- The winner so far with its votes, and one more counter. -/
def compareVotes (s : SentinelState Id Master) (m : Master) (best : Option Id × Nat) (leader : Id) :
    Option Id × Nat :=
  if votesFor s m leader > best.2 then (some leader, votesFor s m leader) else best

/-- The loop over the counters, in the order of the dictionary. -/
def countVotes (s : SentinelState Id Master) (m : Master) (order : List Id) : Option Id × Nat :=
  order.foldl (compareVotes s m) (none, 0)

/-- `sentinelLeaderIncr` returns an `int`, which is assigned to a 64-bit word. -/
def sentinelLeaderIncr (votes : Nat) : Nat := (cInt (votes + 1) % 2 ^ 64).toNat

/-- The own vote is counted if it was given in the epoch of the failover. The votes of the
others are those before this vote. -/
def countMyVote (before s : SentinelState Id Master) (m : Master) (epoch : Nat)
    (best : Option Id × Nat) : Option Id × Nat :=
  match (s.masters m).leader with
  | none => best
  | some myvote =>
    if (s.masters m).leaderEpoch = epoch then
      let votes := sentinelLeaderIncr (votesFor before m myvote)
      if votes > best.2 then (some myvote, votes) else best
    else best

def sentinelGetLeader (s : SentinelState Id Master) (m : Master) (epoch : Nat) (order : List Id) :
    SentinelState Id Master × Option Id :=
  let voters := (Fintype.card Id - 1 + 1) % 2 ^ 32
  let best := countVotes s m order
  let voted := sentinelVoteLeader s m epoch (best.1.getD s.myid)
  let best := countMyVote s voted m epoch best
  let votersQuorum := voters / 2 + 1
  (voted, if best.2 < votersQuorum ∨ best.2 < (s.masters m).quorum then none else best.1)

/-- The Boolean says whether the Sentinel goes on as the leader. Giving up after a time is
an action of its own. -/
def sentinelFailoverWaitStart (s : SentinelState Id Master) (m : Master) (order : List Id) :
    SentinelState Id Master × Bool :=
  if (s.masters m).failoverState ≠ .waitStart then (s, false)
  else
    let out := sentinelGetLeader s m (s.masters m).failoverEpoch order
    if out.2 = some s.myid then
      (out.1.setMaster m { out.1.masters m with failoverState := .selectSlave }, true)
    else (out.1, false)

end Count

end Code

/-- The Sentinels and the messages on their way, with sender and receiver. The last two fields
are a record: the votes given, as voter, master, epoch and leader, and the Sentinels that went
on as leader of a master, with the epoch of the failover. -/
structure World (Id Master : Type) where
  sentinels : Id → SentinelState Id Master
  requests : List (Id × Id × Request Id Master)
  replies : List (Id × Id × Reply Id Master)
  votes : List (Id × Master × Nat × Id)
  elected : List (Id × Master × Nat)

/-- What happens next. The list of an election is the order in which the dictionary of
counters is walked. An epoch is heard in a hello message. -/
inductive Action (Id Master : Type) where
  | startFailover (s : Id) (m : Master)
  | ask (s r : Id) (m : Master)
  | answer (i : Nat)
  | receive (i : Nat)
  | loseRequest (i : Nat)
  | loseReply (i : Nat)
  | clearVote (s : Id) (m : Master) (r : Id)
  | waitStart (s : Id) (m : Master) (order : List Id)
  | abort (s : Id) (m : Master)
  | reset (s : Id) (m : Master)
  | hello (s : Id) (m : Master) (epoch : Nat)

namespace World

variable {Id Master : Type} [DecidableEq Id] [DecidableEq Master]

/-- The vote for a master that a Sentinel has just given. -/
def newVote (s s' : SentinelState Id Master) (n : Id) (m : Master) :
    List (Id × Master × Nat × Id) :=
  match (s'.masters m).leader with
  | none => []
  | some leader =>
    if (s'.masters m).leaderEpoch = (s.masters m).leaderEpoch then []
    else [(n, m, (s'.masters m).leaderEpoch, leader)]

/-- A Sentinel has done something about one master. -/
def update (w : World Id Master) (n : Id) (m : Master) (s : SentinelState Id Master) :
    World Id Master :=
  { w with
    sentinels := Function.update w.sentinels n s
    votes := newVote (w.sentinels n) s n m ++ w.votes }

def elect (w : World Id Master) (n : Id) (m : Master) (passed : Bool) : World Id Master :=
  if passed then
    { w with elected := (n, m, ((w.sentinels n).masters m).failoverEpoch) :: w.elected }
  else w

variable [Fintype Id]

def apply (w : World Id Master) : Action Id Master → World Id Master
  | .startFailover s m => w.update s m (sentinelStartFailover (w.sentinels s) m)
  | .ask s r m => { w with requests := w.requests ++ [(s, r, askRequest (w.sentinels s) m)] }
  | .answer i =>
    match w.requests[i]? with
    | none => w
    | some (s, r, request) =>
      let out := isMasterDownByAddr (w.sentinels r) request
      { w.update r request.master out.1 with
        requests := w.requests.eraseIdx i
        replies := w.replies ++ out.2.toList.map (r, s, ·) }
  | .receive i =>
    match w.replies[i]? with
    | none => w
    | some (r, s, reply) =>
      { w.update s reply.master (sentinelReceiveIsMasterDownReply (w.sentinels s) r reply) with
        replies := w.replies.eraseIdx i }
  | .loseRequest i => { w with requests := w.requests.eraseIdx i }
  | .loseReply i => { w with replies := w.replies.eraseIdx i }
  | .clearVote s m r => w.update s m (Sentinel.clearVote (w.sentinels s) m r)
  | .waitStart s m order =>
    let out := sentinelFailoverWaitStart (w.sentinels s) m order
    (w.update s m out.1).elect s m out.2
  | .abort s m => w.update s m (sentinelAbortFailover (w.sentinels s) m)
  | .reset s m => w.update s m (sentinelResetMaster (w.sentinels s) m)
  | .hello s m epoch => w.update s m (raiseEpoch (w.sentinels s) epoch)

def run (w : World Id Master) (actions : List (Action Id Master)) : World Id Master :=
  actions.foldl apply w

/-- Nothing was sent and nobody has a leader or a failover. -/
structure Start (w : World Id Master) : Prop where
  myid : ∀ n, (w.sentinels n).myid = n
  requests : w.requests = []
  replies : w.replies = []
  votes : w.votes = []
  elected : w.elected = []
  leader : ∀ n m, ((w.sentinels n).masters m).leader = none
  reported : ∀ n m r, (((w.sentinels n).masters m).sentinels r).leader = none
  failover : ∀ n m, ((w.sentinels n).masters m).failoverState = .none

/-- A Sentinel that waits for the start of a failover, and that the votes it holds elect, is
still in the epoch of this failover. -/
def Timely (w : World Id Master) : Action Id Master → Prop
  | .waitStart n m order =>
    let s := w.sentinels n
    (s.masters m).failoverState = .waitStart →
      (sentinelGetLeader s m (s.masters m).failoverEpoch order).2 = some s.myid →
        s.currentEpoch = (s.masters m).failoverEpoch
  | _ => True

/-- Every step of the run is timely. -/
def TimelyRun : World Id Master → List (Action Id Master) → Prop
  | _, [] => True
  | w, action :: rest => w.Timely action ∧ TimelyRun (w.apply action) rest

end World

end Redis.Sentinel
