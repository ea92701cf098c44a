import Redis.Cluster.Election
import Redis.Library.Simulation

/-! What a run of elections keeps. A master votes once in an epoch, in every run. Two
replicas are not elected in the same epoch, in runs without acknowledgements that come
between two elections of a replica and without masters that change while an epoch is
voted in. -/
namespace Redis.Cluster

open List Function

variable {Node : Type} [DecidableEq Node]
variable {e : Nat} {c c' v : Node}

/-- The part of a node's state that votes and elections are about. -/
structure Ballot where
  currentEpoch : Nat
  lastVoteEpoch : Nat
  sent : Bool
  count : Nat
  authEpoch : Nat

def ClusterState.ballot (s : ClusterState Node) : Ballot :=
  ⟨s.currentEpoch, s.lastVoteEpoch, s.failoverAuthSent, s.failoverAuthCount, s.failoverAuthEpoch⟩

variable {cfg : Config} {s s' : ClusterState Node} {masters : Finset Node} {N i : Nat}
  {w w' w₀ : World Node} {n dest : Node} {msg : ClusterMsg Node}
  {allowed : World Node → Action Node → Prop}

section Code

/-- How a packet changes the ballot of a node that handles it. -/
inductive Handled (masters : Finset Node) (s : ClusterState Node) (msg : ClusterMsg Node) :
    ClusterState Node → Option (ClusterMsg Node) → Prop where
  | quiet {s' : ClusterState Node} {epoch : Nat} (hself : s'.myself = s.myself)
      (hepoch : s.currentEpoch ≤ epoch)
      (hballot : s'.ballot = { s.ballot with currentEpoch := epoch }) : Handled masters s msg s' none
  | counted {s' : ClusterState Node} {epoch : Nat} (hself : s'.myself = s.myself)
      (hepoch : s.currentEpoch ≤ epoch) (htype : msg.type = .failoverAuthAck)
      (hcounts : countsAck s msg msg.currentEpoch)
      (hballot : s'.ballot = { s.ballot with currentEpoch := epoch, count := s.failoverAuthCount + 1 }) :
      Handled masters s msg s' none
  | voted {s' : ClusterState Node} {reply : Option (ClusterMsg Node)} (hself : s'.myself = s.myself)
      (htype : msg.type = .failoverAuthRequest) (hmaster : s.myself ∈ masters)
      (hepoch : s.currentEpoch ≤ msg.currentEpoch) (hnew : s.lastVoteEpoch ≠ msg.currentEpoch)
      (hballot : s'.ballot = { s.ballot with
        currentEpoch := msg.currentEpoch
        lastVoteEpoch := msg.currentEpoch })
      (hreply : ∀ ack ∈ reply, ack.type = .failoverAuthAck ∧ ack.sender = s.myself ∧
        ack.currentEpoch = msg.currentEpoch) : Handled masters s msg s' reply

theorem noteEpochs_node (s : ClusterState Node) (hdr : ClusterMsg Node) (n : Node) :
    ((noteEpochs s hdr).nodes n).isMaster = (s.nodes n).isMaster ∧
      ((noteEpochs s hdr).nodes n).numslots = (s.nodes n).numslots :=
  ⟨update_proj ClusterNode.isMaster (by rfl) n, update_proj ClusterNode.numslots (by rfl) n⟩

/-- Everything that `clusterProcessPacket` can do. -/
theorem clusterProcessPacket_handled (cfg : Config) (now : Int) (hknows : s.Knows masters)
    (msg : ClusterMsg Node) :
    ∃ s' reply, clusterProcessPacket cfg now s msg = (s', reply) ∧ Handled masters s msg s' reply := by
  refine ⟨_, _, Prod.mk.eta.symm, ?_⟩
  rw [clusterProcessPacket]
  split_ifs with hknown
  · exact .quiet rfl (le_refl _) rfl
  · simp only [hknows.handshake, Bool.false_eq_true, if_false]
    have hnode := noteEpochs_node s msg
    have hmax : s.currentEpoch ≤ max s.currentEpoch msg.currentEpoch := le_max_left _ _
    cases htype : msg.type with
    | other => exact .quiet rfl hmax rfl
    | failoverAuthAck =>
      split_ifs with hcounts
      · refine .counted rfl hmax htype ?_ rfl
        rw [countsAck, (hnode _).1, (hnode _).2] at hcounts
        exact hcounts
      · exact .quiet rfl hmax rfl
    | failoverAuthRequest =>
      dsimp only [clusterSendFailoverAuthIfNeeded]
      split_ifs with hme hepoch hlast
      · exact .quiet rfl hmax rfl
      · exact .quiet rfl hmax rfl
      · exact .quiet rfl hmax rfl
      have hsame : (noteEpochs s msg).currentEpoch = msg.currentEpoch :=
        Nat.le_antisymm (Nat.le_of_not_lt hepoch) (Nat.le_max_right _ _)
      have hslots : 0 < (s.nodes s.myself).numslots := by
        rw [← (hnode _).2]
        exact pos_of_ne_zero fun hzero => hme (.inr hzero)
      have hserves := (hknows.serves _).mp hslots
      rw [hsame] at hlast
      cases ((noteEpochs s msg).nodes msg.sender).slaveof with
      | none => exact .quiet rfl hmax rfl
      | some master =>
        dsimp only [voteFor]
        split_ifs
        · exact .quiet rfl hmax rfl
        · exact .quiet rfl hmax rfl
        · exact .quiet rfl hmax rfl
        all_goals
          refine .voted rfl htype hserves (hsame ▸ hmax) hlast ?_ fun ack hack => ?_
          · rw [← hsame]
            rfl
        · obtain rfl := Option.mem_some_iff.mp hack
          exact ⟨rfl, rfl, hsame⟩
        · exact absurd hack (Option.not_mem_none _)

/-- Everything that `clusterHandleSlaveFailover` can do. -/
inductive Attempted (s : ClusterState Node) :
    ClusterState Node → FailoverResult Node → Prop where
  | waits {s' : ClusterState Node} (hself : s'.myself = s.myself) (hballot : s'.ballot = s.ballot) :
      Attempted s s' .none
  | schedules {s' : ClusterState Node} (hself : s'.myself = s.myself)
      (hballot : s'.ballot = { s.ballot with sent := false, count := 0 }) : Attempted s s' .none
  | asks {s' : ClusterState Node} {msg : ClusterMsg Node} (hself : s'.myself = s.myself)
      (hsent : s.failoverAuthSent = false)
      (hballot : s'.ballot = { s.ballot with
        currentEpoch := s.currentEpoch + 1
        authEpoch := s.currentEpoch + 1
        sent := true })
      (htype : msg.type = .failoverAuthRequest) (hsender : msg.sender = s.myself)
      (hepoch : msg.currentEpoch = s.currentEpoch + 1) : Attempted s s' (.request msg)
  | wins {s' : ClusterState Node} (hself : s'.myself = s.myself) (hsent : s.failoverAuthSent = true)
      (hcount : s.size / 2 + 1 ≤ s.failoverAuthCount) (hballot : s'.ballot = s.ballot) :
      Attempted s s' .promoted

omit [DecidableEq Node] in
theorem delayElection_kept (inp : FailoverInput) (s : ClusterState Node) :
    (delayElection inp s).myself = s.myself ∧ (delayElection inp s).ballot = s.ballot ∧
      (delayElection inp s).size = s.size := by
  rw [delayElection]
  split_ifs
  · exact ⟨rfl, rfl, rfl⟩
  · exact ⟨rfl, rfl, rfl⟩

theorem runElection_attempted (s : ClusterState Node) (oldmaster : Node) :
    Attempted s (runElection s oldmaster).1 (runElection s oldmaster).2 := by
  rw [runElection]
  split_ifs with hsent hcount
  · exact .asks rfl hsent rfl rfl rfl rfl
  · exact .wins rfl (by simpa using hsent) hcount rfl
  · exact .waits rfl rfl

theorem clusterHandleSlaveFailover_attempted (cfg : Config) (inp : FailoverInput)
    (s : ClusterState Node) :
    ∃ s' result, clusterHandleSlaveFailover cfg inp s = (s', result) ∧ Attempted s s' result := by
  obtain ⟨hself, hballot, hsize⟩ := delayElection_kept inp s
  refine ⟨_, _, Prod.mk.eta.symm, ?_⟩
  rw [clusterHandleSlaveFailover]
  dsimp only
  split
  · exact .waits rfl rfl
  · rename_i oldmaster hslaveof
    split_ifs
    · exact .waits rfl rfl
    · exact .waits rfl rfl
    · rw [scheduleElection]
      split_ifs
      · exact .schedules rfl rfl
      · exact .schedules rfl rfl
    · exact .waits hself hballot
    · exact .waits hself hballot
    · -- the election runs in a state that differs in time and rank only
      have hfields := Ballot.mk.inj hballot
      have hrun := runElection_attempted (delayElection inp s) oldmaster
      generalize runElection (delayElection inp s) oldmaster = out at hrun
      obtain ⟨s', result⟩ := out
      cases hrun with
      | waits hself' hballot' => exact .waits (hself'.trans hself) (hballot'.trans hballot)
      | schedules hself' hballot' =>
        exact .schedules (hself'.trans hself) (by rw [hballot', hballot])
      | asks hself' hsent hballot' htype hsender hepoch =>
        refine .asks (hself'.trans hself) (hfields.2.2.1 ▸ hsent) ?_ htype (hsender.trans hself)
          (hfields.1 ▸ hepoch)
        rw [hballot', hballot, hfields.1]
      | wins hself' hsent hcount hballot' =>
        refine .wins (hself'.trans hself) (hfields.2.2.1 ▸ hsent) ?_ (hballot'.trans hballot)
        rw [← hsize, ← hfields.2.2.2.1]
        exact hcount

end Code

section Voting

/-- What holds of a node and the epochs it has saved: its last vote is saved, and it knows of no
earlier epoch than what is saved. -/
structure Persists (n : Node) (s : ClusterState Node) (saved : Nat × Nat) : Prop where
  myself : s.myself = n
  vote : saved.2 = s.lastVoteEpoch
  vote_le : saved.2 ≤ saved.1
  saved_le : saved.1 ≤ s.currentEpoch

omit [DecidableEq Node] in
theorem Persists.last_le {saved : Nat × Nat} (h : Persists n s saved) :
    s.lastVoteEpoch ≤ s.currentEpoch :=
  h.vote ▸ h.vote_le.trans h.saved_le

namespace World

/-- What holds of the votes in every run: they are saved, a master has voted in no epoch
above its last one, and in no epoch twice. -/
structure Votes (w : World Node) : Prop where
  node : ∀ n, Persists n (w.servers n) (w.saved n)
  ack_le : ∀ v e c, (v, e, c) ∈ w.acks → e ≤ (w.servers v).lastVoteEpoch
  once : (w.acks.map fun a => (a.1, a.2.1)).Nodup

theorem setServer_servers (w : World Node) (n : Node) (s : ClusterState Node) (k : Node) :
    (w.setServer n s).servers k = if k = n then s else w.servers k := update_apply ..

theorem save_saved (w : World Node) (n k : Node) : (w.save n).saved k =
    if k = n then ((w.servers n).currentEpoch, (w.servers n).lastVoteEpoch) else w.saved k :=
  update_apply ..

section

variable (h : w.Votes)
include h

/-- One node changes, and what it has saved. -/
theorem Votes.change {p : Nat × Nat} (hnode : Persists n s p)
    (hmono : (w.servers n).lastVoteEpoch ≤ s.lastVoteEpoch) :
    Votes { w with
      servers := update w.servers n s
      saved := update w.saved n p } := by
  refine ⟨fun k => ?_, fun v e c hmem => ?_, h.once⟩
  all_goals simp only [update_apply]
  · split_ifs with hk
    · exact hk ▸ hnode
    · exact h.node k
  · have hold := h.ack_le v e c hmem
    split_ifs with hk
    · exact (hk ▸ hold).trans hmono
    · exact hold

/-- One node changes, and votes in nothing. -/
theorem Votes.setServer (hself : s.myself = n)
    (hvote : s.lastVoteEpoch = (w.servers n).lastVoteEpoch) (hle : (w.saved n).1 ≤ s.currentEpoch) :
    (w.setServer n s).Votes := by
  have hnode := h.node n
  have hchange := h.change ⟨hself, hnode.vote.trans hvote.symm, hnode.vote_le, hle⟩ hvote.ge
  rwa [update_eq_self] at hchange

theorem Votes.save (n : Node) : (w.save n).Votes := by
  have hchange := h.change (p := ((w.servers n).currentEpoch, (w.servers n).lastVoteEpoch))
    ⟨(h.node n).myself, rfl, (h.node n).last_le, le_refl _⟩ (le_refl _)
  rwa [update_eq_self] at hchange

/-- A vote in an epoch above the last one, saved at once. -/
theorem Votes.vote (hself : s.myself = n)
    (hnew : (w.servers n).lastVoteEpoch < s.lastVoteEpoch) (hepoch : s.currentEpoch = s.lastVoteEpoch) :
    ((w.setServer n s).save n).Votes ∧
      ∀ c, (((n, s.lastVoteEpoch, c) :: w.acks).map fun a => (a.1, a.2.1)).Nodup := by
  constructor
  · have hchange := h.change (p := (s.currentEpoch, s.lastVoteEpoch))
      ⟨hself, rfl, hepoch.ge, le_refl _⟩ hnew.le
    rwa [World.save, setServer_servers, if_pos rfl]
  · intro c
    rw [map_cons, nodup_cons]
    refine ⟨fun hmem => ?_, h.once⟩
    obtain ⟨⟨v, e, c'⟩, hack, heq⟩ := mem_map.mp hmem
    obtain ⟨hv, he⟩ := Prod.mk.inj heq
    dsimp only at hv he
    have hle := h.ack_le v e c' hack
    rw [hv] at hle
    omega

omit [DecidableEq Node] in
theorem Votes.of_network (network : List (Node × ClusterMsg Node)) :
    Votes { w with network := network } :=
  ⟨h.node, h.ack_le, h.once⟩

/-- A packet changes the node that handles it, which votes at most once and saves its vote. -/
theorem Votes.process (hknown : w.Known N) (now : Int) (dest : Node)
    (msg : ClusterMsg Node) : (w.process cfg now dest msg).Votes := by
  obtain ⟨s, reply, hprocess, hhandled⟩ :=
    clusterProcessPacket_handled cfg now (hknown.knows dest) msg
  have hnode := h.node dest
  have hlast := hnode.last_le
  simp only [World.process, hprocess]
  cases hhandled with
  | quiet hself hepoch hballot | counted hself hepoch htype hcounts hballot =>
    have hfields := Ballot.mk.inj hballot
    rw [World.answer, if_neg fun hne => hne hfields.2.1]
    exact h.setServer (hself.trans hnode.myself) hfields.2.1
      (hnode.saved_le.trans (hfields.1 ▸ hepoch))
  | voted hself htype hmaster hepoch hnew hballot hreply =>
    have hfields := Ballot.mk.inj hballot
    obtain ⟨hvotes, honce⟩ := h.vote (s := s) (hself.trans hnode.myself)
      (by rw [hfields.2.1]; omega) (hfields.1.trans hfields.2.1.symm)
    cases reply with
    | none =>
      rw [World.answer, if_pos (by rw [hfields.2.1]; exact hnew.symm)]
      exact hvotes
    | some ack =>
      obtain ⟨-, -, hack⟩ := hreply ack rfl
      have hsame : ack.currentEpoch = s.lastVoteEpoch := hack.trans hfields.2.1.symm
      refine ⟨hvotes.node, ?_, ?_⟩
      · intro v e c hmem
        rcases mem_cons.mp hmem with heq | hmem
        · simp only [Prod.mk.injEq] at heq
          rw [heq.1, heq.2.1, hsame]
          exact (congrArg ClusterState.lastVoteEpoch (update_self dest s w.servers)).ge
        · exact hvotes.ack_le v e c hmem
      · simp only [World.answer, hsame]
        exact honce _

omit [DecidableEq Node] in
theorem Votes.of_views (servers : Node → ClusterState Node)
    (hservers : ∀ n, (servers n).myself = (w.servers n).myself ∧
    (servers n).ballot = (w.servers n).ballot) (masters : Finset Node) (elected : List (Node × Nat)) :
    Votes { w with servers := servers, masters := masters, elected := elected } := by
  have hvote : ∀ n, (servers n).lastVoteEpoch = (w.servers n).lastVoteEpoch :=
    fun n => (Ballot.mk.inj (hservers n).2).2.1
  refine ⟨fun n => ?_, fun v e c hmem => (h.ack_le v e c hmem).trans (hvote v).ge, h.once⟩
  obtain ⟨hself, hsaved, hle, hepoch⟩ := h.node n
  exact ⟨(hservers n).1.trans hself, hsaved.trans (hvote n).symm, hle,
    hepoch.trans (Ballot.mk.inj (hservers n).2).1.ge⟩

theorem Votes.apply (hknown : w.Known N) (a : Action Node) : (w.apply cfg a).Votes := by
  cases a with
  | deliver i now =>
    simp only [World.apply]
    cases w.network[i]? with
    | none => exact h
    | some packet =>
      have hrest := h.of_network (w.network.eraseIdx i)
      exact hrest.process (N := N) ⟨hknown.card, hknown.knows⟩ now packet.1 packet.2
  | lose i | gossip n dests => exact h.of_network _
  | save n => exact h.save n
  | bumpEpoch n =>
    exact h.setServer (h.node n).myself rfl ((h.node n).saved_le.trans (Nat.le_succ _))
  | restart n epoch view => exact h.setServer rfl (h.node n).vote (le_max_left _ _)
  | learn views masters =>
    exact h.of_views (fun k => { w.servers k with toView := views k })
      (fun n => ⟨rfl, rfl⟩) masters w.elected
  | failover n inp dests views =>
    obtain ⟨s, result, hfailover, hattempt⟩ :=
      clusterHandleSlaveFailover_attempted cfg inp (w.servers n)
    simp only [World.apply, hfailover]
    cases hattempt with
    | waits hself hballot | schedules hself hballot =>
      have hfields := Ballot.mk.inj hballot
      exact h.setServer (hself.trans (h.node n).myself) hfields.2.1 (hfields.1 ▸ (h.node n).saved_le)
    | asks hself hsent hballot htype hsender hepoch =>
      have hfields := Ballot.mk.inj hballot
      have hset := h.setServer (hself.trans (h.node n).myself) hfields.2.1
        (hfields.1 ▸ (h.node n).saved_le.trans (Nat.le_succ _))
      exact (hset.save n).of_network _
    | wins hself hsent hcount hballot =>
      refine h.of_views _ (fun k => ?_) _ _
      rw [update_apply]
      split_ifs with hk
      · rw [hk]
        exact ⟨hself, hballot⟩
      · exact ⟨rfl, rfl⟩

end

omit [DecidableEq Node] in
theorem Initial.votes (h : w.Initial) : w.Votes :=
  ⟨fun n => ⟨(h.server n).1, (h.epochs n).1, (h.epochs n).2.1, (h.epochs n).2.2⟩,
    fun v e c hmem => by simp [h.acks] at hmem, by simp [h.acks]⟩

end World

theorem Reaches.known (h : Reaches cfg N allowed w₀ w) : w.Known N := by
  cases h with
  | start hknown | step _ _ hknown => exact hknown

theorem Reaches.votes (hinit : w₀.Initial) (h : Reaches cfg N allowed w₀ w) : w.Votes := by
  induction h with
  | start => exact hinit.votes
  | step prior _ _ ih => exact ih.apply prior.known _

end Voting

section Counting

/-- The election of a node is as it was, or there is none any more. -/
def SameElection (s s' : ClusterState Node) : Prop :=
  s'.failoverAuthSent = s.failoverAuthSent ∧ s'.failoverAuthCount = s.failoverAuthCount ∧
    s'.failoverAuthEpoch = s.failoverAuthEpoch ∨
  s'.failoverAuthSent = false ∧ s'.failoverAuthCount = 0

omit [DecidableEq Node] in
theorem SameElection.refl (s : ClusterState Node) : SameElection s s := .inl ⟨rfl, rfl, rfl⟩

omit [DecidableEq Node] in
theorem SameElection.sent (h : SameElection s s') (hsent : s'.failoverAuthSent = true) :
    s.failoverAuthSent = true ∧ s'.failoverAuthCount = s.failoverAuthCount ∧
      s'.failoverAuthEpoch = s.failoverAuthEpoch := by
  rcases h with ⟨hs, hc, he⟩ | ⟨hs, -⟩
  · exact ⟨hs ▸ hsent, hc, he⟩
  · simp [hs] at hsent

theorem exists_erased {α : Type} {l : List α} {i : Nat} {x : α} (h : l[i]? = some x) :
    ∃ A B, l = A ++ x :: B ∧ l.eraseIdx i = A ++ B := by
  obtain ⟨hi, rfl⟩ := List.getElem?_eq_some_iff.mp h
  exact ⟨l.take i, l.drop (i + 1), by simp, eraseIdx_eq_take_drop_succ ..⟩

omit [DecidableEq Node] in
theorem mem_sent {net : List (Node × ClusterMsg Node)} {dests : List Node} {p : Node × ClusterMsg Node}
    (hp : p ∈ net ++ dests.map (·, msg)) : p ∈ net ∨ p.2 = msg := by
  rcases mem_append.mp hp with hp | hp
  · exact .inl hp
  · obtain ⟨d, -, rfl⟩ := mem_map.mp hp
    exact .inr rfl

/-- The condition on a run. An acknowledgement that counts comes to a node whose request is
out, not to one that has scheduled a new election; and when a master is asked for a vote,
those that voted in this epoch before are still masters. -/
def Timely (w : World Node) : Action Node → Prop
  | .deliver i _ => ∀ dest msg, w.network[i]? = some (dest, msg) →
      (msg.type = .failoverAuthAck → countsAck (w.servers dest) msg msg.currentEpoch →
        (w.servers dest).failoverAuthSent = true) ∧
      (msg.type = .failoverAuthRequest → ∀ v c, (v, msg.currentEpoch, c) ∈ w.acks → v ∈ w.masters)
  | _ => True

namespace World

/-- Acknowledgements of an epoch on their way to a node. -/
def inFlight (w : World Node) (c : Node) (e : Nat) : Nat :=
  w.network.countP fun p => p.1 = c ∧ p.2.type = .failoverAuthAck ∧ p.2.currentEpoch = e

/-- The votes for a node in an epoch. -/
def votesFor (w : World Node) (c : Node) (e : Nat) : Nat :=
  w.acks.countP fun a => a.2.1 = e ∧ a.2.2 = c

def votesIn (w : World Node) (e : Nat) : Nat := w.acks.countP fun a => a.2.1 = e

/-- A node has asked for votes in an epoch: it has saved no earlier one, and if its request is
out, that is not of an earlier one. -/
def Asked (w : World Node) (c : Node) (e : Nat) : Prop :=
  e ≤ (w.saved c).1 ∧
    ((w.servers c).failoverAuthSent = true → e ≤ (w.servers c).failoverAuthEpoch)

/-- What holds of packets and counts as long as no acknowledgement is late: a node whose
request is out has counted acknowledgements of this election only, each of them once. -/
structure Counts (N : Nat) (w : World Node) : Prop where
  request : ∀ p ∈ w.network, p.2.type = .failoverAuthRequest → w.Asked p.2.sender p.2.currentEpoch
  ack_vote : ∀ p ∈ w.network, p.2.type = .failoverAuthAck →
    (p.2.sender, p.2.currentEpoch, p.1) ∈ w.acks
  vote : ∀ v e c, (v, e, c) ∈ w.acks → w.Asked c e
  idle : ∀ c, (w.servers c).failoverAuthSent = false → (w.servers c).failoverAuthCount = 0
  counted : ∀ c, (w.servers c).failoverAuthSent = true →
    (w.servers c).failoverAuthCount + w.inFlight c (w.servers c).failoverAuthEpoch ≤
      w.votesFor c (w.servers c).failoverAuthEpoch
  bound : ∀ e, w.votesIn e ≤ N
  majority : ∀ c e, (c, e) ∈ w.elected → N / 2 + 1 ≤ w.votesFor c e

theorem setServer_same (hsame : SameElection (w.servers n) s) (c : Node) :
    SameElection (w.servers c) ((w.setServer n s).servers c) := by
  rw [setServer_servers]
  split_ifs with hc
  · exact hc ▸ hsame
  · exact SameElection.refl _

theorem le_save (hle : (w.saved n).1 ≤ (w.servers n).currentEpoch) (c : Node) :
    (w.saved c).1 ≤ ((w.save n).saved c).1 := by
  rw [save_saved]
  split_ifs with hc
  · exact hc ▸ hle
  · exact le_refl _

omit [DecidableEq Node] in
theorem Asked.mono (h : w.Asked c e) (hsaved : (w.saved c).1 ≤ (w'.saved c).1)
    (hsame : SameElection (w.servers c) (w'.servers c)) : w'.Asked c e := by
  refine ⟨h.1.trans hsaved, fun hsent => ?_⟩
  obtain ⟨hs, -, he⟩ := hsame.sent hsent
  exact he ▸ h.2 hs

section

variable (h : w.Counts N)
include h

/-- Steps that send no request, no acknowledgement and count none. -/
theorem Counts.quiet (hacks : w'.acks = w.acks)
    (helected : w'.elected = w.elected) (hnet : ∀ p ∈ w'.network, p ∈ w.network ∨ p.2.type = .other)
    (hflight : ∀ c e, w'.inFlight c e ≤ w.inFlight c e) (hsaved : ∀ c, (w.saved c).1 ≤ (w'.saved c).1)
    (hsame : ∀ c, SameElection (w.servers c) (w'.servers c)) : w'.Counts N := by
  have hold : ∀ p ∈ w'.network, p.2.type ≠ .other → p ∈ w.network := fun p hp hne =>
    (hnet p hp).resolve_right hne
  refine ⟨fun p hp htype => ?_, fun p hp htype => ?_, fun v e c hmem => ?_, fun c hsent => ?_,
    fun c hsent => ?_, fun e => ?_, fun c e hmem => ?_⟩
  · exact (h.request p (hold p hp (by simp [htype])) htype).mono (hsaved _) (hsame _)
  · exact hacks ▸ h.ack_vote p (hold p hp (by simp [htype])) htype
  · exact (h.vote v e c (hacks ▸ hmem)).mono (hsaved c) (hsame c)
  · rcases hsame c with ⟨hs, hc, -⟩ | ⟨-, hc⟩
    · exact hc.trans (h.idle c (hs ▸ hsent))
    · exact hc
  · obtain ⟨hs, hc, he⟩ := (hsame c).sent hsent
    have hcounted := h.counted c hs
    have hle := hflight c (w.servers c).failoverAuthEpoch
    rw [votesFor, hacks, hc, he]
    rw [votesFor] at hcounted
    omega
  · rw [votesIn, hacks]
    exact h.bound e
  · rw [votesFor, hacks]
    exact h.majority c e (helected ▸ hmem)

/-- The nodes change, and their elections do not. -/
theorem Counts.of_servers (servers : Node → ClusterState Node) (masters : Finset Node)
    (hsame : ∀ c, SameElection (w.servers c) (servers c)) :
    Counts N { w with servers := servers, masters := masters } :=
  h.quiet rfl rfl (fun _ hp => .inl hp) (fun _ _ => le_refl _) (fun _ => le_refl _) hsame

theorem Counts.setServer (hsame : SameElection (w.servers n) s) : (w.setServer n s).Counts N :=
  h.of_servers _ _ (setServer_same hsame)

theorem Counts.save
    (hle : (w.saved n).1 ≤ (w.servers n).currentEpoch) : (w.save n).Counts N :=
  h.quiet rfl rfl (fun _ hp => .inl hp) (fun _ _ => le_refl _) (le_save hle)
    fun _ => SameElection.refl _

/-- A packet is gone. -/
theorem Counts.erase (i : Nat) :
    Counts N { w with network := w.network.eraseIdx i } := by
  have hsub := eraseIdx_sublist w.network i
  exact h.quiet rfl rfl (fun p hp => .inl (hsub.subset hp)) (fun c e => hsub.countP_le)
    (fun c => le_refl _) fun c => SameElection.refl _

/-- A vote, and the acknowledgement for it. -/
theorem Counts.addVote {ack : ClusterMsg Node}
    (htype : ack.type = .failoverAuthAck) (hsender : ack.sender = v)
    (hasked : w.Asked c ack.currentEpoch) (hbound : w.votesIn ack.currentEpoch + 1 ≤ N) :
    Counts N { w with
      network := w.network ++ [(c, ack)]
      acks := (v, ack.currentEpoch, c) :: w.acks } := by
  have hnet : ∀ p ∈ w.network ++ [(c, ack)], p.2.type = .failoverAuthRequest → p ∈ w.network := by
    intro p hp hreq
    rcases mem_append.mp hp with hp | hp
    · exact hp
    · rw [mem_singleton.mp hp, htype] at hreq
      exact MsgType.noConfusion hreq
  refine ⟨fun p hp hreq => h.request p (hnet p hp hreq) hreq, fun p hp hack => ?_,
    fun v' e c' hmem => ?_, h.idle, fun c' hsent => ?_, fun e => ?_, fun c' e hmem => ?_⟩
  · rcases mem_append.mp hp with hp | hp
    · exact mem_cons_of_mem _ (h.ack_vote p hp hack)
    · rw [mem_singleton.mp hp, hsender]
      exact mem_cons_self ..
  · rcases mem_cons.mp hmem with heq | hmem
    · simp only [Prod.mk.injEq] at heq
      rw [heq.2.1, heq.2.2]
      exact hasked
    · exact h.vote v' e c' hmem
  · -- the same election gains a vote and a packet, or neither
    have hcounted := h.counted c' hsent
    simp only [inFlight, votesFor, countP_append, countP_cons,
      countP_nil, htype, true_and] at hcounted ⊢
    by_cases hthis : c = c' ∧ ack.currentEpoch = (w.servers c').failoverAuthEpoch
    · simp only [hthis, and_self, decide_true, if_true]
      omega
    · have hother : ¬(ack.currentEpoch = (w.servers c').failoverAuthEpoch ∧ c = c') :=
        fun hand => hthis ⟨hand.2, hand.1⟩
      simp only [hthis, hother, decide_false, Bool.false_eq_true, if_false]
      omega
  · have hold := h.bound e
    simp only [votesIn, countP_cons] at hold hbound ⊢
    by_cases he : ack.currentEpoch = e
    · simpa [he] using hbound
    · simpa [he] using hold
  · refine (h.majority c' e hmem).trans ?_
    exact (sublist_cons_self ..).countP_le

/-- An acknowledgement is counted by a node whose request is out. -/
theorem Counts.countOne
    (hpacket : w.network[i]? = some (dest, msg)) (htype : msg.type = .failoverAuthAck)
    (hsent : (w.servers dest).failoverAuthSent = true)
    (hepoch : (w.servers dest).failoverAuthEpoch ≤ msg.currentEpoch)
    (hs : s.failoverAuthSent = true) (hc : s.failoverAuthCount = (w.servers dest).failoverAuthCount + 1)
    (he : s.failoverAuthEpoch = (w.servers dest).failoverAuthEpoch) :
    (World.setServer { w with network := w.network.eraseIdx i } dest s).Counts N := by
  obtain ⟨A, B, hsplit, herase⟩ := exists_erased hpacket
  have hmem : (dest, msg) ∈ w.network := by simp [hsplit]
  have hsame : msg.currentEpoch = (w.servers dest).failoverAuthEpoch :=
    le_antisymm ((h.vote _ _ _ (h.ack_vote _ hmem htype)).2 hsent) hepoch
  have hsub : ∀ p ∈ w.network.eraseIdx i, p ∈ w.network := fun p hp =>
    (eraseIdx_sublist w.network i).subset hp
  have hasked : ∀ {c e}, w.Asked c e →
      (World.setServer { w with network := w.network.eraseIdx i } dest s).Asked c e := by
    intro c e hask
    refine ⟨hask.1, ?_⟩
    rw [setServer_servers]
    split_ifs with hk
    · exact fun _ => he ▸ (hk ▸ hask).2 hsent
    · exact hask.2
  refine ⟨fun p hp hreq => hasked (h.request p (hsub p hp) hreq), fun p hp => h.ack_vote p (hsub p hp),
    fun v e c hack => hasked (h.vote v e c hack), fun c => ?_, fun c => ?_, h.bound, h.majority⟩
  · rw [setServer_servers]
    split_ifs with hk
    · simp [hs]
    · exact h.idle c
  · rw [setServer_servers]
    have hold := h.counted c
    simp only [inFlight, votesFor, World.setServer, herase] at hold ⊢
    rw [hsplit] at hold
    split_ifs with hk
    · intro _
      have hdest := hold (hk ▸ hsent)
      rw [hk] at hdest ⊢
      simp only [countP_append, countP_cons, htype, hsame, and_self, decide_true,
        if_true] at hdest
      rw [hc, he, countP_append]
      omega
    · intro hsent'
      refine (Nat.add_le_add_left ?_ _).trans (hold hsent')
      exact ((sublist_append_right [(dest, msg)] B).append_left A).countP_le

omit h in
/-- Other packets than acknowledgements are sent. -/
theorem inFlight_sent {dests : List Node} (hnet : w'.network = w.network ++ dests.map (·, msg))
    (htype : msg.type ≠ .failoverAuthAck) (c : Node) (e : Nat) : w'.inFlight c e = w.inFlight c e := by
  rw [inFlight, hnet, countP_append, inFlight, Nat.add_eq_left, countP_eq_zero]
  intro p hp
  obtain ⟨d, -, rfl⟩ := mem_map.mp hp
  simp [htype]

/-- A node asks for votes in an epoch that was not used before. -/
theorem Counts.ask (hvotes : w.Votes) (dests : List Node)
    (hsent : (w.servers n).failoverAuthSent = false)
    (hepoch : s.currentEpoch = (w.servers n).currentEpoch + 1)
    (hauth : s.failoverAuthEpoch = (w.servers n).currentEpoch + 1)
    (hcount : s.failoverAuthCount = (w.servers n).failoverAuthCount)
    (htype : msg.type = .failoverAuthRequest) (hsender : msg.sender = n)
    (hmsg : msg.currentEpoch = (w.servers n).currentEpoch + 1) :
    Counts N { (w.setServer n s).save n with network := w.network ++ dests.map (·, msg) } := by
  have hserver : ∀ k, ((w.setServer n s).save n).servers k = if k = n then s else w.servers k :=
    w.setServer_servers n s
  have hle := (hvotes.node n).saved_le
  have hmono : ∀ k, (w.saved k).1 ≤ (((w.setServer n s).save n).saved k).1 := by
    apply le_save (w := w.setServer n s)
    rw [setServer_servers, if_pos rfl, hepoch]
    exact hle.trans (Nat.le_succ _)
  have hasked : ∀ {c e}, w.Asked c e →
      Asked { (w.setServer n s).save n with network := w.network ++ dests.map (·, msg) } c e := by
    intro c e hask
    refine ⟨hask.1.trans (hmono c), ?_⟩
    rw [hserver]
    split_ifs with hk
    · intro _
      rw [hauth]
      exact (hk ▸ hask).1.trans (hle.trans (Nat.le_succ _))
    · exact hask.2
  have hflight := @inFlight_sent _ _ w { (w.setServer n s).save n with
    network := w.network ++ dests.map (·, msg) } msg dests rfl (by simp [htype])
  refine ⟨fun p hp hreq => ?_, fun p hp hack => ?_, fun v e c hmem => hasked (h.vote v e c hmem),
    fun c => ?_, fun c => ?_, h.bound, h.majority⟩
  · rcases mem_sent hp with hold | hnew
    · exact hasked (h.request p hold hreq)
    · rw [hnew, hsender, hmsg, Asked, hserver, save_saved, setServer_servers,
        if_pos rfl, if_pos rfl, hepoch, hauth]
      exact ⟨le_refl _, fun _ => le_refl _⟩
  · rcases mem_sent hp with hold | hnew
    · exact h.ack_vote p hold hack
    · rw [hnew, htype] at hack
      exact MsgType.noConfusion hack
  · rw [hserver]
    split_ifs with hk
    · exact fun _ => hcount.trans (h.idle n hsent)
    · exact h.idle c
  · rw [hserver, hflight]
    split_ifs with hk
    · -- nothing was sent to the node in the new epoch
      intro _
      have hnone : w.inFlight n s.failoverAuthEpoch = 0 := by
        rw [inFlight, countP_eq_zero]
        intro p hp hall
        simp only [decide_eq_true_eq] at hall
        have hsave := (h.vote _ _ _ (h.ack_vote p hp hall.2.1)).1
        rw [hall.1, hall.2.2, hauth] at hsave
        omega
      rw [hk, hcount, h.idle n hsent, hnone]
      exact Nat.zero_le _
    · exact h.counted c

omit h in
/-- The votes of an epoch come from different masters. -/
theorem votesIn_lt
    (hnew : (((v, e, c) :: w.acks).map fun a => (a.1, a.2.1)).Nodup) (hv : v ∈ w.masters)
    (hmasters : ∀ v c, (v, e, c) ∈ w.acks → v ∈ w.masters) : w.votesIn e + 1 ≤ w.masters.card := by
  let voters := (((v, e, c) :: w.acks).filter fun a => a.2.1 = e).map Prod.fst
  have hnodup : voters.Nodup := by
    have hfilter : ((((v, e, c) :: w.acks).filter fun a => a.2.1 = e).map
        fun a => (a.1, a.2.1)).Nodup := hnew.sublist (filter_sublist.map _)
    refine List.Nodup.of_map (fun n => (n, e)) ?_
    rw [map_map]
    convert hfilter using 1
    refine map_congr_left fun a ha => ?_
    have he : a.2.1 = e := by simpa using (mem_filter.mp ha).2
    simp [he]
  have hsub : voters.toFinset ⊆ w.masters := by
    intro n hn
    obtain ⟨⟨v', e', c'⟩, hmem, rfl⟩ := mem_map.mp (mem_toFinset.mp hn)
    obtain ⟨hmem, he⟩ := mem_filter.mp hmem
    obtain rfl : e' = e := by simpa using he
    rcases mem_cons.mp hmem with heq | hmem
    · rw [(Prod.mk.inj heq).1]
      exact hv
    · exact hmasters v' c' hmem
  have hcard := Finset.card_le_card hsub
  rw [toFinset_card_of_nodup hnodup, length_map, ← countP_eq_length_filter,
    countP_cons_of_pos (by simp)] at hcard
  exact hcard

/-- A timely packet is counted at most once, and only for the epoch that the node asked for. -/
theorem Counts.deliver (hvotes : w.Votes) (hknown : w.Known N)
    (hpacket : w.network[i]? = some (dest, msg)) (now : Int) (htimely : Timely w (.deliver i now)) :
    (World.process cfg { w with network := w.network.eraseIdx i } now dest msg).Counts N := by
  obtain ⟨s, reply, hprocess, hhandled⟩ :=
    clusterProcessPacket_handled cfg now (hknown.knows dest) msg
  obtain ⟨htimelyAck, htimelyVote⟩ := htimely dest msg hpacket
  have hmem : (dest, msg) ∈ w.network := mem_of_getElem? hpacket
  have hrest := h.erase i
  have hrestVotes := hvotes.of_network (w.network.eraseIdx i)
  simp only [World.process, hprocess]
  cases hhandled with
  | quiet hself hepoch hballot =>
    have hfields := Ballot.mk.inj hballot
    rw [World.answer, if_neg fun hne => hne hfields.2.1]
    exact hrest.setServer (.inl hfields.2.2)
  | counted hself hepoch htype hcounts hballot =>
    have hfields := Ballot.mk.inj hballot
    have hsent := htimelyAck htype hcounts
    rw [World.answer, if_neg fun hne => hne hfields.2.1]
    exact h.countOne hpacket htype hsent hcounts.2.2 (hfields.2.2.1.trans hsent) hfields.2.2.2.1
      hfields.2.2.2.2
  | voted hself htype hmaster hepoch hnew hballot hreply =>
    have hfields := Ballot.mk.inj hballot
    have hsame : SameElection (w.servers dest) s := .inl hfields.2.2
    have hnode := hvotes.node dest
    have hsaved : (w.saved dest).1 ≤ ((w.setServer dest s).servers dest).currentEpoch := by
      rw [setServer_servers, if_pos rfl]
      exact hnode.saved_le.trans (hepoch.trans (hfields.1 : s.currentEpoch = _).ge)
    have hlast : (w.servers dest).lastVoteEpoch < s.lastVoteEpoch := by
      have hle := hnode.last_le
      rw [hfields.2.1]
      omega
    obtain ⟨-, honce⟩ := hrestVotes.vote (hself.trans hnode.myself) hlast
      (hfields.1.trans hfields.2.1.symm)
    have hset := (hrest.setServer hsame).save hsaved
    cases reply with
    | none =>
      rw [World.answer, if_pos (by rw [hfields.2.1]; exact hnew.symm)]
      exact hset
    | some ack =>
      obtain ⟨hacktype, hacksender, hackepoch⟩ := hreply ack rfl
      have hbound := votesIn_lt (honce msg.sender) (hnode.myself ▸ hmaster)
        fun v c hack => htimelyVote htype v c ((hfields.2.1 : s.lastVoteEpoch = _) ▸ hack)
      refine hset.addVote hacktype (hacksender.trans hnode.myself) ?_ ?_
      · rw [hackepoch]
        exact (h.request _ hmem htype).mono (le_save (w := w.setServer dest s) hsaved _)
          (setServer_same hsame _)
      · rw [hackepoch, ← (hfields.2.1 : s.lastVoteEpoch = _), ← hknown.card]
        exact hbound

theorem Counts.apply (hvotes : w.Votes) (hknown : w.Known N) {a : Action Node}
    (htimely : Timely w a) : (w.apply cfg a).Counts N := by
  cases a with
  | deliver i now =>
    simp only [World.apply]
    cases hpacket : w.network[i]? with
    | none => exact h
    | some packet => exact h.deliver hvotes hknown hpacket now htimely
  | lose i => exact h.erase i
  | gossip n dests =>
    refine h.quiet rfl rfl (fun p hp => ?_) (fun c e => ?_) (fun c => le_refl _)
      fun c => SameElection.refl _
    · exact (mem_sent hp).imp_right fun heq => congrArg ClusterMsg.type heq
    · exact (inFlight_sent rfl (by simp [clusterBuildMessageHdr]) c e).le
  | save n => exact h.save (hvotes.node n).saved_le
  | bumpEpoch n => exact h.setServer (.inl ⟨rfl, rfl, rfl⟩)
  | restart n epoch view => exact h.setServer (.inr ⟨rfl, rfl⟩)
  | learn views masters =>
    exact h.of_servers (fun k => { w.servers k with toView := views k }) masters
      fun n => .inl ⟨rfl, rfl, rfl⟩
  | failover n inp dests views =>
    obtain ⟨s, result, hfailover, hattempt⟩ :=
      clusterHandleSlaveFailover_attempted cfg inp (w.servers n)
    simp only [World.apply, hfailover]
    cases hattempt with
    | waits hself hballot => exact h.setServer (.inl (Ballot.mk.inj hballot).2.2)
    | schedules hself hballot =>
      have hfields := Ballot.mk.inj hballot
      exact h.setServer (.inr ⟨hfields.2.2.1, hfields.2.2.2.1⟩)
    | asks hself hsent hballot htype hsender hepoch =>
      have hfields := Ballot.mk.inj hballot
      exact h.ask hvotes dests hsent hfields.1 hfields.2.2.2.2 hfields.2.2.2.1 htype
        (hsender.trans (hvotes.node n).myself) hepoch
    | wins hself hsent hcount hballot =>
      have hfields := Ballot.mk.inj hballot
      have hcounts := h.of_servers (update (fun k => { w.servers k with toView := views k }) n s)
        w.masters (by
        intro k
        rw [update_apply]
        split_ifs with hk
        · exact hk ▸ .inl hfields.2.2
        · exact .inl ⟨rfl, rfl, rfl⟩)
      refine ⟨hcounts.request, hcounts.ack_vote, hcounts.vote, hcounts.idle, hcounts.counted,
        hcounts.bound, fun c e hmem => ?_⟩
      rcases mem_cons.mp hmem with heq | hmem
      · -- the node has counted a majority, and every vote that it counted was cast
        simp only [Prod.mk.injEq] at heq
        have hcounted := h.counted n hsent
        rw [(hknown.knows n).size, hknown.card] at hcount
        rw [heq.1, heq.2, hfields.2.2.2.2]
        exact hcount.trans ((Nat.le_add_right _ _).trans hcounted)
      · exact h.majority c e hmem

end

theorem Initial.counts (h : w.Initial) : w.Counts N where
  request := by simp [h.network]
  ack_vote := by simp [h.network]
  vote := by simp [h.acks]
  idle c _ := (h.server c).2.2
  counted := by simp [(h.server _).2.1]
  bound := by simp [votesIn, h.acks]
  majority := by simp [h.elected]

end World

theorem Reaches.counts (hinit : w₀.Initial) (h : Reaches cfg N Timely w₀ w) : w.Counts N := by
  induction h with
  | start => exact hinit.counts
  | step prior htimely _ ih => exact ih.apply (prior.votes hinit) prior.known htimely

end Counting

section Safety

variable [Fintype Node]

instance (v : View Node) (masters : Finset Node) : Decidable (v.Knows masters) :=
  decidable_of_iff (v.size = masters.card ∧ (∀ n, 0 < (v.nodes n).numslots ↔ n ∈ masters) ∧
      (∀ n ∈ masters, (v.nodes n).isMaster = true) ∧ ∀ n, (v.nodes n).handshake = false)
    ⟨fun h => ⟨h.1, h.2.1, h.2.2.1, h.2.2.2⟩, fun h => ⟨h.size, h.serves, h.isMaster, h.handshake⟩⟩

instance (N : Nat) (w : World Node) : Decidable (w.Known N) :=
  decidable_of_iff (w.masters.card = N ∧ ∀ n, (w.servers n).Knows w.masters)
    ⟨fun h => ⟨h.1, h.2⟩, fun h => ⟨h.card, h.knows⟩⟩

instance (w : World Node) (a : Action Node) : Decidable (Timely w a) :=
  match a with
  | .deliver i _ =>
    match h : w.network[i]? with
    | none => isTrue fun _ _ hmsg => absurd (h.symm.trans hmsg) (by simp)
    | some (dest, msg) =>
      decidable_of_iff ((msg.type = .failoverAuthAck → countsAck (w.servers dest) msg msg.currentEpoch →
          (w.servers dest).failoverAuthSent = true) ∧
        (msg.type = .failoverAuthRequest →
          ∀ v c, (v, msg.currentEpoch, c) ∈ w.acks → v ∈ w.masters)) (by simp [Timely, h])
  | .lose _ | .failover .. | .gossip .. | .bumpEpoch _ | .save _ | .restart .. | .learn .. =>
    isTrue trivial

/-- These actions are allowed one after the other, and all nodes know the same masters. -/
def World.Follows (cfg : Config) (N : Nat) (allowed : World Node → Action Node → Prop) :
    World Node → List (Action Node) → Prop
  | _, [] => True
  | w, a :: acts => allowed w a ∧ (w.apply cfg a).Known N ∧ (w.apply cfg a).Follows cfg N allowed acts

instance instDecidableFollows [∀ w a, Decidable (allowed w a)] (w : World Node) (acts : List (Action Node)) :
    Decidable (w.Follows cfg N allowed acts) :=
  match acts with
  | [] => isTrue trivial
  | a :: acts =>
    have := instDecidableFollows (w.apply cfg a) acts
    inferInstanceAs (Decidable (_ ∧ _ ∧ _))

end Safety

end Redis.Cluster
