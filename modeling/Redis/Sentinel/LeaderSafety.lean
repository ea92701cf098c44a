import Redis.Sentinel.Election

/-! Votes are given once, and two Sentinels do not lead a failover of the same epoch. -/
namespace Redis.Sentinel

open Util Function List Finset Option

variable {Id Master : Type}
variable {s : SentinelState Id Master} {m : Master} {e : Nat} {n : Id} {order : List Id}
variable {leader r : Id} {w' : World Id Master}

/-! ### What a Sentinel can do to its vote -/

/-- A vote stays, is forgotten, or is replaced by one of a greater epoch. -/
def Votes (master master' : MasterInstance Id) : Prop :=
  master'.leaderEpoch = master.leaderEpoch ∧
      (master'.leader = master.leader ∨ master'.leader = none) ∨
    ∃ leader, master'.leader = some leader ∧ master.leaderEpoch < master'.leaderEpoch

/-- A Sentinel has done something about one master and left the others alone. -/
structure Touches (s s' : SentinelState Id Master) (m : Master) : Prop where
  myid : s'.myid = s.myid
  others : ∀ k, k ≠ m → s'.masters k = s.masters k
  vote : Votes (s.masters m) (s'.masters m)

theorem Votes.refl (master : MasterInstance Id) : Votes master master := .inl ⟨rfl, .inl rfl⟩

variable (s m)

theorem touches_self : Touches s s m :=
  ⟨rfl, fun _ _ => rfl, .refl _⟩

theorem touches_raiseEpoch (epoch : Nat) : Touches s (raiseEpoch s epoch) m :=
  ⟨rfl, fun _ _ => rfl, .refl _⟩

variable [DecidableEq Master]

theorem touches_update (epoch : Nat) {master : MasterInstance Id} (h : Votes (s.masters m) master) :
    Touches s ⟨s.myid, epoch, update s.masters m master⟩ m := by
  refine ⟨rfl, fun k hk => update_of_ne hk _ _, ?_⟩
  simpa using h

theorem sentinelVoteLeader_touches (reqEpoch : Nat) (reqRunid : Id) :
    Touches s (sentinelVoteLeader s m reqEpoch reqRunid) m := by
  unfold sentinelVoteLeader
  dsimp only
  split_ifs with h
  · obtain ⟨hlower, hcurrent⟩ := h
    have hraised : reqEpoch ≤ (raiseEpoch s reqEpoch).currentEpoch := le_max_right _ _
    have hvotes : Votes (s.masters m) { (raiseEpoch s reqEpoch).masters m with
        leader := some reqRunid, leaderEpoch := (raiseEpoch s reqEpoch).currentEpoch } :=
      .inr ⟨reqRunid, rfl, hlower.trans_le hraised⟩
    exact touches_update s m _ hvotes
  · exact touches_raiseEpoch s m reqEpoch

/-- A vote leaves the reported votes and the epoch of the failover. -/
theorem sentinelVoteLeader_frame (reqEpoch : Nat) (reqRunid : Id) :
    ((sentinelVoteLeader s m reqEpoch reqRunid).masters m).sentinels = (s.masters m).sentinels ∧
      ((sentinelVoteLeader s m reqEpoch reqRunid).masters m).failoverEpoch =
        (s.masters m).failoverEpoch := by
  unfold sentinelVoteLeader
  dsimp only
  split_ifs with h
  · simp [SentinelState.setMaster, raiseEpoch]
  · exact ⟨rfl, rfl⟩

variable {s m}

/-- A change of the failover state touches no vote. -/
theorem Touches.setState {t : SentinelState Id Master} (h : Touches s t m) (state : FailoverState) :
    Touches s (t.setMaster m { t.masters m with failoverState := state }) m := by
  obtain ⟨hmyid, hothers, hvote⟩ := h
  refine ⟨hmyid, fun k hk => (update_of_ne hk _ _).trans (hothers k hk), ?_⟩
  simp only [SentinelState.setMaster, update_self]
  exact hvote

/-! ### The record of votes -/

namespace World

variable [DecidableEq Id] {w : World Id Master}

structure Inv (w : World Id Master) : Prop where
  myid : ∀ n, (w.sentinels n).myid = n
  bounded : ∀ r m e l, (r, m, e, l) ∈ w.votes → e ≤ ((w.sentinels r).masters m).leaderEpoch
  unique : ∀ r m e l l', (r, m, e, l) ∈ w.votes → (r, m, e, l') ∈ w.votes → l = l'
  given : ∀ r m l, ((w.sentinels r).masters m).leader = some l →
    (r, m, ((w.sentinels r).masters m).leaderEpoch, l) ∈ w.votes
  reported : ∀ s m r l, (((w.sentinels s).masters m).sentinels r).leader = some l →
    (r, m, (((w.sentinels s).masters m).sentinels r).leaderEpoch, l) ∈ w.votes
  replied : ∀ r s reply l, (r, s, reply) ∈ w.replies → reply.leader = some l →
    (r, reply.master, reply.leaderEpoch, l) ∈ w.votes

omit [DecidableEq Id] [DecidableEq Master] in
theorem mem_newVote {s s' : SentinelState Id Master} {n : Id} {m k : Master} {l : Id} :
    (r, k, e, l) ∈ newVote s s' n m ↔ r = n ∧ k = m ∧ e = (s'.masters m).leaderEpoch ∧
      (s'.masters m).leader = some l ∧ (s'.masters m).leaderEpoch ≠ (s.masters m).leaderEpoch := by
  rw [newVote]
  cases hleader : (s'.masters m).leader with
  | none => simp
  | some leader =>
    by_cases hepoch : (s'.masters m).leaderEpoch = (s.masters m).leaderEpoch
    · simp [hepoch]
    · simp [hepoch, eq_comm]

omit [DecidableEq Master] in
theorem votes_update_subset (w : World Id Master) (n : Id) (m : Master) (s : SentinelState Id Master) :
    w.votes ⊆ (w.update n m s).votes :=
  subset_append_right _ _

/-- Every action of a Sentinel keeps the record. -/
theorem Inv.update (h : Inv w) (htouches : Touches (w.sentinels n) s m)
    (hreported : ∀ r l, ((s.masters m).sentinels r).leader = some l →
    (r, m, ((s.masters m).sentinels r).leaderEpoch, l) ∈ w.votes) : Inv (w.update n m s) := by
  obtain ⟨hmyid, hothers, hvote⟩ := htouches
  have hsub := votes_update_subset w n m s
  have hmasters : ∀ r k, (((w.update n m s).sentinels r).masters k = s.masters m ∧ r = n ∧ k = m) ∨
      ((w.update n m s).sentinels r).masters k = (w.sentinels r).masters k := by
    intro r k
    rcases eq_or_ne r n with rfl | hr
    · by_cases hk : k = m
      · exact .inl ⟨by simp [World.update, hk], rfl, hk⟩
      · exact .inr (by simp [World.update, hothers k hk])
    · exact .inr (by simp [World.update, update_of_ne hr])
  have hle : ((w.sentinels n).masters m).leaderEpoch ≤ (s.masters m).leaderEpoch := by
    rcases hvote with ⟨heq, -⟩ | ⟨_, -, hlt⟩
    · exact heq.ge
    · exact hlt.le
  refine ⟨fun r => ?_, fun r k e l hmem => ?_, fun r k e l l' hmem hmem' => ?_, fun r k l hl => ?_,
    fun r k p l hl => ?_, fun r p reply l hmem hl => hsub (h.replied r p reply l hmem hl)⟩
  · rcases eq_or_ne r n with rfl | hr
    · simpa [World.update, hmyid] using h.myid r
    · simpa [World.update, update_of_ne hr] using h.myid r
  · rcases mem_append.mp hmem with hnew | hold
    · obtain ⟨rfl, rfl, rfl, -, -⟩ := mem_newVote.mp hnew
      simp [World.update]
    · have hbound := h.bounded r k e l hold
      rcases hmasters r k with ⟨hself, rfl, rfl⟩ | hother
      · rw [hself]
        exact hbound.trans hle
      · rw [hother]
        exact hbound
  · -- a new vote has a greater epoch than all earlier ones
    have hfresh : ∀ l₁ l₂, (r, k, e, l₁) ∈ newVote (w.sentinels n) s n m →
        (r, k, e, l₂) ∉ w.votes := by
      intro l₁ l₂ hnew hold
      obtain ⟨rfl, rfl, rfl, -, hne⟩ := mem_newVote.mp hnew
      have hbound := h.bounded _ _ _ _ hold
      omega
    rcases mem_append.mp hmem with hnew | hold
    · rcases mem_append.mp hmem' with hnew' | hold'
      · have hl := (mem_newVote.mp hnew).2.2.2.1
        have hl' := (mem_newVote.mp hnew').2.2.2.1
        exact some.inj (hl.symm.trans hl')
      · exact absurd hold' (hfresh l l' hnew)
    · rcases mem_append.mp hmem' with hnew' | hold'
      · exact absurd hold (hfresh l' l hnew')
      · exact h.unique r k e l l' hold hold'
  · rcases hmasters r k with ⟨hself, rfl, rfl⟩ | hother
    · rw [hself] at hl ⊢
      rcases hvote with ⟨hepoch, hleader | hleader⟩ | ⟨leader, hleader, hlt⟩
      · rw [hepoch]
        exact hsub (h.given _ _ l (hleader ▸ hl))
      · rw [hleader] at hl
        cases hl
      · exact mem_append_left _ (mem_newVote.mpr ⟨rfl, rfl, rfl, hl, hlt.ne'⟩)
    · rw [hother] at hl ⊢
      exact hsub (h.given r k l hl)
  · rcases hmasters r k with ⟨hself, rfl, rfl⟩ | hother
    · rw [hself] at hl ⊢
      exact hsub (hreported p l hl)
    · rw [hother] at hl ⊢
      exact hsub (h.reported r k p l hl)

/-- The same for an action that keeps the reported votes. -/
theorem Inv.act (h : Inv w) (htouches : Touches (w.sentinels n) s m)
    (hsentinels : (s.masters m).sentinels = ((w.sentinels n).masters m).sentinels) :
    Inv (w.update n m s) := by
  apply h.update htouches
  rw [hsentinels]
  exact h.reported n m

omit [DecidableEq Id] [DecidableEq Master] in
/-- A change of the messages and elections alone. -/
theorem Inv.of_replies (h : Inv w) (hsentinels : w'.sentinels = w.sentinels)
    (hvotes : w'.votes = w.votes)
    (hreplies : ∀ r s reply l, (r, s, reply) ∈ w'.replies → reply.leader = some l →
    (r, reply.master, reply.leaderEpoch, l) ∈ w.votes) : Inv w' := by
  obtain ⟨sentinels, requests, replies, votes, elected⟩ := w'
  obtain rfl : sentinels = w.sentinels := hsentinels
  obtain rfl : votes = w.votes := hvotes
  exact ⟨h.myid, h.bounded, h.unique, h.given, h.reported, hreplies⟩

theorem Inv.setPeer (h : Inv w) (n : Id) (m : Master) (r : Id) (peer : Peer Id)
    (hpeer : ∀ l, peer.leader = some l → (r, m, peer.leaderEpoch, l) ∈ w.votes) :
    Inv (w.update n m (Sentinel.setPeer (w.sentinels n) m r peer)) := by
  apply h.update
  · exact touches_update _ m _ (.inl ⟨rfl, .inl rfl⟩)
  · intro k l hl
    rcases eq_or_ne k r with rfl | hk
    · simp only [Sentinel.setPeer, SentinelState.setMaster, update_self] at hl ⊢
      exact hpeer l hl
    · simp only [Sentinel.setPeer, SentinelState.setMaster, update_self,
        update_of_ne hk] at hl ⊢
      exact h.reported n m k l hl

theorem Inv.answer (h : Inv w) (r s : Id) (request : Request Id Master)
    (requests : List (Id × Id × Request Id Master)) :
    Inv { w.update r request.master (isMasterDownByAddr (w.sentinels r) request).1 with
      requests := requests
      replies := w.replies ++
        (isMasterDownByAddr (w.sentinels r) request).2.toList.map (r, s, ·) } := by
  have hupdated : Inv (w.update r request.master (isMasterDownByAddr (w.sentinels r) request).1) := by
    unfold isMasterDownByAddr
    split_ifs
    · exact h.act (touches_self _ _) rfl
    · cases request.runid with
      | none => exact h.act (touches_self _ _) rfl
      | some runid =>
        exact h.act (sentinelVoteLeader_touches ..) (sentinelVoteLeader_frame ..).1
  refine hupdated.of_replies rfl rfl fun r' s' reply l hmem hl => ?_
  rcases mem_append.mp hmem with hold | hnew
  · exact hupdated.replied r' s' reply l hold hl
  · -- the reply is the vote itself
    obtain ⟨reply', hreply, heq⟩ := mem_map.mp hnew
    obtain ⟨rfl, rfl, rfl⟩ : r = r' ∧ s = s' ∧ reply' = reply := by simpa using heq
    rw [Option.mem_toList] at hreply
    have hgiven := hupdated.given r request.master l
    simp only [World.update, update_self] at hgiven ⊢
    unfold isMasterDownByAddr at hreply hgiven ⊢
    split_ifs at hreply hgiven ⊢
    cases hrunid : request.runid with
    | none =>
      simp only [hrunid, Option.some.injEq] at hreply
      subst hreply
      cases hl
    | some runid =>
      simp only [hrunid, Option.some.injEq] at hreply hgiven ⊢
      subst hreply
      exact hgiven hl

variable [Fintype Id]

/-- Waiting for the election is one vote and a change of the failover state. -/
theorem waitStart_touches (s : SentinelState Id Master) (m : Master) (order : List Id) :
    Touches s (sentinelFailoverWaitStart s m order).1 m ∧
      ((sentinelFailoverWaitStart s m order).1.masters m).sentinels = (s.masters m).sentinels ∧
      ((sentinelFailoverWaitStart s m order).1.masters m).failoverEpoch =
        (s.masters m).failoverEpoch := by
  have hvote := sentinelVoteLeader_touches s m (s.masters m).failoverEpoch
    ((countVotes s m order).1.getD s.myid)
  have hframe := sentinelVoteLeader_frame s m (s.masters m).failoverEpoch
    ((countVotes s m order).1.getD s.myid)
  unfold sentinelFailoverWaitStart
  split
  · exact ⟨touches_self s m, rfl, rfl⟩
  · dsimp only
    split
    · refine ⟨hvote.setState _, ?_⟩
      simpa [SentinelState.setMaster, sentinelGetLeader] using hframe
    · exact ⟨hvote, hframe⟩

theorem Inv.apply (h : Inv w) (action : Action Id Master) : Inv (w.apply action) := by
  cases action with
  | startFailover s m =>
    rw [World.apply, sentinelStartFailover]
    split_ifs with hstate
    · exact h.act (touches_self _ m) rfl
    · refine h.act (touches_update _ m _ (.inl ⟨rfl, .inl rfl⟩)) ?_
      simp [SentinelState.setMaster]
  | ask s r m => exact h.of_replies rfl rfl h.replied
  | answer i =>
    rw [World.apply]
    cases w.requests[i]? with
    | none => exact h
    | some message => exact h.answer message.2.1 message.1 message.2.2 _
  | receive i =>
    rw [World.apply]
    cases hreply : w.replies[i]? with
    | none => exact h
    | some message =>
      obtain ⟨r, s, reply⟩ := message
      have hreplied := fun l => h.replied r s reply l (mem_of_getElem? hreply)
      have hupdated : Inv (w.update s reply.master
          (sentinelReceiveIsMasterDownReply (w.sentinels s) r reply)) := by
        rw [sentinelReceiveIsMasterDownReply]
        cases hleader : reply.leader with
        | none => exact h.act (touches_self _ _) rfl
        | some leader =>
          apply h.setPeer
          intro l hl
          exact hreplied l (hleader.trans hl)
      exact hupdated.of_replies rfl rfl fun r' s' reply' l hmem =>
        hupdated.replied r' s' reply' l (mem_of_mem_eraseIdx hmem)
  | loseRequest i => exact h.of_replies rfl rfl h.replied
  | loseReply i =>
    exact h.of_replies rfl rfl fun r s reply l hmem =>
      h.replied r s reply l (mem_of_mem_eraseIdx hmem)
  | clearVote s m r => exact h.setPeer s m r _ (by simp)
  | waitStart s m order =>
    obtain ⟨htouches, hsentinels, -⟩ := waitStart_touches (w.sentinels s) m order
    have hupdated := h.act htouches hsentinels
    rw [World.apply, elect]
    split_ifs
    · exact hupdated.of_replies rfl rfl hupdated.replied
    · exact hupdated
  | abort s m =>
    refine h.act ((touches_self _ m).setState _) ?_
    simp [sentinelAbortFailover, SentinelState.setMaster]
  | reset s m =>
    refine h.act (touches_update _ m _ (.inl ⟨rfl, .inr rfl⟩)) ?_
    simp [sentinelResetMaster, SentinelState.setMaster]
  | hello s m epoch => exact h.act (touches_raiseEpoch _ m epoch) rfl

/-! ### Elections -/

/-- The Sentinels that have voted for a leader. -/
def voters (w : World Id Master) (m : Master) (e : Nat) (leader : Id) : Finset Id :=
  Finset.univ.filter fun r => (r, m, e, leader) ∈ w.votes

theorem mem_voters : r ∈ w.voters m e leader ↔ (r, m, e, leader) ∈ w.votes := by
  simp [voters]

/-- Whoever leads has the votes of a majority. -/
def Majorities (w : World Id Master) : Prop :=
  ∀ s m e, (s, m, e) ∈ w.elected → Fintype.card Id < 2 * (w.voters m e s).card

theorem Majorities.mono (h : Majorities w) (hvotes : w.votes ⊆ w'.votes)
    (helected : w'.elected = w.elected) : Majorities w' := by
  intro s m e hmem
  rw [helected] at hmem
  have hsub : w.voters m e s ⊆ w'.voters m e s := by
    intro r hr
    exact mem_voters.mpr (hvotes (mem_voters.mp hr))
  have hle := card_le_card hsub
  have hlt := h s m e hmem
  omega

omit [DecidableEq Master] in
/-- The winner is kept with its votes. -/
theorem foldl_compareVotes (s : SentinelState Id Master) (m : Master) (order : List Id)
    {best : Option Id × Nat} (hbest : ∀ x, best.1 = some x → best.2 = votesFor s m x)
    (h : (order.foldl (compareVotes s m) best).1 = some leader) :
    (order.foldl (compareVotes s m) best).2 = votesFor s m leader := by
  induction order generalizing best with
  | nil => exact hbest leader h
  | cons a order ih =>
    refine ih (fun x hx => ?_) h
    rw [compareVotes] at hx ⊢
    split_ifs at hx ⊢
    · rw [← some.inj hx]
    · exact hbest x hx

theorem sentinelLeaderIncr_of_lt {n : Nat} (hn : n + 1 < 2 ^ 31) : sentinelLeaderIncr n = n + 1 := by
  rw [sentinelLeaderIncr]
  have hint := cInt_of_lt hn
  push_cast at hint
  omega

omit [DecidableEq Master] in
theorem votesFor_lt (s : SentinelState Id Master) (m : Master) (leader : Id) :
    votesFor s m leader < Fintype.card Id := by
  apply card_lt_card
  refine ⟨filter_subset _ _, fun hall => ?_⟩
  have hme := hall (mem_univ s.myid)
  simp at hme

/-- The votes that a Sentinel counts were given, if it counts those of the epoch `e`. -/
theorem Inv.votesFor_le (h : Inv w) (hcurrent : (w.sentinels n).currentEpoch = e) (leader : Id) :
    votesFor (w.sentinels n) m leader ≤ ((w.voters m e leader).erase n).card := by
  apply Finset.card_le_card
  intro r hr
  simp only [Finset.mem_filter, Finset.mem_univ, true_and, h.myid] at hr
  obtain ⟨hother, hleader, hepoch⟩ := hr
  have hgiven := h.reported n m r leader hleader
  rw [hepoch, hcurrent] at hgiven
  exact Finset.mem_erase.mpr ⟨hother, mem_voters.mpr hgiven⟩

/-- A Sentinel that goes on was waiting, and has been found to be the leader. -/
theorem waitStart_passed (h : (sentinelFailoverWaitStart s m order).2 = true) :
    (s.masters m).failoverState = .waitStart ∧
      (sentinelGetLeader s m (s.masters m).failoverEpoch order).2 = some s.myid ∧
      ((sentinelFailoverWaitStart s m order).1.masters m).leader =
        ((sentinelGetLeader s m (s.masters m).failoverEpoch order).1.masters m).leader ∧
      ((sentinelFailoverWaitStart s m order).1.masters m).leaderEpoch =
        ((sentinelGetLeader s m (s.masters m).failoverEpoch order).1.masters m).leaderEpoch := by
  unfold sentinelFailoverWaitStart at h ⊢
  dsimp only at h ⊢
  split_ifs at h ⊢ with hstate hleader
  refine ⟨not_not.mp hstate, hleader, ?_, ?_⟩ <;> simp [SentinelState.setMaster]

/-- The count for the leader: votes of others, and the own one if it is for the leader. -/
theorem sentinelGetLeader_votes (hcard : Fintype.card Id < 2 ^ 31)
    (h : (sentinelGetLeader s m e order).2 = some leader) :
    Fintype.card Id < 2 * votesFor s m leader ∨
      Fintype.card Id < 2 * (votesFor s m leader + 1) ∧
        ((sentinelGetLeader s m e order).1.masters m).leader = some leader ∧
        ((sentinelGetLeader s m e order).1.masters m).leaderEpoch = e := by
  have hpos : 0 < Fintype.card Id := Fintype.card_pos_iff.mpr ⟨leader⟩
  have hvoters : (Fintype.card Id - 1 + 1) % 2 ^ 32 = Fintype.card Id := by omega
  have hothers : ∀ x, (countVotes s m order).1 = some x → (countVotes s m order).2 = votesFor s m x :=
    fun x hx => foldl_compareVotes s m order (by simp) hx
  unfold sentinelGetLeader at h ⊢
  dsimp only at h ⊢
  generalize sentinelVoteLeader s m e ((countVotes s m order).1.getD s.myid) = voted at h ⊢
  split_ifs at h with hquorum
  rw [not_or, not_lt] at hquorum
  obtain ⟨hmajority, -⟩ := hquorum
  unfold countMyVote at h hmajority
  cases hmyvote : (voted.masters m).leader with
  | none =>
    simp only [hmyvote] at h hmajority
    rw [hothers leader h] at hmajority
    exact .inl (by omega)
  | some myvote =>
    simp only [hmyvote] at h hmajority
    have hincr := sentinelLeaderIncr_of_lt (n := votesFor s m myvote)
      (by have hlt := votesFor_lt s m myvote; omega)
    split_ifs at h hmajority with hepoch hmore
    · obtain rfl := some.inj h
      exact .inr ⟨by simp only at hmajority; omega, rfl, hepoch⟩
    · rw [hothers leader h] at hmajority
      exact .inl (by omega)
    · rw [hothers leader h] at hmajority
      exact .inl (by omega)

/-- A Sentinel that goes on as the leader has a majority of the votes of that epoch. -/
theorem Inv.elected_majority (h : Inv w) (hcard : Fintype.card Id < 2 ^ 31)
    (hcurrent : (w.sentinels n).currentEpoch = ((w.sentinels n).masters m).failoverEpoch)
    (hpassed : (sentinelFailoverWaitStart (w.sentinels n) m order).2 = true) :
    Fintype.card Id < 2 * ((w.update n m
      (sentinelFailoverWaitStart (w.sentinels n) m order).1).voters m
        ((w.sentinels n).masters m).failoverEpoch n).card := by
  obtain ⟨htouches, hsentinels, -⟩ := waitStart_touches (w.sentinels n) m order
  have hupdated := h.act htouches hsentinels
  obtain ⟨-, hleader, hvote, hepoch⟩ := waitStart_passed hpassed
  rw [h.myid] at hleader
  have hothers := h.votesFor_le (m := m) hcurrent n
  have hsub : (w.voters m ((w.sentinels n).masters m).failoverEpoch n).erase n ⊆ (w.update n m
      (sentinelFailoverWaitStart (w.sentinels n) m order).1).voters m
        ((w.sentinels n).masters m).failoverEpoch n := by
    intro r hr
    have hr' := mem_voters.mp (mem_of_mem_erase hr)
    exact mem_voters.mpr (votes_update_subset _ _ _ _ hr')
  rcases sentinelGetLeader_votes hcard hleader with hmajority | ⟨hmajority, hmine, hmyepoch⟩
  · have hle := card_le_card hsub
    omega
  · -- the own vote comes on top
    have hgiven := hupdated.given n m n
    simp only [World.update, update_self, hvote, hepoch, hmine, hmyepoch] at hgiven
    have hself : n ∈ (w.update n m (sentinelFailoverWaitStart (w.sentinels n) m order).1).voters m
        ((w.sentinels n).masters m).failoverEpoch n := mem_voters.mpr (hgiven trivial)
    have hinsert := card_le_card (insert_subset hself hsub)
    rw [card_insert_of_notMem (notMem_erase _ _)] at hinsert
    omega

theorem Majorities.apply (h : Majorities w) (hinv : Inv w) (hcard : Fintype.card Id < 2 ^ 31)
    (action : Action Id Master) (htimely : w.Timely action) : Majorities (w.apply action) := by
  cases action with
  | waitStart s m order =>
    have hupdated : Majorities (w.update s m
        (sentinelFailoverWaitStart (w.sentinels s) m order).1) :=
      h.mono (votes_update_subset _ _ _ _) rfl
    rw [World.apply, elect]
    split_ifs with hpassed
    · obtain ⟨hwaits, hleads, -⟩ := waitStart_passed hpassed
      have hmajority := hinv.elected_majority hcard (htimely hwaits hleads) hpassed
      intro s' m' e hmem
      rcases mem_cons.mp hmem with heq | hmem
      · obtain ⟨-, -, hepoch⟩ := waitStart_touches (w.sentinels s) m order
        simp only [World.update, update_self, hepoch, Prod.mk.injEq] at heq
        obtain ⟨rfl, rfl, rfl⟩ := heq
        exact hmajority
      · exact hupdated s' m' e hmem
    · exact hupdated
  | answer i =>
    rw [World.apply]
    cases w.requests[i]? with
    | none => exact h
    | some message => exact h.mono (votes_update_subset _ _ _ _) rfl
  | receive i =>
    rw [World.apply]
    cases w.replies[i]? with
    | none => exact h
    | some message => exact h.mono (votes_update_subset _ _ _ _) rfl
  | ask s r m | loseRequest i | loseReply i => exact h.mono (List.Subset.refl _) rfl
  | startFailover s m | clearVote s m r | abort s m | reset s m | hello s m epoch =>
    exact h.mono (votes_update_subset _ _ _ _) rfl

theorem Inv.run (h : Inv w) (hmajorities : Majorities w) (hcard : Fintype.card Id < 2 ^ 31)
    (actions : List (Action Id Master)) (htimely : w.TimelyRun actions) :
    Inv (w.run actions) ∧ Majorities (w.run actions) := by
  induction actions generalizing w with
  | nil => exact ⟨h, hmajorities⟩
  | cons action rest ih =>
    obtain ⟨hfirst, hrest⟩ := htimely
    exact ih (h.apply action) (hmajorities.apply h hcard action hfirst) hrest

omit [DecidableEq Id] [DecidableEq Master] [Fintype Id] in
theorem Start.inv (h : w.Start) : Inv w where
  myid := h.myid
  bounded := by simp [h.votes]
  unique := by simp [h.votes]
  given := by simp [h.leader]
  reported := by simp [h.reported]
  replied := by simp [h.replies]

/-- Two majorities have a Sentinel in common, which has voted for one leader. -/
theorem Inv.leader_unique (h : Inv w) (hmajorities : Majorities w) {s s' : Id}
    (hs : (s, m, e) ∈ w.elected) (hs' : (s', m, e) ∈ w.elected) : s = s' := by
  by_contra hne
  have hdisjoint : Disjoint (w.voters m e s) (w.voters m e s') := by
    rw [Finset.disjoint_left]
    intro r hr hr'
    exact hne (h.unique r m e s s' (mem_voters.mp hr) (mem_voters.mp hr'))
  have hunion := Finset.card_le_univ (w.voters m e s ∪ w.voters m e s')
  rw [Finset.card_union_of_disjoint hdisjoint] at hunion
  have hmajority := hmajorities s m e hs
  have hmajority' := hmajorities s' m e hs'
  omega

end World

/-- In every run in which a Sentinel goes on as the leader only while its current epoch is that
of the failover, a Sentinel votes for one leader in an epoch, and one Sentinel leads. -/
theorem one_leader_per_epoch {Id Master : Type} [DecidableEq Id] [Fintype Id] [DecidableEq Master]
    (hcard : Fintype.card Id < 2 ^ 31) (w : World Id Master) (hstart : w.Start)
    (actions : List (Action Id Master)) (htimely : w.TimelyRun actions) :
    (∀ r m e l l', (r, m, e, l) ∈ (w.run actions).votes → (r, m, e, l') ∈ (w.run actions).votes →
      l = l') ∧
    ∀ s s' m e, (s, m, e) ∈ (w.run actions).elected → (s', m, e) ∈ (w.run actions).elected →
      s = s' := by
  have hnobody : w.Majorities := by simp [World.Majorities, hstart.elected]
  obtain ⟨hinv, hmajorities⟩ := hstart.inv.run hnobody hcard actions htimely
  exact ⟨hinv.unique, fun s s' m e hs hs' => hinv.leader_unique hmajorities hs hs'⟩

/-- Three Sentinels that watch two masters. -/
def threeSentinels : World (Fin 3) Bool where
  sentinels := fun n => ⟨n, 0, fun _ => ⟨none, 0, .none, 0, 2, fun _ => ⟨none, 0⟩⟩⟩
  requests := []
  replies := []
  votes := []
  elected := []

theorem threeSentinels_start : threeSentinels.Start where
  myid := fun _ => rfl
  requests := rfl
  replies := rfl
  votes := rfl
  elected := rfl
  leader := fun _ _ => rfl
  reported := fun _ _ _ => rfl
  failover := fun _ _ => rfl

/-- Sentinels 0 and 1 start a failover of the same master. Sentinel 2 votes for the first. -/
def firstElection : List (Action (Fin 3) Bool) :=
  [.startFailover 0 false, .startFailover 1 false, .waitStart 1 false [0, 1, 2],
    .ask 0 2 false, .answer 0, .receive 0, .waitStart 0 false [0, 1, 2]]

theorem one_leader_per_epoch_first :
    (0, false, 1) ∈ (threeSentinels.run firstElection).elected ∧
      ∀ s, (s, false, 1) ∈ (threeSentinels.run firstElection).elected → s = 0 := by
  have htimely : threeSentinels.TimelyRun firstElection :=
    ⟨trivial, trivial, fun _ _ => by decide +kernel, trivial, trivial, trivial,
      fun _ _ => by decide +kernel, trivial⟩
  have hfirst : (0, false, 1) ∈ (threeSentinels.run firstElection).elected := by decide +kernel
  refine ⟨hfirst, fun s hs => ?_⟩
  exact (one_leader_per_epoch (by decide) threeSentinels threeSentinels_start firstElection
    htimely).2 s 0 false 1 hs hfirst

/-- Sentinel 1 then starts a failover of the other master, asks for votes in the next epoch,
and counts one of them for the failover that it had begun. -/
theorem two_leaders_in_one_epoch :
    threeSentinels.Start ∧
      (threeSentinels.run (firstElection ++ [.startFailover 1 true, .ask 1 2 false, .answer 0,
        .receive 0, .waitStart 1 false [0, 1, 2]])).elected = [(1, false, 1), (0, false, 1)] :=
  ⟨threeSentinels_start, by decide +kernel⟩

end Redis.Sentinel
