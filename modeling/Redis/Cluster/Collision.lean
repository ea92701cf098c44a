import Redis.Cluster.Packets

/-! Masters with the same configuration epoch: how often they change it, and where they end. -/
namespace Redis.Cluster

open Finset Function

/-- The masters, and every message that was sent. -/
structure Masters (Node : Type) where
  servers : Node → ClusterState Node
  network : List (ClusterMsg Node)

/-- A message is sent to the other masters; a master receives one that was sent, late or
more than once or not at all. -/
inductive Exchange (Node : Type) where
  | send (n : Node)
  | receive (n : Node) (i : Nat)
deriving DecidableEq

namespace Masters

section Runs

variable {Node : Type} [LinearOrder Node]

def ownEpoch (w : Masters Node) (n : Node) : Nat := ((w.servers n).nodes n).configEpoch

/-- A master has processed a message of another one. -/
def process (w : Masters Node) (n : Node) (msg : ClusterMsg Node) : Masters Node :=
  if msg.sender = n then w
  else { w with servers := update w.servers n (processEpochs (w.servers n) msg) }

def apply (w : Masters Node) : Exchange Node → Masters Node
  | .send n => { w with network := clusterBuildMessageHdr (w.servers n) .other :: w.network }
  | .receive n i =>
    match w.network[i]? with
    | none => w
    | some msg => w.process n msg

def run (w : Masters Node) (events : List (Exchange Node)) : Masters Node := events.foldl apply w

/-- How often the epoch of a master changes. -/
def changes (w : Masters Node) (n : Node) : List (Exchange Node) → Nat
  | [] => 0
  | event :: rest =>
    (if (w.apply event).ownEpoch n = w.ownEpoch n then 0 else 1) + changes (w.apply event) n rest

/-- The masters after one of them got a message that another sends now. -/
def tell (w : Masters Node) (m n : Node) : Masters Node :=
  w.process n (clusterBuildMessageHdr (w.servers m) .other)

/-- All nodes are masters and know it. A node has seen no epoch above its current one, and
knows of another master an epoch that this master has had. -/
structure Start (w : Masters Node) : Prop where
  network : w.network = []
  myself : ∀ n, (w.servers n).myself = n
  masters : ∀ n m, ((w.servers n).nodes m).isMaster = true
  seen : ∀ n m, ((w.servers n).nodes m).configEpoch ≤ (w.servers n).currentEpoch
  behind : ∀ n m, ((w.servers n).nodes m).configEpoch ≤ w.ownEpoch m

/-- No current epoch is the last one that the word can hold. -/
def Room (w : Masters Node) : Prop := ∀ n, (w.servers n).currentEpoch + 1 < 2 ^ 64

end Runs

/-! ### One message -/

section Message

variable {Node : Type} [LinearOrder Node] {s : ClusterState Node} {hdr : ClusterMsg Node}

/-- The receiver has the epoch of the message, knows no later one of the sender, and has the
smaller name. -/
def Collides (s : ClusterState Node) (hdr : ClusterMsg Node) : Prop :=
  hdr.configEpoch = (s.nodes s.myself).configEpoch ∧
    (s.nodes hdr.sender).configEpoch ≤ hdr.configEpoch ∧ s.myself < hdr.sender

theorem processEpochs_of_collides (hmasters : ∀ m, (s.nodes m).isMaster = true)
    (hroom : max s.currentEpoch hdr.currentEpoch + 1 < 2 ^ 64) (h : Collides s hdr) :
    processEpochs s hdr =
      { noteEpochs s hdr with
        currentEpoch := max s.currentEpoch hdr.currentEpoch + 1
        nodes := update (noteEpochs s hdr).nodes s.myself
          { (noteEpochs s hdr).nodes s.myself with
            configEpoch := max s.currentEpoch hdr.currentEpoch + 1 } } := by
  obtain ⟨hepoch, hknown, hname⟩ := h
  have hme : (noteEpochs s hdr).nodes s.myself = s.nodes s.myself :=
    update_of_ne hname.ne _ _
  have hsender : (noteEpochs s hdr).nodes hdr.sender =
      { s.nodes hdr.sender with configEpoch := hdr.configEpoch } := by
    simp [noteEpochs, max_eq_right hknown]
  have hmyself : (noteEpochs s hdr).myself = s.myself := rfl
  have hcurrent : (noteEpochs s hdr).currentEpoch = max s.currentEpoch hdr.currentEpoch := rfl
  unfold processEpochs resolveCollision clusterHandleConfigEpochCollision
  simp only [hmyself, hme, hsender, hcurrent, hmasters, hepoch, Nat.mod_eq_of_lt hroom]
  rw [if_pos (by simp), if_neg (by simp), if_neg hname.not_ge]

theorem processEpochs_of_not_collides (hother : hdr.sender ≠ s.myself) (h : ¬ Collides s hdr) :
    processEpochs s hdr = noteEpochs s hdr := by
  have hme : (noteEpochs s hdr).nodes s.myself = s.nodes s.myself :=
    update_of_ne hother.symm _ _
  have hmyself : (noteEpochs s hdr).myself = s.myself := rfl
  unfold processEpochs resolveCollision clusterHandleConfigEpochCollision
  simp only [hmyself, hme]
  split_ifs with hcheck hstop hname
  · rfl
  · rfl
  · exfalso
    apply h
    obtain ⟨-, -, hepoch⟩ := hcheck
    have hsame : max (s.nodes hdr.sender).configEpoch hdr.configEpoch =
        (s.nodes s.myself).configEpoch := by
      have hnot := not_or.mp hstop
      simpa [noteEpochs] using hnot.1
    exact ⟨hepoch, by omega, not_le.mp hname⟩
  · rfl

@[simp] theorem noteEpochs_nodes_isMaster (s : ClusterState Node) (hdr : ClusterMsg Node) (m : Node) :
    ((noteEpochs s hdr).nodes m).isMaster = (s.nodes m).isMaster := by
  simp only [noteEpochs, update_apply]
  split_ifs with hm
  · rw [hm]
  · rfl

theorem noteEpochs_configEpoch (s : ClusterState Node) (hdr : ClusterMsg Node) (m : Node) :
    ((noteEpochs s hdr).nodes m).configEpoch =
      if m = hdr.sender then max (s.nodes m).configEpoch hdr.configEpoch
      else (s.nodes m).configEpoch := by
  simp only [noteEpochs, update_apply]
  split_ifs with hm
  · rw [hm]
  · rfl

end Message

/-! ### Runs

A run is followed with the epochs that every master has had so far, the latest first. -/

section Invariant

variable {Node : Type} [LinearOrder Node] {w : Masters Node} {log : Node → List Nat}

structure Inv (w : Masters Node) (log : Node → List Nat) : Prop where
  myself : ∀ n, (w.servers n).myself = n
  masters : ∀ n m, ((w.servers n).nodes m).isMaster = true
  seen : ∀ n m, ((w.servers n).nodes m).configEpoch ≤ (w.servers n).currentEpoch
  behind : ∀ n m, ((w.servers n).nodes m).configEpoch ≤ w.ownEpoch m
  latest : ∀ n, (log n).head? = some (w.ownEpoch n)
  decreasing : ∀ n, (log n).Pairwise (· > ·)
  announced : ∀ msg ∈ w.network, msg.configEpoch ∈ log msg.sender ∧
    msg.currentEpoch ≤ (w.servers msg.sender).currentEpoch ∧ msg.configEpoch ≤ msg.currentEpoch
  collided : ∀ n, ∀ e ∈ (log n).tail, ∃ m, n < m ∧ e ∈ log m

theorem Start.inv (h : w.Start) : Inv w (fun n => [w.ownEpoch n]) where
  myself := h.myself
  masters := h.masters
  seen := h.seen
  behind := h.behind
  latest := fun _ => rfl
  decreasing := fun _ => List.pairwise_singleton _ _
  announced := by simp [h.network]
  collided := by simp

section

variable {msg : ClusterMsg Node} {n : Node}
variable (h : Inv w log)
include h

theorem Inv.le_ownEpoch {e : Nat} (he : e ∈ log n) : e ≤ w.ownEpoch n := by
  have hlatest := h.latest n
  have hdecreasing := h.decreasing n
  cases hlog : log n with
  | nil => simp [hlog] at he
  | cons top rest =>
    rw [hlog, List.head?_cons, Option.some.injEq] at hlatest
    rw [hlog, List.pairwise_cons] at hdecreasing
    rw [hlog, List.mem_cons] at he
    rcases he with rfl | he
    · exact hlatest.le
    · have hlt := hdecreasing.1 e he
      omega

theorem Inv.mem_log (n : Node) : w.ownEpoch n ∈ log n :=
  List.mem_of_mem_head? (h.latest n)

/-- What a master says about itself. -/
theorem Inv.header (n : Node) : (clusterBuildMessageHdr (w.servers n) .other).sender = n ∧
    (clusterBuildMessageHdr (w.servers n) .other).currentEpoch = (w.servers n).currentEpoch ∧
    (clusterBuildMessageHdr (w.servers n) .other).configEpoch = w.ownEpoch n := by
  simp [clusterBuildMessageHdr, h.myself, h.masters, ownEpoch]

theorem Inv.send (n : Node) : Inv (w.apply (.send n)) log where
  myself := h.myself
  masters := h.masters
  seen := h.seen
  behind := h.behind
  latest := h.latest
  decreasing := h.decreasing
  announced := by
    intro msg hmsg
    rcases List.mem_cons.mp hmsg with rfl | hmsg
    · obtain ⟨hsender, hcurrent, hconfig⟩ := h.header n
      rw [hsender, hcurrent, hconfig]
      exact ⟨h.mem_log n, le_rfl, h.seen n n⟩
    · exact h.announced msg hmsg
  collided := h.collided

omit h in
theorem ownEpoch_update (w : Masters Node) (n : Node) (s : ClusterState Node) (m : Node) :
    ownEpoch { w with servers := update w.servers n s } m =
      if m = n then (s.nodes n).configEpoch else w.ownEpoch m := by
  simp only [ownEpoch, update_apply]
  split_ifs with hm
  · rw [hm]
  · rfl

/-- One master changes, and its log with it. -/
theorem Inv.replace {s : ClusterState Node} {epochs : List Nat}
    (hmyself : s.myself = n) (hmasters : ∀ m, (s.nodes m).isMaster = true)
    (hseen : ∀ m, (s.nodes m).configEpoch ≤ s.currentEpoch)
    (hbehind : ∀ m, m ≠ n → (s.nodes m).configEpoch ≤ w.ownEpoch m)
    (hcurrent : (w.servers n).currentEpoch ≤ s.currentEpoch)
    (hown : w.ownEpoch n ≤ (s.nodes n).configEpoch)
    (hlatest : epochs.head? = some (s.nodes n).configEpoch)
    (hdecreasing : epochs.Pairwise (· > ·)) (hlog : log n ⊆ epochs)
    (hcollided : ∀ e ∈ epochs.tail, ∃ m, n < m ∧ e ∈ log m) :
    Inv { w with servers := update w.servers n s } (update log n epochs) := by
  have hservers : ∀ m, (w.servers m).currentEpoch ≤ (update w.servers n s m).currentEpoch :=
    (forall_update_iff w.servers fun m s =>
      (w.servers m).currentEpoch ≤ s.currentEpoch).mpr
      ⟨hcurrent, fun _ _ => le_rfl⟩
  have hmem : ∀ m, log m ⊆ update log n epochs m :=
    (forall_update_iff log fun m epochs => log m ⊆ epochs).mpr
      ⟨hlog, fun _ _ => List.Subset.refl _⟩
  refine ⟨?_, ?_, ?_, fun k m => ?_, fun m => ?_, ?_, fun msg hmsg => ?_, ?_⟩
  · exact (forall_update_iff w.servers fun m s => s.myself = m).mpr
      ⟨hmyself, fun m _ => h.myself m⟩
  · exact (forall_update_iff w.servers fun _ s => ∀ m, (s.nodes m).isMaster = true).mpr
      ⟨hmasters, fun k _ => h.masters k⟩
  · exact (forall_update_iff w.servers fun _ s =>
      ∀ m, (s.nodes m).configEpoch ≤ s.currentEpoch).mpr ⟨hseen, fun k _ => h.seen k⟩
  · rw [ownEpoch_update]
    dsimp only
    rw [update_apply]
    split_ifs with hk hm hm
    · rw [hm]
    · exact hbehind m hm
    · exact (h.behind k m).trans (by rw [hm]; exact hown)
    · exact h.behind k m
  · rw [ownEpoch_update, update_apply]
    split_ifs
    · exact hlatest
    · exact h.latest m
  · exact (forall_update_iff log fun _ epochs => epochs.Pairwise (· > ·)).mpr
      ⟨hdecreasing, fun m _ => h.decreasing m⟩
  · obtain ⟨hlogged, hsent, hconfig⟩ := h.announced msg hmsg
    exact ⟨hmem _ hlogged, hsent.trans (hservers _), hconfig⟩
  · have hlater : ∀ {m e}, (∃ k, m < k ∧ e ∈ log k) →
        ∃ k, m < k ∧ e ∈ update log n epochs k :=
      fun ⟨k, hk, he⟩ => ⟨k, hk, hmem k he⟩
    exact (forall_update_iff log fun m epochs' => ∀ e ∈ epochs'.tail, ∃ k, m < k ∧
      e ∈ update log n epochs k).mpr
        ⟨fun e he => hlater (hcollided e he), fun m _ e he => hlater (h.collided m e he)⟩

/-- What a master has learned from a message without changing its own epoch. -/
theorem Inv.note (hmsg : msg ∈ w.network) (hother : msg.sender ≠ n) :
    Inv { w with servers := update w.servers n (noteEpochs (w.servers n) msg) } log := by
  obtain ⟨hlogged, -, hconfig⟩ := h.announced msg hmsg
  have hown : ((noteEpochs (w.servers n) msg).nodes n).configEpoch = w.ownEpoch n := by
    rw [noteEpochs_configEpoch, if_neg hother.symm, ownEpoch]
  rw [← update_eq_self n log]
  refine h.replace (h.myself n) (fun m => ?_) (fun m => ?_) (fun m _ => ?_) (le_max_left ..) hown.ge
    (by rw [hown]; exact h.latest n) (h.decreasing n) (List.Subset.refl _) (h.collided n)
  · rw [noteEpochs_nodes_isMaster]
    exact h.masters n m
  · have hm := h.seen n m
    rw [noteEpochs_configEpoch]
    simp only [noteEpochs]
    split_ifs <;> omega
  · rw [noteEpochs_configEpoch]
    split_ifs with hsender
    · subst hsender
      exact max_le (h.behind n _) (h.le_ownEpoch hlogged)
    · exact h.behind n m

/-- A master that has given itself a new epoch. -/
theorem Inv.bump {s : ClusterState Node} {epoch : Nat}
    (hservers : w.servers n = s) (hepoch : s.currentEpoch < epoch)
    (hcollides : ∃ m, n < m ∧ w.ownEpoch n ∈ log m) :
    Inv { w with servers := update w.servers n { s with
      currentEpoch := epoch
      nodes := update s.nodes n { s.nodes n with configEpoch := epoch } } }
      (update log n (epoch :: log n)) := by
  subst hservers
  have hgreater : w.ownEpoch n < epoch := (h.seen n n).trans_lt hepoch
  refine h.replace (h.myself n) ?_ ?_ (fun m hm => ?_) hepoch.le (by simpa using hgreater.le)
    (by simp) (List.pairwise_cons.mpr ⟨fun e he => (h.le_ownEpoch he).trans_lt hgreater, h.decreasing n⟩)
    (List.subset_cons_self ..) fun e he => ?_
  · exact (forall_update_iff _ fun _ (node : ClusterNode Node) => node.isMaster = true).mpr
      ⟨h.masters n n, fun m _ => h.masters n m⟩
  · exact (forall_update_iff _ fun _ (node : ClusterNode Node) => node.configEpoch ≤ epoch).mpr
      ⟨le_rfl, fun m _ => (h.seen n m).trans hepoch.le⟩
  · dsimp only
    rw [update_of_ne hm]
    exact h.behind n m
  · have hlatest := h.latest n
    have hcollided := h.collided n e
    cases hlog : log n with
    | nil => simp [hlog] at he
    | cons top rest =>
      rw [hlog] at hlatest he hcollided
      rcases List.mem_cons.mp he with rfl | he
      · rwa [Option.some.inj hlatest]
      · exact hcollided he

/-- The log after a step: a master that changed has one more entry. -/
def Extends (w w' : Masters Node) (log log' : Node → List Nat) : Prop :=
  ∀ n, (log' n).length = (log n).length + (if w'.ownEpoch n = w.ownEpoch n then 0 else 1) ∧
    w.ownEpoch n ≤ w'.ownEpoch n

theorem Inv.process (hroom : w.Room) (hmsg : msg ∈ w.network) :
    ∃ log', Inv (w.process n msg) log' ∧ Extends w (w.process n msg) log log' := by
  unfold Masters.process
  split_ifs with hself
  · exact ⟨log, h, fun m => by simp⟩
  · obtain ⟨hlogged, hcurrent, hconfig⟩ := h.announced msg hmsg
    have hmyself := h.myself n
    have hnode : (noteEpochs (w.servers n) msg).nodes n = (w.servers n).nodes n :=
      update_of_ne (Ne.symm hself) _ _
    by_cases hcollides : Collides (w.servers n) msg
    · have hbound : max (w.servers n).currentEpoch msg.currentEpoch + 1 < 2 ^ 64 := by
        have hreceiver := hroom n
        have hsender := hroom msg.sender
        omega
      rw [processEpochs_of_collides (h.masters n) hbound hcollides, hmyself]
      obtain ⟨hepoch, -, hname⟩ := hcollides
      rw [hmyself] at hepoch hname
      have hlower : w.ownEpoch n ∈ log msg.sender := by
        rw [ownEpoch, ← hepoch]
        exact hlogged
      have hbumped := (h.note hmsg hself).bump (n := n) (update_self _ _ _)
        (Nat.lt_succ_self (max (w.servers n).currentEpoch msg.currentEpoch))
        ⟨msg.sender, hname, by simpa [ownEpoch, hnode] using hlower⟩
      simp only [update_idem] at hbumped
      refine ⟨_, hbumped, fun m => ?_⟩
      have hgreater : w.ownEpoch n < max (w.servers n).currentEpoch msg.currentEpoch + 1 := by
        rw [ownEpoch]
        omega
      by_cases hm : m = n
      · subst hm
        simp only [ownEpoch, update_self, List.length_cons] at hgreater ⊢
        rw [if_neg hgreater.ne']
        exact ⟨rfl, hgreater.le⟩
      · simp [ownEpoch, update_of_ne hm]
    · rw [processEpochs_of_not_collides (by rw [hmyself]; exact hself) hcollides]
      refine ⟨log, h.note hmsg hself, fun m => ?_⟩
      by_cases hm : m = n
      · subst hm
        simp [ownEpoch, hnode]
      · simp [ownEpoch, update_of_ne hm]

theorem Inv.apply (hroom : w.Room) (event : Exchange Node) :
    ∃ log', Inv (w.apply event) log' ∧ Extends w (w.apply event) log log' := by
  cases event with
  | send n => exact ⟨log, h.send n, fun m => by simp [ownEpoch, Masters.apply]⟩
  | receive n i =>
    rw [Masters.apply]
    cases hmsg : w.network[i]? with
    | none => exact ⟨log, h, fun m => by simp⟩
    | some msg => exact h.process hroom (List.mem_of_getElem? hmsg)

omit h in
/-- A run adds to the log of a master as many epochs as it has changes. -/
theorem Inv.run (events : List (Exchange Node)) (h : Inv w log)
    (hroom : ∀ before, before <+: events → (w.run before).Room) :
    ∃ log', Inv (w.run events) log' ∧ ∀ n,
      (log' n).length = (log n).length + w.changes n events ∧
        w.ownEpoch n ≤ (w.run events).ownEpoch n := by
  induction events generalizing w log with
  | nil => exact ⟨log, h, fun n => ⟨rfl, le_rfl⟩⟩
  | cons event rest ih =>
    obtain ⟨log', hnext, hstep⟩ := h.apply (hroom [] List.nil_prefix) event
    have hroom' : ∀ before, before <+: rest → ((w.apply event).run before).Room := by
      intro before hbefore
      exact hroom (event :: before) (List.cons_prefix_cons.mpr ⟨rfl, hbefore⟩)
    obtain ⟨log'', hlast, hrest⟩ := ih hnext hroom'
    refine ⟨log'', hlast, fun n => ?_⟩
    obtain ⟨hlength, hle⟩ := hstep n
    obtain ⟨hlength', hle'⟩ := hrest n
    refine ⟨?_, hle.trans hle'⟩
    rw [hlength', hlength, changes]
    omega

/-- A master leaves an epoch only if a master with a greater name has had it. -/
theorem Inv.length_le [Fintype Node] (n : Node) :
    (log n).length ≤ 1 + ∑ m with n < m, (log m).length := by
  have hnodup : (log n).tail.Nodup := (h.decreasing n).tail.imp fun hgt => hgt.ne'
  have hsubset : (log n).tail.toFinset ⊆ (univ.filter (n < ·)).biUnion fun m => (log m).toFinset := by
    intro e he
    obtain ⟨m, hm, hlogged⟩ := h.collided n e (List.mem_toFinset.mp he)
    simp only [mem_biUnion, mem_filter, mem_univ, true_and, List.mem_toFinset]
    exact ⟨m, hm, hlogged⟩
  have htail : (log n).tail.length ≤ ∑ m with n < m, (log m).length := by
    calc (log n).tail.length = (log n).tail.toFinset.card := (List.toFinset_card_of_nodup hnodup).symm
      _ ≤ ((univ.filter (n < ·)).biUnion fun m => (log m).toFinset).card := card_le_card hsubset
      _ ≤ ∑ m with n < m, (log m).toFinset.card := card_biUnion_le
      _ ≤ ∑ m with n < m, (log m).length := sum_le_sum fun m _ => List.toFinset_card_le _
  rw [List.length_tail] at htail
  omega

omit h in
/-- If each number is at most the sum of those above it and one, their sum doubles with
every number. -/
theorem sum_le_two_pow {f : Node → Nat} {s : Finset Node}
    (h : ∀ n ∈ s, f n ≤ 1 + ∑ m ∈ s with n < m, f m) : ∑ n ∈ s, f n ≤ 2 ^ s.card - 1 := by
  induction s using Finset.induction_on_min with
  | empty => simp
  | insert a s hmin ih =>
    have ha : a ∉ s := fun ha => lt_irrefl a (hmin a ha)
    have habove : (insert a s).filter (a < ·) = s := by
      rw [filter_insert, if_neg (lt_irrefl a), filter_true_of_mem hmin]
    have hrest : ∀ n ∈ s, f n ≤ 1 + ∑ m ∈ s with n < m, f m := by
      intro n hn
      have hn' := h n (mem_insert_of_mem hn)
      rwa [filter_insert, if_neg (hmin n hn).le.not_gt] at hn'
    have hfirst := h a (mem_insert_self a s)
    rw [habove] at hfirst
    have hsum := ih hrest
    have hpow := Nat.one_le_two_pow (n := s.card)
    rw [sum_insert ha, card_insert_of_notMem ha, pow_succ]
    omega

/-- Two masters with one epoch: the one with the smaller name changes it when it hears of the
other. -/
theorem Inv.tell_changes (hroom : w.Room) {m : Node} (hname : n < m)
    (hsame : w.ownEpoch n = w.ownEpoch m) : (w.tell m n).ownEpoch n ≠ w.ownEpoch n := by
  obtain ⟨hsender, hcurrent, hconfig⟩ := h.header m
  have hcollides : Collides (w.servers n) (clusterBuildMessageHdr (w.servers m) .other) := by
    rw [Collides, h.myself n, hsender, hconfig]
    exact ⟨hsame.symm, h.behind n m, hname⟩
  have hbound : max (w.servers n).currentEpoch
      (clusterBuildMessageHdr (w.servers m) .other).currentEpoch + 1 < 2 ^ 64 := by
    have hreceiver := hroom n
    have hother := hroom m
    omega
  have hseen := h.seen n n
  rw [tell, Masters.process, if_neg (by rw [hsender]; exact hname.ne'),
    processEpochs_of_collides (h.masters n) hbound hcollides, h.myself n]
  simp only [ownEpoch, update_self]
  omega

end

theorem ownEpoch_run_of_changes {n : Node} (events : List (Exchange Node))
    (h : w.changes n events = 0) : (w.run events).ownEpoch n = w.ownEpoch n := by
  induction events generalizing w with
  | nil => rfl
  | cons event rest ih =>
    rw [changes, Nat.add_eq_zero_iff] at h
    obtain ⟨hfirst, hrest⟩ := h
    have hkept : (w.apply event).ownEpoch n = w.ownEpoch n := by
      by_contra hne
      rw [if_neg hne] at hfirst
      exact one_ne_zero hfirst
    exact (ih hrest).trans hkept

end Invariant

/-- While no current epoch is the last one, epochs only grow, the master with the greatest
name keeps its own, there are at most `2 ^ n - 1` changes, and where no message changes
anything all epochs differ. -/
theorem collisions_resolve {Node : Type} [LinearOrder Node] [Fintype Node] (w : Masters Node)
    (hstart : w.Start) (events : List (Exchange Node))
    (hroom : ∀ before, before <+: events → (w.run before).Room) :
    (∀ before, before <+: events → ∀ n, (w.run before).ownEpoch n ≤ (w.run events).ownEpoch n) ∧
      (∀ n, (∀ m, m ≤ n) → (w.run events).ownEpoch n = w.ownEpoch n) ∧
      ∑ n, w.changes n events ≤ 2 ^ Fintype.card Node - 1 ∧
      ((∀ m n, m ≠ n → ((w.run events).tell m n).ownEpoch n = (w.run events).ownEpoch n) →
        Function.Injective (w.run events).ownEpoch) := by
  obtain ⟨log, hinv, hlog⟩ := hstart.inv.run events hroom
  refine ⟨?_, ?_, ?_, ?_⟩
  · rintro before ⟨rest, rfl⟩ n
    obtain ⟨log', hinv', -⟩ := hstart.inv.run before
      fun b hb => hroom b (hb.trans (List.prefix_append _ _))
    have hrest : ∀ b, b <+: rest → ((w.run before).run b).Room := by
      intro b hb
      rw [run, run, ← List.foldl_append]
      exact hroom (before ++ b) ((List.prefix_append_right_inj before).mpr hb)
    obtain ⟨_, -, hgrow⟩ := hinv'.run rest hrest
    have hsplit : w.run (before ++ rest) = (w.run before).run rest := List.foldl_append
    rw [hsplit]
    exact (hgrow n).2
  · intro n htop
    have hlength := hinv.length_le n
    have hnone : (univ.filter (n < ·)) = ∅ := filter_eq_empty_iff.mpr fun m _ => (htop m).not_gt
    rw [hnone, sum_empty] at hlength
    have hchanges : w.changes n events = 0 := by
      have hn := (hlog n).1
      rw [List.length_singleton] at hn
      omega
    exact ownEpoch_run_of_changes events hchanges
  · have hsum := sum_le_two_pow (s := univ) (f := fun n => (log n).length)
      fun n _ => hinv.length_le n
    calc ∑ n, w.changes n events ≤ ∑ n, (log n).length :=
          sum_le_sum fun n _ => by have hn := (hlog n).1; omega
      _ ≤ 2 ^ Fintype.card Node - 1 := hsum
  · intro hquiet m n hsame
    rcases lt_trichotomy m n with hlt | heq | hgt
    · exact absurd (hquiet n m hlt.ne')
        (hinv.tell_changes (hroom events List.prefix_rfl) hlt hsame)
    · exact heq
    · exact absurd (hquiet m n hgt.ne')
        (hinv.tell_changes (hroom events List.prefix_rfl) hgt hsame.symm)

/-- Two masters with one epoch. -/
def colliding (epoch : Nat) : Masters (Fin 2) where
  servers := fun n =>
    { size := 2
      known := fun _ => true
      nodes := fun _ => ⟨true, none, false, false, true, [], epoch, 0⟩
      slots := fun _ => none
      mfEnd := 0
      mfCanStart := false
      myself := n
      currentEpoch := epoch
      lastVoteEpoch := 0
      failoverAuthTime := 0
      failoverAuthCount := 0
      failoverAuthSent := false
      failoverAuthRank := 0
      failoverAuthEpoch := 0 }
  network := []

theorem colliding_start (epoch : Nat) : (colliding epoch).Start where
  network := rfl
  myself := fun _ => rfl
  masters := fun _ _ => rfl
  seen := fun _ _ => le_rfl
  behind := fun _ _ => le_rfl

theorem collisions_resolve_two :
    ((colliding 1).run [.send 1, .receive 0 0]).ownEpoch 0 = 2 ∧
      ((colliding 1).run [.send 1, .receive 0 0]).ownEpoch 1 = 1 ∧
      ∑ n, (colliding 1).changes n [.send 1, .receive 0 0] ≤ 3 := by
  have hroom : ∀ before, before <+: [.send 1, .receive 0 0] → ((colliding 1).run before).Room := by
    intro before hbefore
    rw [← List.mem_inits] at hbefore
    simp only [List.inits, List.map_cons, List.map_nil, List.mem_cons, List.not_mem_nil,
      or_false] at hbefore
    rcases hbefore with rfl | rfl | rfl <;> exact fun n => by fin_cases n <;> decide
  obtain ⟨-, htop, hsum, -⟩ :=
    collisions_resolve (colliding 1) (colliding_start 1) [.send 1, .receive 0 0] hroom
  exact ⟨by decide, htop 1 (by decide), hsum⟩

/-- Both masters have the last epoch: the one that gives way gets epoch zero. -/
theorem epoch_wraps :
    (colliding (2 ^ 64 - 1)).Start ∧ (colliding (2 ^ 64 - 1)).ownEpoch 0 = 2 ^ 64 - 1 ∧
      ((colliding (2 ^ 64 - 1)).run [.send 1, .receive 0 0]).ownEpoch 0 = 0 := by
  refine ⟨colliding_start _, rfl, ?_⟩
  decide

end Masters

end Redis.Cluster
