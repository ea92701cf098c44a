import Mathlib.Data.List.AList

/-! The failure reports of `cluster.c`: which nodes told us that a node cannot be reached, and
when that is enough to mark the node as failing. -/
namespace Redis.Cluster.FailureReports

open List AList

/-- The bits of the flags that are read here. -/
structure Flags where
  master : Bool
  pfail : Bool
  fail : Bool
  noaddr : Bool
deriving DecidableEq

structure FailReport (Name : Type) where
  node : Name
  time : Int
deriving DecidableEq

structure ClusterNode (Name : Type) where
  flags : Flags
  numslots : Nat
  pingSent : Int
  failReports : List (FailReport Name)

/-- One entry of a gossip section. -/
structure Gossip (Name : Type) where
  nodename : Name
  flags : Flags

structure State (Name : Type) where
  myself : Name
  nodes : AList fun _ : Name => ClusterNode Name
  size : Nat
  clusterNodeTimeout : Int
  mstime : Int

section Code

variable {Name : Type} [DecidableEq Name]

/-- Sets the time of the first report of `sender`, if there is one. -/
def refresh (now : Int) (sender : Name) : List (FailReport Name) → Option (List (FailReport Name))
  | [] => none
  | fr :: rest =>
    if fr.node = sender then some ({ fr with time := now } :: rest)
    else (refresh now sender rest).map (fr :: ·)

def clusterNodeAddFailureReport (s : State Name) (failing : ClusterNode Name) (sender : Name) :
    ClusterNode Name × Bool :=
  match refresh s.mstime sender failing.failReports with
  | some reports => ({ failing with failReports := reports }, false)
  | none => ({ failing with failReports := failing.failReports ++ [⟨sender, s.mstime⟩] }, true)

/-- The age a report may have; `CLUSTER_FAIL_REPORT_VALIDITY_MULT` is 2. -/
def State.maxtime (s : State Name) : Int := s.clusterNodeTimeout * 2

def clusterNodeCleanupFailureReports (s : State Name) (node : ClusterNode Name) :
    ClusterNode Name :=
  { node with failReports := node.failReports.filter fun fr => !(s.mstime - fr.time > s.maxtime) }

def clusterNodeDelFailureReport (s : State Name) (node : ClusterNode Name) (sender : Name) :
    ClusterNode Name × Bool :=
  if node.failReports.any fun fr => fr.node = sender then
    (clusterNodeCleanupFailureReports s
      { node with failReports := node.failReports.eraseP fun fr => fr.node = sender }, true)
  else (node, false)

def clusterNodeFailureReportsCount (s : State Name) (node : ClusterNode Name) :
    ClusterNode Name × Nat :=
  let node := clusterNodeCleanupFailureReports s node
  (node, node.failReports.length)

def State.nodeIsMaster (s : State Name) (name : Name) : Bool :=
  (s.nodes.lookup name).any fun node => node.flags.master

/-- The masters that serve a slot. -/
def State.masters (s : State Name) : List Name :=
  s.nodes.keys.filter fun name =>
    (s.nodes.lookup name).any fun node => node.flags.master && node.numslots != 0

/-- The size of the cluster, which a master does not compute as long as it waits to rejoin. -/
def clusterUpdateState (s : State Name) (waits : Bool) : State Name :=
  if s.nodeIsMaster s.myself && waits then s else { s with size := s.masters.length }

def markNodeAsFailingIfNeeded (s : State Name) (node : ClusterNode Name) : ClusterNode Name :=
  let neededQuorum := s.size / 2 + 1
  if !node.flags.pfail then node
  else if node.flags.fail then node
  else
    let (node, reports) := clusterNodeFailureReportsCount s node
    let failures := if s.nodeIsMaster s.myself then reports + 1 else reports
    if failures < neededQuorum then node
    else { node with flags := { node.flags with pfail := false, fail := true } }

def State.put (s : State Name) (name : Name) (node : ClusterNode Name) : State Name :=
  { s with nodes := s.nodes.insert name node }

def State.modify (s : State Name) (name : Name) (f : ClusterNode Name → ClusterNode Name) :
    State Name :=
  match s.nodes.lookup name with
  | none => s
  | some node => s.put name (f node)

def createClusterNode (flags : Flags) : ClusterNode Name := ⟨flags, 0, 0, []⟩

/-- One round of `clusterProcessGossipSection`; a sender that is not known is `NULL`. -/
def processGossip (s : State Name) (sender : Name) (g : Gossip Name) (blacklisted : Bool) :
    State Name :=
  let failing := g.flags.fail || g.flags.pfail
  match s.nodes.lookup g.nodename with
  | some node =>
    let node :=
      if s.nodeIsMaster sender && g.nodename ≠ s.myself then
        if failing then markNodeAsFailingIfNeeded s (clusterNodeAddFailureReport s node sender).1
        else (clusterNodeDelFailureReport s node sender).1
      else node
    -- The pong time, which is set if no report is left, is read by no function here.
    let node :=
      if !failing && node.pingSent = 0 then (clusterNodeFailureReportsCount s node).1 else node
    s.put g.nodename node
  | none =>
    if (s.nodes.lookup sender).isSome && !g.flags.noaddr && !blacklisted then
      s.put g.nodename (createClusterNode g.flags)
    else s

/-- What happens to the reports, and what other code does to the nodes. -/
inductive Event (Name : Type) where
  | gossip (sender : Name) (g : Gossip Name) (blacklisted : Bool)
  | addReport (failing sender : Name)
  | delReport (node sender : Name)
  | countReports (node : Name)
  | mark (node : Name)
  | updateState (waits : Bool)
  | addNode (name : Name) (flags : Flags)
  | change (name : Name) (flags : Flags) (numslots : Nat) (pingSent : Int)
  | clock (now : Int)

def step (s : State Name) : Event Name → State Name
  | .gossip sender g blacklisted => processGossip s sender g blacklisted
  | .addReport failing sender =>
    s.modify failing fun node => (clusterNodeAddFailureReport s node sender).1
  | .delReport node sender =>
    s.modify node fun node => (clusterNodeDelFailureReport s node sender).1
  | .countReports node => s.modify node fun node => (clusterNodeFailureReportsCount s node).1
  | .mark node => s.modify node (markNodeAsFailingIfNeeded s)
  | .updateState waits => clusterUpdateState s waits
  | .addNode name flags =>
    if (s.nodes.lookup name).isSome then s else s.put name (createClusterNode flags)
  | .change name flags numslots pingSent =>
    s.modify name fun node => { node with flags, numslots, pingSent }
  | .clock now => { s with mstime := now }

/-- At first a node knows itself only. -/
def State.initial (myself : Name) (timeout now : Int) : State Name :=
  ⟨myself, AList.singleton myself (createClusterNode ⟨true, false, false, false⟩), 1, timeout, now⟩

end Code

variable {Name : Type}

def ClusterNode.senders (node : ClusterNode Name) : List Name :=
  node.failReports.map FailReport.node

/-- The report is not too old. -/
def State.valid (s : State Name) (fr : FailReport Name) : Bool := s.mstime - fr.time ≤ s.maxtime

theorem senders_cleanup (s : State Name) (node : ClusterNode Name) :
    (clusterNodeCleanupFailureReports s node).senders.Sublist node.senders :=
  filter_sublist.map _

theorem mem_cleanup {s : State Name} {node : ClusterNode Name} {fr : FailReport Name} :
    fr ∈ (clusterNodeCleanupFailureReports s node).failReports ↔
      fr ∈ node.failReports ∧ s.valid fr = true := by
  simp [clusterNodeCleanupFailureReports, State.valid]

section Senders

variable [DecidableEq Name] (s : State Name) {node : ClusterNode Name} {sender : Name}

theorem refresh_some {now : Int} {reports reports' : List (FailReport Name)}
    (h : refresh now sender reports = some reports') :
    reports'.map FailReport.node = reports.map FailReport.node := by
  induction reports generalizing reports' with
  | nil => cases h
  | cons fr rest ih =>
    rw [refresh] at h
    split_ifs at h
    · cases h
      rfl
    · obtain ⟨rest', hrest, rfl⟩ := Option.map_eq_some_iff.mp h
      rw [map_cons, map_cons, ih hrest]

theorem refresh_none {now : Int} {reports : List (FailReport Name)}
    (h : refresh now sender reports = none) : sender ∉ reports.map FailReport.node := by
  induction reports with
  | nil => exact not_mem_nil
  | cons fr rest ih =>
    rw [refresh] at h
    split_ifs at h with hne
    rw [map_cons, mem_cons, not_or]
    exact ⟨Ne.symm hne, ih (Option.map_eq_none_iff.mp h)⟩

theorem add_nodup (h : node.senders.Nodup) (sender : Name) :
    (clusterNodeAddFailureReport s node sender).1.senders.Nodup := by
  rw [clusterNodeAddFailureReport]
  cases hrefresh : refresh s.mstime sender node.failReports with
  | some reports =>
    rw [ClusterNode.senders, refresh_some hrefresh]
    exact h
  | none =>
    rw [ClusterNode.senders, map_append]
    exact h.append (nodup_singleton _) (disjoint_singleton.mpr (refresh_none hrefresh))

theorem senders_del (node : ClusterNode Name) (sender : Name) :
    (clusterNodeDelFailureReport s node sender).1.senders.Sublist node.senders := by
  rw [clusterNodeDelFailureReport]
  split_ifs
  · exact (senders_cleanup s _).trans (eraseP_sublist.map _)
  · exact List.Sublist.refl _

theorem senders_mark (node : ClusterNode Name) :
    (markNodeAsFailingIfNeeded s node).senders.Sublist node.senders := by
  rw [markNodeAsFailingIfNeeded]
  dsimp only
  split_ifs
  · exact List.Sublist.refl _
  · exact List.Sublist.refl _
  all_goals exact senders_cleanup s node

end Senders

/-- No node is reported twice by one sender. -/
def State.Distinct [DecidableEq Name] (s : State Name) : Prop :=
  ∀ name node, s.nodes.lookup name = some node → node.senders.Nodup

section Runs

variable [DecidableEq Name] {s : State Name}

theorem State.Distinct.put (h : s.Distinct) (name : Name) {node : ClusterNode Name}
    (hnode : node.senders.Nodup) : (s.put name node).Distinct := by
  intro other found hfound
  rw [State.put] at hfound
  by_cases hother : other = name
  · subst hother
    rw [lookup_insert] at hfound
    cases hfound
    exact hnode
  · rw [lookup_insert_ne hother] at hfound
    exact h other found hfound

theorem State.Distinct.modify (h : s.Distinct) (name : Name) {f : ClusterNode Name → ClusterNode Name}
    (hf : ∀ node, node.senders.Nodup → (f node).senders.Nodup) : (s.modify name f).Distinct := by
  rw [State.modify]
  cases hnode : s.nodes.lookup name with
  | none => exact h
  | some node => exact h.put name (hf node (h name node hnode))

theorem State.Distinct.processGossip (h : s.Distinct) (sender : Name) (g : Gossip Name)
    (blacklisted : Bool) : (processGossip s sender g blacklisted).Distinct := by
  rw [FailureReports.processGossip]
  cases hnode : s.nodes.lookup g.nodename with
  | none =>
    dsimp only
    split_ifs
    · exact h.put _ nodup_nil
    · exact h
  | some node =>
    have hsenders := h _ node hnode
    refine h.put _ ?_
    -- Whatever the section says of the node, a count at the end only removes reports.
    have hcount : ∀ (c : Prop) [Decidable c] (n : ClusterNode Name), n.senders.Nodup →
        (if c then (clusterNodeFailureReportsCount s n).1 else n).senders.Nodup := by
      intro c _ n hn
      split_ifs
      · exact (senders_cleanup s n).nodup hn
      · exact hn
    apply hcount
    split_ifs
    · exact (senders_mark s _).nodup (add_nodup s hsenders sender)
    · exact (senders_del s node sender).nodup hsenders
    · exact hsenders

theorem State.Distinct.step (h : s.Distinct) (event : Event Name) : (step s event).Distinct := by
  cases event with
  | gossip sender g blacklisted => exact h.processGossip sender g blacklisted
  | addReport failing sender => exact h.modify failing fun node hnode => add_nodup s hnode sender
  | delReport node sender =>
    exact h.modify node fun node hnode => (senders_del s node sender).nodup hnode
  | countReports node => exact h.modify node fun node hnode => (senders_cleanup s node).nodup hnode
  | mark node => exact h.modify node fun node hnode => (senders_mark s node).nodup hnode
  | updateState waits =>
    rw [FailureReports.step, clusterUpdateState]
    split_ifs <;> exact h
  | addNode name flags =>
    rw [FailureReports.step]
    split_ifs
    · exact h
    · exact h.put name nodup_nil
  | change name flags numslots pingSent => exact h.modify name fun node hnode => hnode
  | clock now => exact h

theorem distinct_run (events : List (Event Name)) (h : s.Distinct) :
    (events.foldl FailureReports.step s).Distinct := by
  induction events generalizing s with
  | nil => exact h
  | cons event events ih => exact ih (h.step event)

theorem distinct_initial (myself : Name) (timeout now : Int) :
    (State.initial myself timeout now).Distinct := by
  intro name node hnode
  rw [State.initial, AList.lookup, AList.singleton_entries] at hnode
  have hempty : node = createClusterNode ⟨true, false, false, false⟩ := by
    by_cases hname : name = myself
    · subst hname
      simpa using hnode.symm
    · simp [dlookup_cons_ne, hname] at hnode
  rw [hempty]
  exact nodup_nil

end Runs

section Majority

variable [DecidableEq Name] (s : State Name) (node : ClusterNode Name)

/-- A node speaks for the failure: this one sees it, or the other sent a valid report. -/
def State.votes (name : Name) : Bool :=
  (name = s.myself && node.flags.pfail) ||
    node.failReports.any fun fr => fr.node = name && s.valid fr

/-- More than half of the masters that serve a slot speak for the failure. -/
def State.Majority : Prop := s.masters.length < 2 * (s.masters.filter (s.votes node)).length

/-- Those who are counted are masters that serve a slot, and none of them counts twice. -/
structure State.Trusted : Prop where
  reports : ∀ fr ∈ node.failReports, s.valid fr = true → fr.node ∈ s.masters ∧ fr.node ≠ s.myself
  myself : s.nodeIsMaster s.myself = true → s.myself ∈ s.masters

/-- The names that `markNodeAsFailingIfNeeded` counts. -/
def State.counted : List Name :=
  (if s.nodeIsMaster s.myself then [s.myself] else []) ++
    (clusterNodeCleanupFailureReports s node).senders

variable {s node}

theorem mark_sets_fail (hfail : node.flags.fail = false)
    (h : (markNodeAsFailingIfNeeded s node).flags.fail = true) :
    node.flags.pfail = true ∧ s.size / 2 + 1 ≤ (s.counted node).length := by
  rw [markNodeAsFailingIfNeeded] at h
  by_cases hpfail : node.flags.pfail = true
  · refine ⟨hpfail, ?_⟩
    by_contra hfew
    rw [State.counted, length_append, ClusterNode.senders, length_map] at hfew
    rw [if_neg (by simp [hpfail]), if_neg (by simp [hfail])] at h
    dsimp only [clusterNodeFailureReportsCount] at h
    rw [if_pos] at h
    · exact absurd h (by simp [clusterNodeCleanupFailureReports, hfail])
    · split_ifs at hfew ⊢ <;> simp at hfew <;> omega
  · rw [if_pos (by simpa using hpfail), hfail] at h
    cases h

theorem counted_nodup (htrusted : s.Trusted node) (hnodup : node.senders.Nodup) :
    (s.counted node).Nodup := by
  refine List.Nodup.append ?_ ((senders_cleanup s node).nodup hnodup) ?_
  · split_ifs <;> simp
  · intro name hname hsender
    obtain ⟨fr, hfr, rfl⟩ := mem_map.mp hsender
    obtain ⟨hmem, hvalid⟩ := mem_cleanup.mp hfr
    refine (htrusted.reports fr hmem hvalid).2 ?_
    split_ifs at hname
    · exact mem_singleton.mp hname
    · cases hname

theorem counted_subset (htrusted : s.Trusted node) (hpfail : node.flags.pfail = true) :
    s.counted node ⊆ s.masters.filter (s.votes node) := by
  intro name hname
  rw [mem_filter, State.votes]
  rcases mem_append.mp hname with hmyself | hsender
  · split_ifs at hmyself with hmaster
    · obtain rfl := mem_singleton.mp hmyself
      exact ⟨htrusted.myself hmaster, by simp [hpfail]⟩
    · cases hmyself
  · obtain ⟨fr, hfr, rfl⟩ := mem_map.mp hsender
    obtain ⟨hmem, hvalid⟩ := mem_cleanup.mp hfr
    refine ⟨(htrusted.reports fr hmem hvalid).1, ?_⟩
    rw [Bool.or_eq_true, any_eq_true]
    exact .inr ⟨fr, hmem, by simp [hvalid]⟩

end Majority

section Gossip

variable [DecidableEq Name] {s : State Name} {node : ClusterNode Name}

theorem modify_of_lookup {name : Name} (f : ClusterNode Name → ClusterNode Name)
    (h : s.nodes.lookup name = some node) : s.modify name f = s.put name (f node) := by
  rw [State.modify, h]

theorem flags_del (s : State Name) (node : ClusterNode Name) (sender : Name) :
    (clusterNodeDelFailureReport s node sender).1.flags = node.flags := by
  rw [clusterNodeDelFailureReport]
  split_ifs <;> rfl

/-- The mark depends on the other nodes only as far as this one is a master. -/
theorem mark_put {name : Name} (hname : name ≠ s.myself) (reported node : ClusterNode Name) :
    markNodeAsFailingIfNeeded (s.put name reported) node = markNodeAsFailingIfNeeded s node := by
  have hmyself : (s.put name reported).nodeIsMaster s.myself = s.nodeIsMaster s.myself := by
    rw [State.nodeIsMaster, State.put, lookup_insert_ne (Ne.symm hname)]
    rfl
  rw [markNodeAsFailingIfNeeded, markNodeAsFailingIfNeeded]
  simp only [show (s.put name reported).myself = s.myself from rfl, hmyself]
  rfl

/-- An entry of a gossip section sets the flag of a known node only as a report by the sender
that is followed by the count, so that the result on marks covers it. -/
theorem processGossip_sets_fail {sender : Name} {g : Gossip Name} {blacklisted : Bool}
    (hnode : s.nodes.lookup g.nodename = some node) (hfail : node.flags.fail = false)
    (hset : ((processGossip s sender g blacklisted).nodes.lookup g.nodename).any
      (·.flags.fail) = true) :
    processGossip s sender g blacklisted =
      step (step s (.addReport g.nodename sender)) (.mark g.nodename) := by
  -- a count at the end of the entry leaves the flags alone
  have hcount : ∀ (c : Prop) [Decidable c] (n : ClusterNode Name),
      (if c then (clusterNodeFailureReportsCount s n).1 else n).flags = n.flags := by
    intro c _ n
    split_ifs <;> rfl
  simp only [processGossip, hnode] at hset ⊢
  rw [State.put, lookup_insert, Option.any_some, hcount] at hset
  split_ifs at hset with htold hfailing
  · have hname : g.nodename ≠ s.myself := by simp_all
    rw [step, step, modify_of_lookup _ hnode, modify_of_lookup _ (lookup_insert s.nodes),
      mark_put hname, State.put, State.put, State.put, insert_insert]
    simp only [htold, hfailing, if_true]
    rfl
  · rw [flags_del, hfail] at hset
    cases hset
  · rw [hfail] at hset
    cases hset

end Gossip

/-- In any run, a node is marked as failing on the word of a majority of the masters that serve
a slot, as long as only such masters are counted. -/
theorem fail_needs_majority [DecidableEq Name] (myself : Name) (timeout now : Int)
    (events : List (Event Name)) (s : State Name) (name : Name) (node : ClusterNode Name)
    (hrun : events.foldl step (State.initial myself timeout now) = s)
    (hnode : s.nodes.lookup name = some node) (hsize : s.size = s.masters.length)
    (htrusted : s.Trusted node) (hfail : node.flags.fail = false)
    (hmarked : (markNodeAsFailingIfNeeded s node).flags.fail = true) : s.Majority node := by
  have hdistinct : s.Distinct := hrun ▸ distinct_run events (distinct_initial myself timeout now)
  obtain ⟨hpfail, hquorum⟩ := mark_sets_fail hfail hmarked
  have hcounted := (counted_nodup htrusted (hdistinct name node hnode)).length_le_of_subset
    (counted_subset htrusted hpfail)
  rw [State.Majority]
  omega

/-- Three masters with slots, the last of them timed out, and a fourth with `numslots` slots
that reports the failure. -/
def reportedByFourth (numslots : Nat) : List (Event (Fin 4)) :=
  let up : Flags := ⟨true, false, false, false⟩
  [.change 0 up 1 0, .addNode 1 up, .change 1 up 1 0, .addNode 2 up,
    .change 2 ⟨true, true, false, false⟩ 1 1, .addNode 3 up, .change 3 up numslots 0,
    .updateState false, .addReport 2 3]

/-- The fourth serves a slot: two of the four masters and this node are three. -/
theorem fail_needs_majority_fourth :
    let s := (reportedByFourth 1 ++ [Event.addReport 2 1]).foldl step (State.initial 0 1000 0)
    ∃ node, s.nodes.lookup 2 = some node ∧ (markNodeAsFailingIfNeeded s node).flags.fail = true ∧
      s.Majority node := by
  refine ⟨_, rfl, by decide, ?_⟩
  refine fail_needs_majority 0 1000 0 _ _ 2 _ rfl rfl (by decide) ⟨?_, by decide⟩ (by decide)
    (by decide)
  decide

/-- A master without slots reports a node, which is marked as failing though only one of the
three masters with slots speaks for it. -/
theorem slotless_master_counted :
    let s := (reportedByFourth 0).foldl step (State.initial 0 1000 0)
    ∃ node, s.nodes.lookup 2 = some node ∧ s.size = s.masters.length ∧ node.flags.fail = false ∧
      (markNodeAsFailingIfNeeded s node).flags.fail = true ∧ ¬ s.Majority node := by
  refine ⟨_, rfl, by decide, by decide, by decide, ?_⟩
  rw [State.Majority]
  decide

end Redis.Cluster.FailureReports
