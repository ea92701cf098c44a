import Redis.Cluster.Packets
import Redis.Library.Simulation

/-! Who owns a slot, in the table of a node that hears the announcements of the masters in
some order. -/
namespace Redis.Cluster

open List Function

section Update

variable {j : Nat}
variable {Node : Type} {s s' : SlotState Node} {sender : Node} {e : Nat}

/-- The bitmaps agree with the table, the node itself serves and imports nothing, and it is a
master or has one. -/
structure Table (s : SlotState Node) : Prop where
  agree : ∀ n j, j ∈ (s.nodes n).slots ↔ s.slots j = some n
  foreign : ∀ j, s.slots j ≠ some s.myself
  importing : ∀ j, s.importingSlotsFrom j = none
  role : (s.nodes s.myself).isMaster = true ∨ (s.nodes s.myself).slaveof.isSome = true

/-- What an update of the slots leaves as it was. -/
structure SameNodes (s s' : SlotState Node) : Prop where
  myself : s'.myself = s.myself
  known : s'.known = s.known
  configEpoch : ∀ n, (s'.nodes n).configEpoch = (s.nodes n).configEpoch
  handshake : ∀ n, (s'.nodes n).handshake = (s.nodes n).handshake

theorem SameNodes.refl (s : SlotState Node) : SameNodes s s := ⟨rfl, rfl, fun _ => rfl, fun _ => rfl⟩

theorem SameNodes.trans {s'' : SlotState Node} (h : SameNodes s s') (h' : SameNodes s' s'') :
    SameNodes s s'' where
  myself := h'.myself.trans h.myself
  known := h'.known.trans h.known
  configEpoch := fun n => (h'.configEpoch n).trans (h.configEpoch n)
  handshake := fun n => (h'.handshake n).trans (h.handshake n)

/-- The owner of a slot after a claim of it. -/
def claimOwner (s : SlotState Node) (sender : Node) (e j : Nat) : Option Node :=
  if yields s e j then some sender else s.slots j

theorem claimOwner_of_owner (h : s.slots j = some sender) :
    claimOwner s sender e j = some sender := by
  rw [claimOwner, h]
  split_ifs <;> rfl

theorem claimOwner_congr (h : SameNodes s s') (hslots : s'.slots j = s.slots j) :
    claimOwner s' sender e j = claimOwner s sender e j := by
  have hyields : yields s' e j = yields s e j := by
    simp only [yields, hslots, h.configEpoch]
  rw [claimOwner, claimOwner, hyields, hslots]

theorem Table.congr (h : Table s) (hslots : s'.slots = s.slots)
    (hmyself : s'.myself = s.myself) (himporting : s'.importingSlotsFrom = s.importingSlotsFrom)
    (hbits : ∀ n, (s'.nodes n).slots = (s.nodes n).slots)
    (hmaster : (s'.nodes s.myself).isMaster = (s.nodes s.myself).isMaster)
    (hslaveof : (s'.nodes s.myself).slaveof = (s.nodes s.myself).slaveof) : Table s' := by
  refine ⟨fun n j => ?_, fun j => ?_, fun j => ?_, ?_⟩
  · rw [hbits, hslots]
    exact h.agree n j
  · rw [hslots, hmyself]
    exact h.foreign j
  · rw [himporting]
    exact h.importing j
  · rw [hmyself, hmaster, hslaveof]
    exact h.role

variable [DecidableEq Node]

/-- Writing a slot and the bitmap of one node, with all else kept. -/
theorem SameNodes.write (s : SlotState Node) (n : Node) (slots : List Nat) (j : Nat)
    (owner : Option Node) :
    SameNodes s ((s.setNode n { s.nodes n with slots := slots }).setSlot j owner) :=
  ⟨rfl, rfl, update_proj ClusterNode.configEpoch rfl, update_proj ClusterNode.handshake rfl⟩

theorem Table.write (h : Table s) {n : Node} {slots : List Nat} {owner : Option Node}
    (hforeign : owner ≠ some s.myself) (hbit : j ∈ slots ↔ owner = some n)
    (hbits : ∀ i, i ≠ j → (i ∈ slots ↔ i ∈ (s.nodes n).slots))
    (hold : ∀ m, m ≠ n → s.slots j ≠ some m ∧ owner ≠ some m) :
    Table ((s.setNode n { s.nodes n with slots := slots }).setSlot j owner) := by
  refine ⟨fun m i => ?_, fun i => ?_, h.importing, ?_⟩
  · have hagree := h.agree m i
    rcases eq_or_ne m n with rfl | hm
    · rcases eq_or_ne i j with rfl | hi
      · simpa [SlotState.setNode, SlotState.setSlot] using hbit
      · simpa [SlotState.setNode, SlotState.setSlot, update_of_ne hi, hbits i hi]
          using hagree
    · obtain ⟨hbefore, hafter⟩ := hold m hm
      rcases eq_or_ne i j with rfl | hi
      · simp [SlotState.setNode, SlotState.setSlot, update_of_ne hm, hagree, hbefore, hafter]
      · simpa [SlotState.setNode, SlotState.setSlot, update_of_ne hm,
          update_of_ne hi] using hagree
  · rcases eq_or_ne i j with rfl | hi
    · simpa [SlotState.setNode, SlotState.setSlot] using hforeign
    · simpa [SlotState.setNode, SlotState.setSlot, update_of_ne hi] using h.foreign i
  · rcases eq_or_ne s.myself n with rfl | hm
    · simpa [SlotState.setNode, SlotState.setSlot] using h.role
    · simpa [SlotState.setNode, SlotState.setSlot, update_of_ne hm] using h.role

theorem Table.del (h : Table s) (j : Nat) :
    ∃ s₁, clusterDelSlot s j = some s₁ ∧ Table s₁ ∧ SameNodes s s₁ ∧
      s₁.slots = update s.slots j none := by
  cases howner : s.slots j with
  | none =>
    refine ⟨s, by rw [clusterDelSlot, howner], h, .refl s, ?_⟩
    rw [← howner, update_eq_self]
  | some n =>
    have hbit : j ∈ (s.nodes n).slots := (h.agree n j).mpr howner
    simp only [clusterDelSlot, howner, if_pos hbit, clusterNodeClearSlotBit]
    refine ⟨_, rfl, ?_, .write s n _ j none, rfl⟩
    apply h.write
    · simp
    · simp
    · intro i hi
      simp [hi]
    · intro m hm
      simp [howner, hm.symm]

theorem Table.add (h : Table s) (hother : sender ≠ s.myself) (hfree : s.slots j = none) :
    Table (clusterAddSlot s sender j) ∧ SameNodes s (clusterAddSlot s sender j) ∧
      (clusterAddSlot s sender j).slots = update s.slots j (some sender) := by
  have hbit : j ∉ (s.nodes sender).slots := by simp [h.agree, hfree]
  have hadd : clusterAddSlot s sender j =
      (s.setNode sender { s.nodes sender with slots := j :: (s.nodes sender).slots }).setSlot j
        (some sender) := by
    simp [clusterAddSlot, hfree, clusterNodeSetSlotBit, hbit]
  rw [hadd]
  refine ⟨?_, .write s sender _ j _, rfl⟩
  apply h.write
  · simpa using hother
  · simp
  · intro i hi
    simp [hi]
  · intro m hm
    simp [hfree, hm.symm]

theorem updateSlot_spec {scan : SlotScan Node} (h : Table scan.state)
    (hother : sender ≠ scan.state.myself) (curmaster : Option Node) (j : Nat) :
    ∃ scan', updateSlot curmaster sender e scan j = some scan' ∧ Table scan'.state ∧
      SameNodes scan.state scan'.state ∧
      scan'.state.slots = update scan.state.slots j (claimOwner scan.state sender e j) := by
  rw [updateSlot]
  by_cases hmine : scan.state.slots j = some sender
  · rw [if_pos hmine]
    refine ⟨scan, rfl, h, .refl _, ?_⟩
    rw [claimOwner_of_owner hmine, ← hmine, update_eq_self]
  · rw [if_neg hmine, if_neg (by simp [h.importing])]
    cases hyields : yields scan.state e j with
    | false =>
      refine ⟨scan, by simp, h, .refl _, ?_⟩
      rw [claimOwner, hyields, if_neg Bool.false_ne_true, update_eq_self]
    | true =>
      obtain ⟨s₁, hdel, htable, hsame, hslots⟩ := h.del j
      have hfree : s₁.slots j = none := by rw [hslots, update_self]
      obtain ⟨htable', hsame', hslots'⟩ := htable.add (hsame.myself ▸ hother) hfree
      rw [if_pos rfl, hdel]
      refine ⟨_, rfl, htable', hsame.trans hsame', ?_⟩
      rw [hslots', hslots, claimOwner, hyields, if_pos rfl, update_idem]

/-- The loop over claimed slots. -/
theorem updateSlots_spec (js : List Nat) (hnodup : js.Nodup) (scan : SlotScan Node)
    (h : Table scan.state) (hother : sender ≠ scan.state.myself) (curmaster : Option Node) :
    ∃ scan', js.foldlM (updateSlot curmaster sender e) scan = some scan' ∧ Table scan'.state ∧
      SameNodes scan.state scan'.state ∧
      ∀ j, scan'.state.slots j =
        if j ∈ js then claimOwner scan.state sender e j else scan.state.slots j := by
  induction js generalizing scan with
  | nil => exact ⟨scan, rfl, h, .refl _, fun j => by simp⟩
  | cons i js ih =>
    obtain ⟨hi, hnodup⟩ := nodup_cons.mp hnodup
    obtain ⟨scan₁, hstep, htable, hsame, hslots⟩ := updateSlot_spec (e := e) h hother curmaster i
    obtain ⟨scan₂, hrest, htable', hsame', hslots'⟩ :=
      ih hnodup scan₁ htable (hsame.myself ▸ hother)
    refine ⟨scan₂, ?_, htable', hsame.trans hsame', fun j => ?_⟩
    · rw [foldlM_cons, hstep]
      exact hrest
    · rw [hslots' j]
      rcases eq_or_ne j i with rfl | hj
      · rw [if_neg hi, if_pos mem_cons_self, hslots, update_self]
      · have hkept : scan₁.state.slots j = scan.state.slots j := by
          rw [hslots, update_of_ne hj]
        simp only [mem_cons, hj, false_or, claimOwner_congr hsame hkept, hkept]

theorem clusterSetMaster_spec (h : Table s) (hother : sender ≠ s.myself) :
    ∃ s', clusterSetMaster s sender = some s' ∧ Table s' ∧ SameNodes s s' ∧ s'.slots = s.slots := by
  have hnone : (s.nodes s.myself).slots = [] := by
    apply eq_nil_iff_forall_not_mem.mpr
    intro j hj
    exact h.foreign j ((h.agree _ j).mp hj)
  have hallowed : ¬ (sender = s.myself ∨ (s.nodes s.myself).numslots ≠ 0) := by
    simp [hother, ClusterNode.numslots, hnone]
  simp only [clusterSetMaster, if_neg hallowed]
  refine ⟨_, rfl, ⟨fun n j => ?_, h.foreign, fun j => ?_, ?_⟩, ⟨rfl, rfl,
    update_proj ClusterNode.configEpoch rfl, update_proj ClusterNode.handshake rfl⟩, rfl⟩
  · have hbits := update_proj (g := s.nodes) (a := s.myself)
      (b := { s.nodes s.myself with isMaster := false, slaveof := some sender })
      ClusterNode.slots rfl n
    exact (iff_of_eq (congrArg (j ∈ ·) hbits)).trans (h.agree n j)
  · split_ifs
    · rfl
    · exact h.importing j
  · simp [SlotState.setNode]

/-- A change of master changes nothing about the slots. -/
theorem followSlots_spec {scan : SlotScan Node} (h : Table scan.state)
    (hother : sender ≠ scan.state.myself) (master : Node) :
    ∃ s', followSlots (some master) sender scan = some s' ∧ Table s' ∧ SameNodes scan.state s' ∧
      s'.slots = scan.state.slots := by
  have hkeys : Table (delKeysInSlots scan.state scan.dirtySlots) :=
    ⟨h.agree, h.foreign, h.importing, h.role⟩
  have hsame : SameNodes scan.state (delKeysInSlots scan.state scan.dirtySlots) :=
    ⟨rfl, rfl, fun _ => rfl, fun _ => rfl⟩
  unfold followSlots
  cases scan.newmaster with
  | none => exact ⟨_, rfl, hkeys, hsame, rfl⟩
  | some newmaster =>
    dsimp only
    split_ifs with hnone
    · exact clusterSetMaster_spec h hother
    · exact ⟨_, rfl, hkeys, hsame, rfl⟩

theorem clusterUpdateSlotsConfigWith_spec (h : Table s) (hother : sender ≠ s.myself) (e : Nat)
    (slots : List Nat) :
    ∃ s', clusterUpdateSlotsConfigWith s sender e slots = some s' ∧ Table s' ∧ SameNodes s s' ∧
      ∀ j, s'.slots j =
        if j < clusterSlots ∧ j ∈ slots then claimOwner s sender e j else s.slots j := by
  obtain ⟨master, hmaster⟩ : ∃ master, (if (s.nodes s.myself).isMaster = true then some s.myself
      else (s.nodes s.myself).slaveof) = some master := by
    rcases h.role with hmaster | hslave
    · exact ⟨s.myself, if_pos hmaster⟩
    · split_ifs
      · exact ⟨_, rfl⟩
      · exact Option.isSome_iff_exists.mp hslave
  have hnodup : ((List.range clusterSlots).filter (· ∈ slots)).Nodup := nodup_range.filter _
  obtain ⟨scan, hloop, htable, hsame, hslots⟩ := updateSlots_spec (e := e) _ hnodup
    ⟨s, none, []⟩ h hother (some master)
  have howners : ∀ j, scan.state.slots j =
      if j < clusterSlots ∧ j ∈ slots then claimOwner s sender e j else s.slots j := by
    intro j
    rw [hslots j]
    simp only [mem_filter, mem_range, decide_eq_true_eq]
  simp only [clusterUpdateSlotsConfigWith, if_neg hother, hmaster, hloop, Option.bind_eq_bind,
    Option.bind_some]
  split_ifs
  · exact ⟨_, rfl, htable, hsame, howners⟩
  · obtain ⟨s', hfollow, htable', hsame', hkept⟩ :=
      followSlots_spec htable (hsame.myself ▸ hother) master
    refine ⟨s', hfollow, htable', hsame.trans hsame', fun j => ?_⟩
    rw [hkept]
    exact howners j

end Update

/-! ### Announcements -/

section Announcement

variable {Node : Type} [LinearOrder Node] {s : SlotState Node} {hdr : ClusterMsg Node}

theorem slotsDiffer_eq_false {a b : List Nat} (h : slotsDiffer a b = false) {j : Nat}
    (hj : j < clusterSlots) : j ∈ a ↔ j ∈ b := by
  have hsame := any_eq_false.mp h j (mem_range.mpr hj)
  simpa using hsame

/-- What a node knows about the owner of one slot. -/
structure SlotView (Node : Type) where
  owner : Option Node
  epochs : Node → Nat

/-- An announcement changes the epoch of its sender, and gives it a slot that it claims and
whose owner has a smaller epoch. -/
def SlotView.hear (j : Nat) (v : SlotView Node) (hdr : ClusterMsg Node) : SlotView Node where
  owner :=
    if j ∈ hdr.myslots ∧ v.owner.all (v.epochs · < hdr.configEpoch) then some hdr.sender else v.owner
  epochs := Function.update v.epochs hdr.sender (max (v.epochs hdr.sender) hdr.configEpoch)

/-- The table of a node and its epochs of other nodes are as in the view. -/
def Sees (s : SlotState Node) (j : Nat) (v : SlotView Node) : Prop :=
  s.slots j = v.owner ∧ ∀ n, n ≠ s.myself → (s.nodes n).configEpoch = v.epochs n

/-- A node that knows the sender, which is another one. -/
structure Hears (s : SlotState Node) (hdr : ClusterMsg Node) : Prop where
  known : s.known hdr.sender = true
  handshake : (s.nodes hdr.sender).handshake = false
  other : hdr.sender ≠ s.myself

/-- The state when the slots are looked at. -/
def noted (s : SlotState Node) (hdr : ClusterMsg Node) : SlotState Node :=
  clusterSetNodeAsMaster { s with toClusterState := noteEpochs s.toClusterState hdr } hdr.sender

theorem noted_node (s : SlotState Node) (hdr : ClusterMsg Node) :
    ∃ node : ClusterNode Node, (noted s hdr).nodes = update s.nodes hdr.sender node ∧
      node.slots = (s.nodes hdr.sender).slots ∧
      node.handshake = (s.nodes hdr.sender).handshake ∧
      node.configEpoch = max (s.nodes hdr.sender).configEpoch hdr.configEpoch := by
  rw [noted, clusterSetNodeAsMaster]
  split_ifs
  · exact ⟨_, rfl, rfl, rfl, rfl⟩
  · refine ⟨{ (noteEpochs s.toClusterState hdr).nodes hdr.sender with
      isMaster := true, slaveof := none }, ?_, ?_⟩
    · exact update_idem ..
    · simp [noteEpochs]

theorem noted_frame (s : SlotState Node) (hdr : ClusterMsg Node) :
    (noted s hdr).slots = s.slots ∧ (noted s hdr).myself = s.myself ∧
      (noted s hdr).importingSlotsFrom = s.importingSlotsFrom ∧ (noted s hdr).known = s.known := by
  rw [noted, clusterSetNodeAsMaster]
  split_ifs
  · exact ⟨rfl, rfl, rfl, rfl⟩
  · exact ⟨rfl, rfl, rfl, rfl⟩

theorem Table.noted (h : Table s) (hother : hdr.sender ≠ s.myself) : Table (noted s hdr) := by
  obtain ⟨node, hnodes, hbits, -⟩ := noted_node s hdr
  obtain ⟨hslots, hmyself, himporting, -⟩ := noted_frame s hdr
  apply h.congr hslots hmyself himporting
  · rw [hnodes]
    exact update_proj ClusterNode.slots hbits
  · rw [hnodes, update_of_ne hother.symm]
  · rw [hnodes, update_of_ne hother.symm]

/-- A collision changes the epochs of the node itself. -/
theorem resolveCollision_cases (s : ClusterState Node) (sender : Node) (e : Nat) :
    ∃ current epoch, resolveCollision s sender e =
      { s with
        currentEpoch := current
        nodes := update s.nodes s.myself
          { s.nodes s.myself with configEpoch := epoch } } := by
  have hsame : s = { s with
      currentEpoch := s.currentEpoch
      nodes := update s.nodes s.myself
        { s.nodes s.myself with configEpoch := (s.nodes s.myself).configEpoch } } := by
    rw [update_eq_self]
  unfold resolveCollision clusterHandleConfigEpochCollision
  dsimp only
  split_ifs
  · exact ⟨_, _, hsame⟩
  · exact ⟨_, _, hsame⟩
  · exact ⟨_, _, rfl⟩
  · exact ⟨_, _, hsame⟩

/-- The owner of a slot after the claims of an announcement were looked at. -/
theorem updated_spec (h : Table s) (hears : Hears s hdr) :
    ∃ s', (if slotsDiffer ((noted s hdr).nodes hdr.sender).slots hdr.myslots then
        clusterUpdateSlotsConfigWith (noted s hdr) hdr.sender hdr.configEpoch hdr.myslots
        else some (noted s hdr)) = some s' ∧ Table s' ∧ SameNodes (noted s hdr) s' ∧
      ∀ j < clusterSlots, s'.slots j =
        if j ∈ hdr.myslots then claimOwner (noted s hdr) hdr.sender hdr.configEpoch j
        else (noted s hdr).slots j := by
  have htable := h.noted hears.other
  have hother : hdr.sender ≠ (noted s hdr).myself := (noted_frame s hdr).2.1 ▸ hears.other
  cases hdiffer : slotsDiffer ((noted s hdr).nodes hdr.sender).slots hdr.myslots with
  | true =>
    obtain ⟨s', hupdate, htable', hsame, hslots⟩ :=
      clusterUpdateSlotsConfigWith_spec htable hother hdr.configEpoch hdr.myslots
    refine ⟨s', hupdate, htable', hsame, fun j hj => ?_⟩
    rw [hslots j]
    simp only [hj, true_and]
  | false =>
    refine ⟨_, rfl, htable, .refl _, fun j hj => ?_⟩
    split_ifs with hclaimed
    · -- the sender owns what it claims
      have hbit := (slotsDiffer_eq_false hdiffer hj).mpr hclaimed
      have howner := (htable.agree _ j).mp hbit
      rw [claimOwner_of_owner howner, howner]
    · rfl

theorem noted_owner (h : Table s) {j : Nat} {v : SlotView Node} (hsees : Sees s j v) :
    (if j ∈ hdr.myslots then claimOwner (noted s hdr) hdr.sender hdr.configEpoch j
      else (noted s hdr).slots j) = (v.hear j hdr).owner := by
  obtain ⟨node, hnodes, -⟩ := noted_node s hdr
  obtain ⟨hslots, -⟩ := noted_frame s hdr
  obtain ⟨howner, hepochs⟩ := hsees
  rw [hslots, SlotView.hear]
  by_cases hclaimed : j ∈ hdr.myslots
  · simp only [hclaimed, if_true, true_and, claimOwner, yields, hslots, howner]
    cases hv : v.owner with
    | none => simp
    | some n =>
      rcases eq_or_ne n hdr.sender with rfl | hsender
      · simp
      · have hforeign : n ≠ s.myself := by
          rintro rfl
          exact h.foreign j (howner.trans hv)
        simp [hnodes, update_of_ne hsender, hepochs n hforeign]
  · simp [hclaimed, howner]

theorem clusterProcessAnnouncement_spec (h : Table s) (hears : Hears s hdr) :
    ∃ s', clusterProcessAnnouncement s hdr = some s' ∧ Table s' ∧ s'.myself = s.myself ∧
      s'.known = s.known ∧ (∀ n, (s'.nodes n).handshake = (s.nodes n).handshake) ∧
      ∀ j < clusterSlots, ∀ v, Sees s j v → Sees s' j (v.hear j hdr) := by
  obtain ⟨s₁, hupdated, htable, hsame, howner⟩ := updated_spec h hears
  obtain ⟨current, epoch, hcollision⟩ :=
    resolveCollision_cases s₁.toClusterState hdr.sender hdr.configEpoch
  obtain ⟨node, hnodes, -, hhandshake, hepoch⟩ := noted_node s hdr
  obtain ⟨hslots, hmyself, -, hknown⟩ := noted_frame s hdr
  have hprocess : clusterProcessAnnouncement s hdr = some { s₁ with
      currentEpoch := current
      nodes := update s₁.nodes s₁.myself
        { s₁.nodes s₁.myself with configEpoch := epoch } } := by
    have hnoted : clusterSetNodeAsMaster
        { s with toClusterState := noteEpochs s.toClusterState hdr } hdr.sender = noted s hdr := rfl
    rw [clusterProcessAnnouncement, if_neg (by simp [hears.known])]
    simp only [hears.handshake, Bool.false_eq_true, if_false, hnoted, hupdated, Option.map_some,
      hcollision]
  refine ⟨_, hprocess, ?_, hsame.myself.trans hmyself, hsame.known.trans hknown, ?_, ?_⟩
  · refine htable.congr rfl rfl rfl (update_proj ClusterNode.slots rfl) ?_ ?_
    · simp
    · simp
  · intro n
    have hnoted := update_proj ClusterNode.handshake hhandshake n
    rw [← hnodes, ← hsame.handshake n] at hnoted
    rw [← hnoted]
    exact update_proj ClusterNode.handshake (by rfl) n
  · intro j hj v hsees
    refine ⟨?_, fun n hn => ?_⟩
    · exact (howner j hj).trans (noted_owner h hsees)
    · have hn' : n ≠ s₁.myself := hn
      have hother : n ≠ s.myself := by rwa [hsame.myself, hmyself] at hn'
      have hepoch₁ : (s₁.nodes n).configEpoch = (v.hear j hdr).epochs n := by
        rw [hsame.configEpoch, hnodes, SlotView.hear]
        rcases eq_or_ne n hdr.sender with rfl | hsender
        · simp [hepoch, hsees.2 _ hother]
        · simp [update_of_ne hsender, hsees.2 n hother]
      simpa [update_of_ne hn'] using hepoch₁

/-- A node processes announcements in this order. -/
def observe (s : SlotState Node) (l : List (ClusterMsg Node)) : Option (SlotState Node) :=
  l.foldlM clusterProcessAnnouncement s

theorem observe_sees (l : List (ClusterMsg Node)) (h : Table s) (hears : ∀ hdr ∈ l, Hears s hdr) :
    ∃ s', observe s l = some s' ∧
      ∀ j < clusterSlots, ∀ v, Sees s j v → Sees s' j (l.foldl (SlotView.hear j) v) := by
  induction l generalizing s with
  | nil => exact ⟨s, rfl, fun j _ v hv => hv⟩
  | cons hdr rest ih =>
    obtain ⟨s₁, hstep, htable, hmyself, hknown, hhandshake, hsees⟩ :=
      clusterProcessAnnouncement_spec h (hears hdr mem_cons_self)
    have hrest : ∀ hdr' ∈ rest, Hears s₁ hdr' := by
      intro hdr' hmem
      obtain ⟨hk, hh, ho⟩ := hears hdr' (mem_cons_of_mem _ hmem)
      exact ⟨hknown ▸ hk, (hhandshake _).trans hh, hmyself ▸ ho⟩
    obtain ⟨s₂, hloop, hsees'⟩ := ih htable hrest
    refine ⟨s₂, ?_, fun j hj v hv => hsees' j hj _ (hsees j hj v hv)⟩
    rw [observe, foldlM_cons, hstep]
    exact hloop

end Announcement

/-! ### Orders of arrival -/

section Arrival

variable {Node : Type} [LinearOrder Node] {sent l : List (ClusterMsg Node)} {j e : Nat}
  {s : SlotState Node} {v : SlotView Node} {a : ClusterMsg Node} {m : Node}

/-- The announcements of one master, in its own order. -/
def announcedBy (sent : List (ClusterMsg Node)) (m : Node) : List (ClusterMsg Node) :=
  sent.filter (·.sender = m)

def lastBy (sent : List (ClusterMsg Node)) (m : Node) : Option (ClusterMsg Node) :=
  (announcedBy sent m).getLast?

/-- All announcements arrive, those of one sender in its own order. -/
def Arrival (sent l : List (ClusterMsg Node)) : Prop := ∀ m, announcedBy l m = announcedBy sent m

/-- A node that starts with an empty table and imports nothing. It knows the senders, which
are other nodes, by an epoch that is not ahead of what they announce. -/
structure Observer (s : SlotState Node) (sent : List (ClusterMsg Node)) : Prop where
  slots : ∀ j, s.slots j = none
  bitmaps : ∀ n, (s.nodes n).slots = []
  importing : ∀ j, s.importingSlotsFrom j = none
  role : (s.nodes s.myself).isMaster = true ∨ (s.nodes s.myself).slaveof.isSome = true
  hears : ∀ a ∈ sent, Hears s a
  behind : ∀ m a, lastBy sent m = some a → (s.nodes m).configEpoch ≤ a.configEpoch

/-- The claimant of a slot with the greatest last epoch. -/
def Winner (sent : List (ClusterMsg Node)) (j : Nat) (m : Node) : Prop :=
  ∃ a, lastBy sent m = some a ∧ j ∈ a.myslots ∧
    ∀ m' a', lastBy sent m' = some a' → j ∈ a'.myslots → a'.configEpoch ≤ a.configEpoch

/-- Any two observers agree on the slots that are claimed in the end. -/
def Converges (sent : List (ClusterMsg Node)) : Prop :=
  ∀ s s' l l', Observer s sent → Observer s' sent → Arrival sent l → Arrival sent l' →
    ∃ t t', observe s l = some t ∧ observe s' l' = some t' ∧
      ∀ j < clusterSlots, (∃ m a, lastBy sent m = some a ∧ j ∈ a.myslots) →
        ∃ m, Winner sent j m ∧ t.slots j = some m ∧ t'.slots j = some m

/-- No master has ever claimed a slot and then ended with an epoch above the one of the
slot's last claimants. -/
def NoneAbandoned (sent : List (ClusterMsg Node)) : Prop :=
  ∀ j < clusterSlots, ∀ m a, Winner sent j m → lastBy sent m = some a →
    ∀ b ∈ sent, j ∈ b.myslots → ∀ c, lastBy sent b.sender = some c → c.configEpoch ≤ a.configEpoch

theorem mem_announcedBy :
    a ∈ announcedBy sent m ↔ a ∈ sent ∧ a.sender = m := by
  simp [announcedBy]

theorem Arrival.mem_iff (h : Arrival sent l) (a : ClusterMsg Node) : a ∈ l ↔ a ∈ sent := by
  have ha : a ∈ announcedBy l a.sender ↔ a ∈ announcedBy sent a.sender := by rw [h]
  simpa [mem_announcedBy] using ha

theorem lastBy_mem (h : lastBy sent m = some a) :
    a ∈ sent ∧ a.sender = m :=
  mem_announcedBy.mp (mem_of_getLast? h)

/-- The last announcement of a master, and none of its own behind it. -/
theorem lastBy_split (h : lastBy sent m = some a) :
    ∃ before after, sent = before ++ a :: after ∧ ∀ b ∈ after, b.sender ≠ m := by
  obtain ⟨init, hinit⟩ := getLast?_eq_some_iff.mp h
  obtain ⟨l₁, l₂, rfl, -, hlast⟩ := filter_eq_append_iff.mp hinit
  obtain ⟨l₃, l₄, rfl, -, -, hafter⟩ := filter_eq_cons_iff.mp hlast
  refine ⟨l₁ ++ l₃, l₄, by simp, fun b hb => ?_⟩
  have hnot := filter_eq_nil_iff.mp hafter b hb
  simpa using hnot

theorem exists_winner (h : ∃ m a, lastBy sent m = some a ∧ j ∈ a.myslots) :
    ∃ m, Winner sent j m := by
  have hfinite : {a | a ∈ sent ∧ lastBy sent a.sender = some a ∧ j ∈ a.myslots}.Finite :=
    (finite_toSet sent).subset fun a ha => ha.1
  obtain ⟨m, a, hlast, hclaims⟩ := h
  obtain ⟨hmem, rfl⟩ := lastBy_mem hlast
  obtain ⟨b, ⟨-, hb, hbclaims⟩, hmax⟩ :=
    Set.exists_max_image _ (·.configEpoch) hfinite ⟨a, hmem, hlast, hclaims⟩
  refine ⟨b.sender, b, hb, hbclaims, fun m' a' hlast' hclaims' => ?_⟩
  obtain ⟨hmem', rfl⟩ := lastBy_mem hlast'
  exact hmax a' ⟨hmem', hlast', hclaims'⟩

/-! ### Views -/

/-- The owner has claimed the slot, and no epoch is ahead of what its node announces. -/
structure Heard (sent : List (ClusterMsg Node)) (j : Nat) (v : SlotView Node) : Prop where
  claimed : ∀ m, v.owner = some m → ∃ b ∈ sent, b.sender = m ∧ j ∈ b.myslots
  behind : ∀ m a, lastBy sent m = some a → v.epochs m ≤ a.configEpoch

section Epochs

variable (hmono : ∀ m, (announcedBy sent m).Pairwise (·.configEpoch ≤ ·.configEpoch))
include hmono

/-- No announcement has a greater epoch than the last one of its sender. -/
theorem le_lastBy (ha : a ∈ sent) :
    ∃ c, lastBy sent a.sender = some c ∧ a.configEpoch ≤ c.configEpoch := by
  have hmem : a ∈ announcedBy sent a.sender := mem_announcedBy.mpr ⟨ha, rfl⟩
  obtain ⟨init, c, hsplit⟩ := (eq_nil_or_concat' _).resolve_left (ne_nil_of_mem hmem)
  have hlast : lastBy sent a.sender = some c := by rw [lastBy, hsplit, getLast?_append]; rfl
  refine ⟨c, hlast, ?_⟩
  have hpairwise := hmono a.sender
  rw [hsplit] at hmem hpairwise
  rcases mem_append.mp hmem with hinit | hsingle
  · exact (pairwise_append.mp hpairwise).2.2 a hinit c (by simp)
  · rw [mem_singleton.mp hsingle]

theorem Heard.hear (h : Heard sent j v) (ha : a ∈ sent) :
    Heard sent j (v.hear j a) := by
  refine ⟨fun m hm => ?_, fun m b hb => ?_⟩
  · rw [SlotView.hear] at hm
    split_ifs at hm with hgiven
    · exact ⟨a, ha, Option.some.inj hm, hgiven.1⟩
    · exact h.claimed m hm
  · rw [SlotView.hear]
    rcases eq_or_ne m a.sender with rfl | hm
    · obtain ⟨c, hc, hle⟩ := le_lastBy hmono ha
      obtain rfl : c = b := Option.some.inj (hc.symm.trans hb)
      simpa using ⟨h.behind _ _ hb, hle⟩
    · simpa [update_of_ne hm] using h.behind m b hb

theorem Heard.foldl (l : List (ClusterMsg Node)) (h : Heard sent j v)
    (hl : ∀ a ∈ l, a ∈ sent) : Heard sent j (l.foldl (SlotView.hear j) v) := by
  induction l generalizing v with
  | nil => exact h
  | cons a rest ih =>
    exact ih (h.hear hmono (hl a mem_cons_self)) fun b hb => hl b (mem_cons_of_mem _ hb)

end Epochs

/-- An owner stays, with at least its epoch, while all claims have at most this epoch. -/
theorem foldl_keeps_owner (l : List (ClusterMsg Node))
    (howner : v.owner = some m) (hepoch : e ≤ v.epochs m)
    (hl : ∀ b ∈ l, j ∈ b.myslots → b.configEpoch ≤ e) :
    (l.foldl (SlotView.hear j) v).owner = some m := by
  induction l generalizing v with
  | nil => exact howner
  | cons b rest ih =>
    apply ih
    · rw [SlotView.hear]
      rw [if_neg, howner]
      rintro ⟨hclaims, hlt⟩
      have hle := hl b mem_cons_self hclaims
      rw [howner, Option.all_some, decide_eq_true_eq] at hlt
      omega
    · rw [SlotView.hear]
      rcases eq_or_ne m b.sender with rfl | hm
      · simp [hepoch]
      · simpa [update_of_ne hm] using hepoch
    · exact fun b' hb' => hl b' (mem_cons_of_mem _ hb')

/-- In whatever order the announcements arrive, the winner gets the slot. -/
theorem winner_owns (hmono : ∀ m, (announcedBy sent m).Pairwise (·.configEpoch ≤ ·.configEpoch))
    (hdistinct : ∀ m m' a a', lastBy sent m = some a → lastBy sent m' = some a' →
      a.configEpoch = a'.configEpoch → m = m')
    (hnone : NoneAbandoned sent) (hj : j < clusterSlots) (hwinner : Winner sent j m)
    (hv : Heard sent j v) (harrival : Arrival sent l) :
    (l.foldl (SlotView.hear j) v).owner = some m := by
  obtain ⟨a, hlast, hclaims, hmax⟩ := hwinner
  have hlimit := hnone j hj m a ⟨a, hlast, hclaims, hmax⟩ hlast
  have hlast' : lastBy l m = some a := by rw [lastBy, harrival m]; exact hlast
  obtain ⟨before, after, rfl, hafter⟩ := lastBy_split hlast'
  obtain ⟨hmem, rfl⟩ := lastBy_mem hlast
  have hsent : ∀ b ∈ before ++ a :: after, b ∈ sent := fun b hb => (harrival.mem_iff b).mp hb
  rw [foldl_append, foldl_cons]
  have hheard := hv.foldl hmono before fun b hb => hsent b (mem_append_left _ hb)
  generalize before.foldl (SlotView.hear j) v = u at hheard
  have htaken : (u.hear j a).owner = some a.sender := by
    rw [SlotView.hear]
    by_cases hgiven : u.owner.all (u.epochs · < a.configEpoch) = true
    · rw [if_pos ⟨hclaims, hgiven⟩]
    · rw [if_neg fun h => hgiven h.2]
      cases howner : u.owner with
      | none => simp [howner] at hgiven
      | some x =>
        rw [howner, Option.all_some, decide_eq_true_eq, not_lt] at hgiven
        obtain ⟨b, hb, rfl, hbclaims⟩ := hheard.claimed x howner
        obtain ⟨c, hc, -⟩ := le_lastBy hmono hb
        have hupper := hlimit b hb hbclaims c hc
        have hlower := hheard.behind _ _ hc
        rw [hdistinct _ _ c a hc hlast (by omega)]
  apply foldl_keeps_owner (e := a.configEpoch) after htaken
  · simp [SlotView.hear]
  · intro b hb hbclaims
    have hbsent := hsent b (mem_append_right _ (mem_cons_of_mem _ hb))
    obtain ⟨c, hc, hle⟩ := le_lastBy hmono hbsent
    exact hle.trans (hlimit b hbsent hbclaims c hc)

theorem le_hear_epochs (v : SlotView Node) (a : ClusterMsg Node) (m : Node) :
    v.epochs m ≤ (v.hear j a).epochs m := by
  rw [SlotView.hear]
  rcases eq_or_ne m a.sender with rfl | hm
  · simp
  · simp [update_of_ne hm]

section

variable (l)

theorem le_foldl_epochs (v : SlotView Node) (m : Node) :
    v.epochs m ≤ (l.foldl (SlotView.hear j) v).epochs m := by
  induction l generalizing v with
  | nil => exact le_rfl
  | cons a rest ih => exact (le_hear_epochs v a m).trans (ih _)

theorem configEpoch_le_foldl (v : SlotView Node)
    (ha : a ∈ l) : a.configEpoch ≤ (l.foldl (SlotView.hear j) v).epochs a.sender := by
  obtain ⟨before, after, rfl⟩ := append_of_mem ha
  rw [foldl_append, foldl_cons]
  apply le_trans _ (le_foldl_epochs after _ a.sender)
  simp [SlotView.hear]

/-- A claimant that is heard first and alone owns the slot. -/
theorem foldl_alone {x : Node} (hl : ∀ a ∈ l, a.sender = x) (hv : ∀ m, v.owner = some m → m = x)
    (hclaims : v.owner = some x ∨ ∃ b ∈ l, j ∈ b.myslots) :
    (l.foldl (SlotView.hear j) v).owner = some x := by
  induction l generalizing v with
  | nil => simpa using hclaims
  | cons a rest ih =>
    have hsender := hl a mem_cons_self
    have howner : (v.hear j a).owner = some x ∨ (v.hear j a).owner = v.owner ∧
        (j ∈ a.myslots → v.owner = some x) := by
      rw [SlotView.hear]
      split_ifs with hgiven
      · exact .inl (congrArg some hsender)
      · refine .inr ⟨rfl, fun hclaim => ?_⟩
        cases hv' : v.owner with
        | none => simp [hclaim, hv'] at hgiven
        | some m => rw [hv m hv']
    apply ih fun b hb => hl b (mem_cons_of_mem _ hb)
    · intro m hm
      rcases howner with hx | ⟨hkept, -⟩
      · exact Option.some.inj (hm.symm.trans hx)
      · exact hv m (hkept ▸ hm)
    · rcases howner with hx | ⟨hkept, hmine⟩
      · exact .inl hx
      · rcases hclaims with hx | ⟨b, hb, hclaim⟩
        · exact .inl (hkept.trans hx)
        · rcases mem_cons.mp hb with rfl | hb
          · exact .inl (hkept.trans (hmine hclaim))
          · exact .inr ⟨b, hb, hclaim⟩

/-- The slot has an owner with a greater epoch. -/
def Outbid (e : Nat) (v : SlotView Node) : Prop := ∃ y, v.owner = some y ∧ e < v.epochs y

theorem Outbid.foldl (h : Outbid e v) :
    Outbid e (l.foldl (SlotView.hear j) v) := by
  induction l generalizing v with
  | nil => exact h
  | cons a rest ih =>
    apply ih
    obtain ⟨y, howner, hlt⟩ := h
    by_cases hgiven : j ∈ a.myslots ∧ v.owner.all (v.epochs · < a.configEpoch) = true
    · have hgreater := hgiven.2
      rw [howner, Option.all_some, decide_eq_true_eq] at hgreater
      refine ⟨a.sender, by rw [SlotView.hear, if_pos hgiven], ?_⟩
      have hnew : a.configEpoch ≤ (v.hear j a).epochs a.sender := by simp [SlotView.hear]
      omega
    · exact ⟨y, by rw [SlotView.hear, if_neg hgiven, howner],
        hlt.trans_le (le_hear_epochs v a y)⟩

end

/-! ### Observers -/

theorem Observer.table (h : Observer s sent) : Table s where
  agree := fun n i => by simp [h.bitmaps, h.slots]
  foreign := fun i => by simp [h.slots]
  importing := h.importing
  role := h.role

/-- What an observer ends with, slot by slot. -/
theorem Observer.observe (h : Observer s sent) (harrival : Arrival sent l) :
    ∃ t v, observe s l = some t ∧ v.owner = none ∧ (∀ j, Heard sent j v) ∧
      ∀ j < clusterSlots, t.slots j = (l.foldl (SlotView.hear j) v).owner := by
  obtain ⟨t, hobserve, hsees⟩ := observe_sees l h.table
    fun a ha => h.hears a ((harrival.mem_iff a).mp ha)
  refine ⟨t, ⟨none, fun n => (s.nodes n).configEpoch⟩, hobserve, rfl,
    fun j => ⟨by simp, h.behind⟩, fun j hj => ?_⟩
  exact (hsees j hj _ ⟨h.slots j, fun _ _ => rfl⟩).1

/-- An observer that knows nothing but the senders. -/
def newcomer (me : Node) : SlotState Node where
  size := 0
  known := fun _ => true
  nodes := fun _ => ⟨true, none, false, false, true, [], 0, 0⟩
  slots := fun _ => none
  mfEnd := 0
  mfCanStart := false
  myself := me
  currentEpoch := 0
  lastVoteEpoch := 0
  failoverAuthTime := 0
  failoverAuthCount := 0
  failoverAuthSent := false
  failoverAuthRank := 0
  failoverAuthEpoch := 0
  importingSlotsFrom := fun _ => none
  slotsKeysCount := fun _ => 0
  noRedirection := false

theorem newcomer_observer {me : Node} (hme : ∀ a ∈ sent, a.sender ≠ me) :
    Observer (newcomer me) sent where
  slots := fun _ => rfl
  bitmaps := fun _ => rfl
  importing := fun _ => rfl
  role := .inl rfl
  hears := fun a ha => ⟨rfl, rfl, hme a ha⟩
  behind := fun _ _ _ => Nat.zero_le _

/-- One sender before all others. -/
theorem arrival_first (sent : List (ClusterMsg Node)) (x : Node) :
    Arrival sent (announcedBy sent x ++ sent.filter (·.sender ≠ x)) := by
  intro m
  simp only [announcedBy, filter_append, filter_filter]
  rcases eq_or_ne m x with rfl | hm
  · simp
  · have hfirst : sent.filter (fun a => decide (a.sender = m) && decide (a.sender = x)) = [] := by
      apply filter_eq_nil_iff.mpr
      intro a _ ha
      simp only [Bool.and_eq_true, decide_eq_true_eq] at ha
      exact hm (ha.1.symm.trans ha.2)
    have hrest : sent.filter (fun a => decide (a.sender = m) && decide (a.sender ≠ x)) =
        sent.filter (fun a => decide (a.sender = m)) := by
      apply filter_congr
      intro a _
      by_cases ha : a.sender = m
      · simp [ha, hm]
      · simp [ha]
    rw [hfirst, hrest, nil_append]

end Arrival

/-- Masters announce their slots with epochs that do not decrease and are distinct in the end.
Any two observers agree on the owners, exactly if no master has claimed a slot and then gone
beyond the epoch of the slot's last claimants. -/
theorem slot_owners_converge_iff {Node : Type} [LinearOrder Node] (sent : List (ClusterMsg Node))
    (hmono : ∀ m, (announcedBy sent m).Pairwise (·.configEpoch ≤ ·.configEpoch))
    (hdistinct : ∀ m m' a a', lastBy sent m = some a → lastBy sent m' = some a' →
      a.configEpoch = a'.configEpoch → m = m')
    (hobserver : ∃ me, ∀ a ∈ sent, a.sender ≠ me) :
    Converges sent ↔ NoneAbandoned sent := by
  constructor
  · intro hconverges j hj m a hwinner hlast b hb hclaims c hc
    by_contra hgreater
    obtain ⟨me, hme⟩ := hobserver
    have harrival := arrival_first sent b.sender
    obtain ⟨t, t', hobserve, -, hagree⟩ := hconverges (newcomer me) (newcomer me) _ _
      (newcomer_observer hme) (newcomer_observer hme) harrival harrival
    obtain ⟨t₁, v, hobserve₁, hnone, hheard, hslots⟩ :=
      (newcomer_observer hme).observe harrival
    obtain rfl : t₁ = t := Option.some.inj (hobserve₁.symm.trans hobserve)
    obtain ⟨a₀, hlast₀, hclaims₀, hmax⟩ := hwinner
    obtain rfl : a₀ = a := Option.some.inj (hlast₀.symm.trans hlast)
    obtain ⟨m', ⟨a', hlast', hclaims', hmax'⟩, howner, -⟩ :=
      hagree j hj ⟨m, a₀, hlast, hclaims₀⟩
    have hcmem : c ∈ announcedBy sent b.sender := mem_of_getLast? hc
    have hbmem : b ∈ announcedBy sent b.sender := mem_announcedBy.mpr ⟨hb, rfl⟩
    -- the sender that went ahead is heard first, and nobody takes the slot for the winner
    have houtbid : Outbid a₀.configEpoch
        ((announcedBy sent b.sender).foldl (SlotView.hear j) v) := by
      refine ⟨b.sender, ?_, ?_⟩
      · exact foldl_alone _ (fun d hd => (mem_announcedBy.mp hd).2) (by simp [hnone])
          (.inr ⟨b, hbmem, hclaims⟩)
      · have hle := configEpoch_le_foldl (j := j) _ v hcmem
        rw [(lastBy_mem hc).2] at hle
        omega
    obtain ⟨y, hy, hepoch⟩ := houtbid.foldl (j := j) (sent.filter (·.sender ≠ b.sender))
    rw [hslots j hj, foldl_append, hy] at howner
    obtain rfl : y = m' := Option.some.inj howner
    have hfinal := (hheard j).foldl hmono (announcedBy sent b.sender ++ sent.filter (·.sender ≠ b.sender))
      fun d hd => (harrival.mem_iff d).mp hd
    have hbehind := hfinal.behind _ _ hlast'
    have hsame := hmax _ _ hlast' hclaims'
    rw [foldl_append] at hbehind
    omega
  · intro hnone s s' l l' hs hs' hl hl'
    obtain ⟨t, v, hobserve, -, hheard, hslots⟩ := hs.observe hl
    obtain ⟨t', v', hobserve', -, hheard', hslots'⟩ := hs'.observe hl'
    refine ⟨t, t', hobserve, hobserve', fun j hj hclaimed => ?_⟩
    obtain ⟨m, hwinner⟩ := exists_winner hclaimed
    refine ⟨m, hwinner, ?_, ?_⟩
    · rw [hslots j hj]
      exact winner_owns hmono hdistinct hnone hj hwinner (hheard j) hl
    · rw [hslots' j hj]
      exact winner_owns hmono hdistinct hnone hj hwinner (hheard' j) hl'

/-- An announcement with its sender, epoch and slots. -/
def announcement (sender configEpoch : Nat) (myslots : List Nat) : ClusterMsg Nat :=
  ⟨.other, sender, configEpoch, configEpoch, myslots, false⟩

/-- A master takes a slot over from another one. -/
theorem slot_owners_converge_takeover :
    Converges [announcement 1 1 [0], announcement 2 2 [0]] := by
  have hlast : ∀ m a, lastBy [announcement 1 1 [0], announcement 2 2 [0]] m = some a →
      a = announcement m m [0] := by
    intro m a h
    obtain ⟨hmem, rfl⟩ := lastBy_mem h
    simp only [mem_cons, not_mem_nil, or_false] at hmem
    rcases hmem with rfl | rfl <;> rfl
  refine (slot_owners_converge_iff _ ?_ ?_ ⟨0, by decide⟩).mpr ?_
  · intro m
    apply List.Pairwise.filter
    simp [announcement]
  · intro m m' a a' h h' hepoch
    rw [hlast m a h, hlast m' a' h'] at hepoch
    exact hepoch
  · rintro j - m a ⟨a', hlast', -, hmax⟩ hlast'' b hb hclaims c hc
    obtain rfl : a' = a := Option.some.inj (hlast'.symm.trans hlast'')
    apply hmax _ c hc
    rw [hlast _ c hc]
    simp only [mem_cons, not_mem_nil, or_false] at hb
    rcases hb with rfl | rfl <;> exact hclaims

/-- A master that stops claiming a slot while its epoch grows. -/
def abandonedSlot : List (ClusterMsg Nat) :=
  [announcement 1 1 [0], announcement 1 5 [], announcement 2 3 [0]]

/-- The epochs of the two masters do not decrease and end at 5 and 3. The slot goes to the one who
claims it only if this claim is heard before the other has gone ahead. -/
theorem abandoned_slot_diverges :
    (∀ m, (announcedBy abandonedSlot m).Pairwise (·.configEpoch ≤ ·.configEpoch)) ∧
      (∀ m m' a a', lastBy abandonedSlot m = some a → lastBy abandonedSlot m' = some a' →
        a.configEpoch = a'.configEpoch → m = m') ∧
      Arrival abandonedSlot [announcement 1 1 [0], announcement 2 3 [0], announcement 1 5 []] ∧
      (observe (newcomer 0) abandonedSlot).map (·.slots 0) = some (some 1) ∧
      (observe (newcomer 0)
          [announcement 1 1 [0], announcement 2 3 [0], announcement 1 5 []]).map (·.slots 0) =
        some (some 2) := by
  have hlast : ∀ m a, lastBy abandonedSlot m = some a →
      m = 1 ∧ a.configEpoch = 5 ∨ m = 2 ∧ a.configEpoch = 3
    | 1, _, rfl => .inl ⟨rfl, rfl⟩
    | 2, _, rfl => .inr ⟨rfl, rfl⟩
  refine ⟨fun m => ?_, fun m m' a a' h h' hepoch => ?_, fun m => ?_, by decide +kernel,
    by decide +kernel⟩
  · match m with
    | 1 | 2 => simp [announcedBy, abandonedSlot, announcement]
    | 0 | _ + 3 => exact Pairwise.nil
  · have ha := hlast m a h
    have ha' := hlast m' a' h'
    omega
  · match m with
    | 0 | 1 | 2 | _ + 3 => rfl

end Redis.Cluster
