import Redis.Cluster.Packets
import Redis.Cluster.SlotTable
import Redis.Library.Simulation

/-! The slots of a node are a bitmap with a counter in `SlotTable`, and a list in `Packets`, where
only their members matter. Both models of `clusterUpdateSlotsConfigWith` do the same. -/
namespace Redis.Cluster.SlotTable

open Outcome Function List

variable {Node : Type}

/-- A list has the slots whose bits are set, each of them once, and the counter is its length. -/
structure Lists (bitmap : Bitmap) (num : Int) (slots : List Nat) : Prop where
  bits : ∀ j : Slot, bitmapTestBit bitmap j = true ↔ j.val ∈ slots
  nodup : slots.Nodup
  num : num = slots.length

/-- The list of every node has the slots of its bitmap, and all else that both models keep is the
same. -/
structure Represents (myself : Node) (t : State Node) (s : SlotState Node) : Prop where
  myself : s.myself = myself
  slots : ∀ j : Slot, t.slots j = s.slots j
  node : ∀ n, Lists (t.bitmap n) (t.numslots n) (s.nodes n).slots
  isMaster : ∀ n, t.config.isMaster n = (s.nodes n).isMaster
  slaveof : ∀ n, t.config.slaveof n = (s.nodes n).slaveof
  configEpoch : ∀ n, (t.config.configEpoch n).toNat = (s.nodes n).configEpoch
  importing : ∀ j : Slot, t.config.importing j = (s.importingSlotsFrom j).isSome
  keysInSlot : ∀ j : Slot, t.config.keysInSlot j = s.slotsKeysCount j
  noRedirection : t.config.noRedirection = s.noRedirection

section Operations

variable {myself sender : Node} {t : State Node} {s : SlotState Node}

theorem Represents.delKeysInSlots (h : Represents myself t s) {dirty : List Slot}
    {dirtySlots : List Nat} (hdirty : dirty.map Fin.val = dirtySlots) :
    Represents myself (delKeysInSlots t dirty) (Cluster.delKeysInSlots s dirtySlots) :=
  { h with
    keysInSlot := fun j => by
      have hmem : j.val ∈ dirtySlots ↔ j ∈ dirty := by
        rw [← hdirty, mem_map_of_injective Fin.val_injective]
      simp only [SlotTable.delKeysInSlots, Cluster.delKeysInSlots, hmem, h.keysInSlot] }

theorem Represents.yields (h : Represents myself t s) (epoch : UInt64) (j : Slot) :
    ((t.slots j).all fun owner => t.config.configEpoch owner < epoch) =
      Cluster.yields s epoch.toNat j := by
  rw [Cluster.yields, h.slots]
  cases s.slots j with
  | none => rfl
  | some n => simp [UInt64.lt_iff_toNat_lt, h.configEpoch]

variable [DecidableEq Node]

/-- One slot gets another owner, and the slots of one node are replaced. -/
theorem Represents.setSlot (h : Represents myself t s) {n : Node} {bitmap : Bitmap} {num : Int}
    {slots : List Nat} (hnode : Lists bitmap num slots) (j : Slot) (owner : Option Node) :
    Represents myself
      { t with
        slots := update t.slots j owner
        bitmap := update t.bitmap n bitmap
        numslots := update t.numslots n num }
      ((s.setNode n { s.nodes n with slots }).setSlot j owner) where
  myself := h.myself
  slots i := by
    simp only [SlotState.setSlot, SlotState.setNode, update_apply, Fin.val_inj, h.slots]
  node m := by
    simp only [SlotState.setSlot, SlotState.setNode, update_apply]
    split_ifs
    · exact hnode
    · exact h.node m
  isMaster m := (h.isMaster m).trans (update_proj ClusterNode.isMaster (by rfl) m).symm
  slaveof m := (h.slaveof m).trans (update_proj ClusterNode.slaveof (by rfl) m).symm
  configEpoch m := (h.configEpoch m).trans (update_proj ClusterNode.configEpoch (by rfl) m).symm
  importing := h.importing
  keysInSlot := h.keysInSlot
  noRedirection := h.noRedirection

theorem Represents.clusterAddSlot (h : Represents myself t s) (n : Node) (j : Slot) :
    Represents myself (clusterAddSlot t n j).1 (Cluster.clusterAddSlot s n j) := by
  rw [SlotTable.clusterAddSlot, Cluster.clusterAddSlot, h.slots]
  split_ifs with howned
  · exact h
  obtain ⟨hbits, hnodup, hnum⟩ := h.node n
  have hafter : ∀ i : Slot, bitmapTestBit (bitmapSetBit (t.bitmap n) j) i = true ↔
      i = j ∨ i.val ∈ (s.nodes n).slots := by
    intro i
    simp [test_bitmapSetBit, hbits]
  rw [Cluster.clusterNodeSetSlotBit]
  split_ifs with hmem
  · have hset := (hbits j).mpr hmem
    simp only [clusterNodeSetSlotBit, hset, if_true]
    refine h.setSlot ⟨fun i => (hafter i).trans ?_, hnodup, hnum⟩ j (some n)
    exact or_iff_right_of_imp fun hi => hi ▸ hmem
  · have hclear : bitmapTestBit (t.bitmap n) j = false := by rwa [← Bool.not_eq_true, hbits]
    simp only [clusterNodeSetSlotBit, hclear, Bool.false_eq_true, if_false]
    refine h.setSlot ⟨fun i => (hafter i).trans ?_, nodup_cons.mpr ⟨hmem, hnodup⟩, ?_⟩ j (some n)
    · rw [mem_cons, Fin.val_inj]
    · rw [hnum, length_cons]
      push_cast
      rfl

theorem Represents.clusterDelSlot (h : Represents myself t s) (j : Slot) :
    Agree (fun r s' => Represents myself r.1 s') (clusterDelSlot t j) (Cluster.clusterDelSlot s j) := by
  rw [SlotTable.clusterDelSlot, Cluster.clusterDelSlot, h.slots]
  cases s.slots j with
  | none => exact .ok h
  | some n =>
    obtain ⟨hbits, hnodup, hnum⟩ := h.node n
    dsimp only [clusterNodeClearSlotBit]
    split_ifs with hset hmem hmem
    · refine .ok (h.setSlot ⟨fun i => ?_, hnodup.filter _, ?_⟩ j none)
      · simp [test_bitmapClearBit, hbits, Fin.val_inj, and_comm]
      · have hpos := length_pos_of_mem hmem
        have hlen : ((s.nodes n).slots.filter (· ≠ j.val)).length = (s.nodes n).slots.length - 1 := by
          rw [← length_erase_of_mem hmem, hnodup.erase_eq_filter]
          simp only [ne_eq, decide_not]
          rfl
        rw [hnum, hlen]
        omega
    · exact absurd ((hbits j).mp hset) hmem
    · exact absurd ((hbits j).mpr hmem) hset
    · exact .error

theorem Represents.clusterSetMaster (h : Represents myself t s) (n : Node) :
    Agree (Represents myself) (clusterSetMaster t myself n) (Cluster.clusterSetMaster s n) := by
  have hserves : t.numslots myself ≠ 0 ↔ (s.nodes myself).numslots ≠ 0 := by
    rw [(h.node myself).num, ne_eq, Nat.cast_eq_zero]
    rfl
  rw [SlotTable.clusterSetMaster, Cluster.clusterSetMaster]
  simp only [h.myself, hserves]
  by_cases hassert : n = myself ∨ (s.nodes myself).numslots ≠ 0
  · rw [if_pos hassert, if_pos hassert]
    exact .error
  rw [if_neg hassert, if_neg hassert]
  set me := { s.nodes myself with isMaster := false, slaveof := some n } with hme
  have hslots : ∀ m, (update s.nodes myself me m).slots = (s.nodes m).slots :=
    update_proj ClusterNode.slots (by rfl)
  refine .ok ⟨h.myself, h.slots, fun m => ?_, fun m => ?_, fun m => ?_, fun m => ?_, fun j => ?_,
    h.keysInSlot, h.noRedirection⟩
  · exact (hslots m).symm ▸ h.node m
  · simp only [SlotState.setNode, update_apply, h.isMaster]
    split_ifs <;> rfl
  · simp only [SlotState.setNode, update_apply, h.slaveof]
    split_ifs <;> rfl
  · exact (h.configEpoch m).trans (update_proj ClusterNode.configEpoch (by rfl) m).symm
  · simp only [h.isMaster]
    split_ifs
    · rfl
    · exact h.importing j

/-- What the two loops have done so far. -/
structure ScanRepresents (myself : Node) (acc : State Node × Bool × List Slot)
    (scan : SlotScan Node) : Prop where
  state : Represents myself acc.1 scan.state
  newmaster : acc.2.1 = scan.newmaster.isSome
  dirty : acc.2.2.map Fin.val = scan.dirtySlots

/-- A round of the loop; a slot that is not claimed is skipped. -/
theorem ScanRepresents.updateSlot {acc : State Node × Bool × List Slot} {scan : SlotScan Node}
    (h : ScanRepresents myself acc scan) {slots : Bitmap} {claimed : List Nat} (epoch : UInt64)
    (curmaster : Option Node) (j : Slot)
    (hclaimed : bitmapTestBit slots j = true ↔ j.val ∈ claimed) :
    Agree (ScanRepresents myself) (updateSlot myself sender epoch slots curmaster acc j)
      (if j.val ∈ claimed then Cluster.updateSlot curmaster sender epoch.toNat scan j
        else some scan) := by
  obtain ⟨t, newmaster, dirty⟩ := acc
  have hstate : Represents myself t scan.state := h.state
  rw [SlotTable.updateSlot, Cluster.updateSlot]
  by_cases hmem : j.val ∈ claimed
  swap
  · have hunset : bitmapTestBit slots j = false := by rwa [← Bool.not_eq_true, hclaimed]
    rw [if_neg hmem]
    simp only [hunset, Bool.not_false, true_or, if_true]
    exact .ok h
  rw [if_pos hmem]
  simp only [hclaimed.mpr hmem, hstate.slots, hstate.importing, hstate.keysInSlot, hstate.myself,
    Bool.not_true, Bool.false_eq_true, false_or]
  by_cases hsender : scan.state.slots j = some sender
  · rw [if_pos (.inl hsender), if_pos hsender]
    exact .ok h
  by_cases himporting : (scan.state.importingSlotsFrom j).isSome
  · rw [if_pos (.inr himporting), if_neg hsender, if_pos himporting]
    exact .ok h
  rw [if_neg (not_or.mpr ⟨hsender, himporting⟩), if_neg hsender, if_neg himporting]
  have hyields := hstate.yields epoch j
  rw [hstate.slots] at hyields
  rw [hyields]
  by_cases hyield : Cluster.yields scan.state epoch.toNat j = true
  swap
  · rw [if_neg hyield, if_neg hyield]
    exact .ok h
  rw [if_pos hyield, if_pos hyield, rebind]
  simp only [bind_assoc, pure_bind]
  refine (hstate.clusterDelSlot j).bind fun r s' hr => .ok ⟨hr.clusterAddSlot sender j, ?_, ?_⟩
  · have hnew : newmaster = scan.newmaster.isSome := h.newmaster
    dsimp only
    split_ifs with hcur <;> simp [hcur, hnew]
  · have hdirty : dirty.map Fin.val = scan.dirtySlots := h.dirty
    dsimp only
    split_ifs <;> simp [hdirty]

end Operations

/-- Both models fail, or both return and their states still stand for each other. -/
theorem Represents.clusterUpdateSlotsConfigWith [DecidableEq Node] {myself : Node} {t : State Node}
    {s : SlotState Node} (h : Represents myself t s) (sender : Node) (epoch : UInt64)
    {slots : Bitmap} {claimed : List Nat}
    (hclaimed : ∀ j : Slot, bitmapTestBit slots j = true ↔ j.val ∈ claimed) :
    Agree (Represents myself) (clusterUpdateSlotsConfigWith t myself sender epoch slots)
      (Cluster.clusterUpdateSlotsConfigWith s sender epoch.toNat claimed) := by
  rw [SlotTable.clusterUpdateSlotsConfigWith, Cluster.clusterUpdateSlotsConfigWith]
  simp only [h.myself, h.isMaster, h.slaveof]
  generalize (if (s.nodes myself).isMaster = true then some myself else (s.nodes myself).slaveof) =
    curmaster
  split_ifs with hself
  · exact .ok h
  rw [foldlM_filter, clusterSlots, ← map_coe_finRange_eq_range, foldlM_map]
  refine Agree.bind (Agree.foldlM (fun acc scan j hscan => ?_) _ (R := ScanRepresents myself)
    ⟨h, rfl, rfl⟩) ?_
  · simpa using hscan.updateSlot epoch curmaster j (hclaimed j)
  rintro ⟨t', newmaster, dirty⟩ scan hscan
  have hstate : Represents myself t' scan.state := hscan.state
  have hnew : newmaster = scan.newmaster.isSome := hscan.newmaster
  have hdirty := hstate.delKeysInSlots hscan.dirty
  simp only [hstate.noRedirection]
  split_ifs with hmodules hchanged
  · exact .ok hstate
  · rw [hnew, Option.isSome_iff_exists] at hchanged
    obtain ⟨n, hn⟩ := hchanged
    cases curmaster with
    | none =>
      simp only [followSlots, hn]
      exact .error
    | some master =>
      have hempty : t'.numslots master = 0 ↔ (scan.state.nodes master).numslots = 0 := by
        rw [(hstate.node master).num, Nat.cast_eq_zero]
        rfl
      simp only [followSlots, hn, hempty]
      split_ifs
      · exact hstate.clusterSetMaster sender
      · exact .ok hdirty
  · have hnone : scan.newmaster = none := by simpa [hnew] using hchanged
    simp only [followSlots, hnone]
    exact .ok hdirty

end Redis.Cluster.SlotTable
