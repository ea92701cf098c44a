import Redis.Library.Outcome

/-! The owners of the hash slots, which `cluster.c` keeps in a table, in a bitmap for each node
and in a counter for each node, and the operations that change them. -/
namespace Redis.Cluster.SlotTable

open Outcome Function Finset BitVec Bool

abbrev Slot := Fin 16384

section Bitmap

/-- `CLUSTER_SLOTS/8` bytes. -/
abbrev Bitmap := Fin 2048 → BitVec 8

variable (bitmap : Bitmap) (pos : Slot)

def byteOf : Fin 2048 := ⟨pos / 8, by omega⟩

def bitOf : BitVec 8 := 1#8 <<< (pos.val % 8)

def bitmapTestBit : Bool := bitmap (byteOf pos) &&& bitOf pos != 0

def bitmapSetBit : Bitmap :=
  update bitmap (byteOf pos) (bitmap (byteOf pos) ||| bitOf pos)

def bitmapClearBit : Bitmap :=
  update bitmap (byteOf pos) (bitmap (byteOf pos) &&& ~~~ bitOf pos)

end Bitmap

/-- What other code keeps about the nodes and the slots. -/
structure Config (Node : Type) where
  isMaster : Node → Bool
  slaveof : Node → Option Node
  configEpoch : Node → UInt64
  importing : Slot → Bool
  keysInSlot : Slot → Nat
  noRedirection : Bool

structure State (Node : Type) where
  config : Config Node
  slots : Slot → Option Node
  bitmap : Node → Bitmap
  numslots : Node → Int

/-- How the server can stop: the assertion in `clusterDelSlot`, one in `clusterSetMaster`, or
the use of the missing master of a replica. -/
inductive Abort where
  | delSlot
  | setMaster
  | nullMaster
deriving DecidableEq

section Code

variable {Node : Type} [DecidableEq Node]

def clusterNodeSetSlotBit (s : State Node) (n : Node) (slot : Slot) : State Node × Bool :=
  let old := bitmapTestBit (s.bitmap n) slot
  ({ s with
     bitmap := update s.bitmap n (bitmapSetBit (s.bitmap n) slot)
     numslots := update s.numslots n (if old then s.numslots n else s.numslots n + 1) },
    old)

def clusterNodeClearSlotBit (s : State Node) (n : Node) (slot : Slot) : State Node × Bool :=
  let old := bitmapTestBit (s.bitmap n) slot
  ({ s with
     bitmap := update s.bitmap n (bitmapClearBit (s.bitmap n) slot)
     numslots := update s.numslots n (if old then s.numslots n - 1 else s.numslots n) },
    old)

/-- The result is whether the slot had no owner. -/
def clusterAddSlot (s : State Node) (n : Node) (slot : Slot) : State Node × Bool :=
  if (s.slots slot).isSome then (s, false)
  else
    let (s, _) := clusterNodeSetSlotBit s n slot
    ({ s with slots := update s.slots slot (some n) }, true)

/-- The result is whether the slot had an owner. -/
def clusterDelSlot (s : State Node) (slot : Slot) : Except Abort (State Node × Bool) :=
  match s.slots slot with
  | none => .ok (s, false)
  | some n =>
    let (s, old) := clusterNodeClearSlotBit s n slot
    if old then .ok ({ s with slots := update s.slots slot none }, true)
    else .error .delSlot

def clusterDelNodeSlots (s : State Node) (node : Node) : Except Abort (State Node × Nat) :=
  (List.finRange 16384).foldlM (fun (s, deleted) j =>
    if bitmapTestBit (s.bitmap node) j then do
      let (s, _) ← clusterDelSlot s j
      pure (s, deleted + 1)
    else pure (s, deleted)) (s, 0)

/-- A slot of another owner is rebound. -/
def rebind (s : State Node) (n : Node) (j : Slot) : Except Abort (State Node) := do
  let (s, _) ← clusterDelSlot s j
  pure (clusterAddSlot s n j).1

def clusterSetMaster (s : State Node) (myself n : Node) : Except Abort (State Node) :=
  if n = myself ∨ s.numslots myself ≠ 0 then .error .setMaster
  else
    .ok { s with config := { s.config with
      isMaster := update s.config.isMaster myself false
      importing := if s.config.isMaster myself then fun _ => false else s.config.importing
      slaveof := update s.config.slaveof myself (some n) } }

def delKeysInSlots (s : State Node) (dirty : List Slot) : State Node :=
  { s with config := { s.config with
    keysInSlot := fun j => if j ∈ dirty then 0 else s.config.keysInSlot j } }

/-- One round: the state, whether a slot was taken from `curmaster`, and the dirty slots. -/
def updateSlot (myself sender : Node) (senderConfigEpoch : UInt64) (slots : Bitmap)
    (curmaster : Option Node) (acc : State Node × Bool × List Slot) (j : Slot) :
    Except Abort (State Node × Bool × List Slot) :=
  let (s, newmaster, dirty) := acc
  if !bitmapTestBit slots j ∨ s.slots j = some sender ∨ s.config.importing j then .ok acc
  else if (s.slots j).all fun owner => s.config.configEpoch owner < senderConfigEpoch then do
    let isDirty := s.slots j = some myself ∧ s.config.keysInSlot j ≠ 0 ∧ sender ≠ myself
    let s' ← rebind s sender j
    pure (s', newmaster || s.slots j = curmaster, if isDirty then dirty ++ [j] else dirty)
  else .ok acc

def clusterUpdateSlotsConfigWith (s : State Node) (myself sender : Node)
    (senderConfigEpoch : UInt64) (slots : Bitmap) : Except Abort (State Node) := do
  let curmaster := if s.config.isMaster myself then some myself else s.config.slaveof myself
  if sender = myself then pure s
  else
    let (s, newmaster, dirty) ← (List.finRange 16384).foldlM
      (updateSlot myself sender senderConfigEpoch slots curmaster) (s, false, [])
    if s.config.noRedirection then pure s
    else if newmaster then
      match curmaster with
      | none => .error .nullMaster
      | some master =>
        if s.numslots master = 0 then clusterSetMaster s myself sender
        else pure (delKeysInSlots s dirty)
    else pure (delKeysInSlots s dirty)

def clusterFailoverReplaceYourMaster (s : State Node) (myself : Node) :
    Except Abort (State Node) :=
  match s.config.slaveof myself with
  | none => .ok s
  | some oldmaster =>
    if s.config.isMaster myself then .ok s
    else
      (List.finRange 16384).foldlM (fun s j =>
        if bitmapTestBit (s.bitmap oldmaster) j then rebind s myself j else pure s)
        { s with config := { s.config with
          isMaster := update s.config.isMaster myself true
          slaveof := update s.config.slaveof myself none } }

/-- The part of `clusterProcessPacket` for a sender that says it is a replica. -/
def resetMaster (s : State Node) (sender : Node) : Except Abort (State Node) :=
  if s.config.isMaster sender then do
    let (s, _) ← clusterDelNodeSlots s sender
    pure { s with config := { s.config with
      isMaster := update s.config.isMaster sender false } }
  else .ok s

/-- The operations on the slots; anything else that happens changes the rest of the state. -/
inductive Op (Node : Type) where
  | addSlot (n : Node) (slot : Slot)
  | delSlot (slot : Slot)
  | delNodeSlots (n : Node)
  | updateSlotsConfigWith (sender : Node) (epoch : UInt64) (slots : Bitmap)
  | failoverReplaceYourMaster
  | resetMaster (sender : Node)
  | other (config : Config Node)

def step (myself : Node) (s : State Node) : Op Node → Except Abort (State Node)
  | .addSlot n slot => .ok (clusterAddSlot s n slot).1
  | .delSlot slot => (clusterDelSlot s slot).map Prod.fst
  | .delNodeSlots n => (clusterDelNodeSlots s n).map Prod.fst
  | .updateSlotsConfigWith sender epoch slots =>
    clusterUpdateSlotsConfigWith s myself sender epoch slots
  | .failoverReplaceYourMaster => clusterFailoverReplaceYourMaster s myself
  | .resetMaster sender => resetMaster s sender
  | .other config => .ok { s with config }

def State.initial (config : Config Node) : State Node := ⟨config, fun _ => none, fun _ _ => 0, fun _ => 0⟩

end Code

section Bits

variable (bitmap : Bitmap) (pos q : Slot)

theorem bitOf_eq : bitOf pos = twoPow 8 (pos.val % 8) := rfl

theorem getLsbD_bitOf (i : Nat) : (bitOf pos).getLsbD i = (i = pos.val % 8 : Bool) := by
  have hpos : pos.val % 8 < 8 := Nat.mod_lt _ (by decide)
  rw [bitOf_eq, getLsbD_twoPow]
  simp [hpos, eq_comm]

/-- The mask of a slot tests one bit of one byte. -/
theorem bitmapTestBit_eq : bitmapTestBit bitmap q = (bitmap (byteOf q)).getLsbD (q.val % 8) := by
  rw [bitmapTestBit, bitOf_eq, and_twoPow]
  cases h : (bitmap (byteOf q)).getLsbD (q.val % 8) with
  | true =>
    have hne : twoPow 8 (q.val % 8) ≠ 0 := by
      intro hzero
      have hbit := congrArg (getLsbD · (q.val % 8)) hzero
      simp [Nat.mod_lt] at hbit
    simpa using hne
  | false => simp

/-- A slot is given by its byte and its place in the byte. -/
theorem slot_eq_iff : q = pos ↔ byteOf q = byteOf pos ∧ q.val % 8 = pos.val % 8 := by
  simp only [byteOf, Fin.ext_iff]
  omega

/-- Setting a bit changes the test of this slot and of no other, though eight slots share a byte. -/
theorem test_bitmapSetBit :
    bitmapTestBit (bitmapSetBit bitmap pos) q = (q = pos || bitmapTestBit bitmap q) := by
  rw [bitmapTestBit_eq, bitmapTestBit_eq, bitmapSetBit, update_apply]
  split_ifs with hbyte
  · rw [getLsbD_or, getLsbD_bitOf, hbyte, Bool.or_comm]
    simp [slot_eq_iff, hbyte]
  · simp [slot_eq_iff, hbyte]

theorem test_bitmapClearBit :
    bitmapTestBit (bitmapClearBit bitmap pos) q = (q ≠ pos && bitmapTestBit bitmap q) := by
  have hi : q.val % 8 < 8 := Nat.mod_lt _ (by decide)
  rw [bitmapTestBit_eq, bitmapTestBit_eq, bitmapClearBit, update_apply]
  split_ifs with hbyte
  · rw [getLsbD_and, getLsbD_not, getLsbD_bitOf, hbyte, Bool.and_comm]
    simp [slot_eq_iff, hbyte, hi]
  · simp [slot_eq_iff, hbyte]

/-- The slots whose bit is set. -/
@[irreducible] def slotSet : Finset Slot := Finset.univ.filter fun j => bitmapTestBit bitmap j = true

theorem mem_slotSet : q ∈ slotSet bitmap ↔ bitmapTestBit bitmap q = true := by
  rw [slotSet, mem_filter]
  simp

theorem slotSet_bitmapSetBit : slotSet (bitmapSetBit bitmap pos) = insert pos (slotSet bitmap) := by
  ext q
  simp [mem_slotSet, test_bitmapSetBit]

theorem slotSet_bitmapClearBit :
    slotSet (bitmapClearBit bitmap pos) = (slotSet bitmap).erase pos := by
  ext q
  simp [mem_slotSet, test_bitmapClearBit]

end Bits

section Consistency

variable {Node : Type}

/-- The table, the bitmaps and the counters agree. -/
structure Consistent (s : State Node) : Prop where
  owner : ∀ j n, s.slots j = some n ↔ bitmapTestBit (s.bitmap n) j = true
  numslots : ∀ n, s.numslots n = (slotSet (s.bitmap n)).card

/-- No slot has an owner, no bit is set, and all counters are zero. -/
theorem consistent_initial (config : Config Node) : Consistent (State.initial config) := by
  have htest : ∀ j, bitmapTestBit (fun _ => 0#8) j = false := fun j => by
    rw [bitmapTestBit_eq, getLsbD_zero]
  have hempty : slotSet (fun _ => 0#8) = ∅ := by
    ext j
    simp [mem_slotSet, htest]
  refine ⟨fun j n => ?_, fun n => ?_⟩
  · simp [State.initial, htest]
  · simp [State.initial, hempty]

variable {s : State Node} (h : Consistent s)
include h

/-- What other code keeps about nodes and slots is not part of the invariant. -/
theorem Consistent.configure (config : Config Node) : Consistent { s with config } :=
  ⟨h.owner, h.numslots⟩

variable [DecidableEq Node]

/-- A slot is added only if it has no owner, so that no other bitmap has its bit and the counter
grows by one. -/
theorem Consistent.clusterAddSlot (n : Node) (slot : Slot) :
    Consistent (clusterAddSlot s n slot).1 := by
  rw [SlotTable.clusterAddSlot]
  split_ifs with howned
  · exact h
  rw [not_eq_true, Option.isSome_eq_false_iff, Option.isNone_iff_eq_none] at howned
  have hclear : ∀ m, bitmapTestBit (s.bitmap m) slot = false := fun m => by
    rw [← not_eq_true, ← h.owner, howned]
    simp
  refine ⟨fun j m => ?_, fun m => ?_⟩
  · simp only [clusterNodeSetSlotBit, update_apply]
    by_cases hj : j = slot
    · by_cases hm : m = n
      · simp [hj, hm, test_bitmapSetBit]
      · simp [hj, hm, hclear, Ne.symm hm]
    · by_cases hm : m = n <;> simp [hj, hm, test_bitmapSetBit, h.owner]
  · simp only [clusterNodeSetSlotBit, update_apply, hclear, false_eq_true, if_false]
    split_ifs with hm
    · have hnot : slot ∉ slotSet (s.bitmap n) := by simp [mem_slotSet, hclear]
      rw [slotSet_bitmapSetBit, card_insert_of_notMem hnot, h.numslots]
      rfl
    · exact h.numslots m

/-- The bit of the owner is set, so that the assertion holds and the counter does not become
negative. -/
theorem Consistent.clusterDelSlot (slot : Slot) :
    Ensures (· ≠ Abort.delSlot) (clusterDelSlot s slot) fun r => Consistent r.1 := by
  rw [SlotTable.clusterDelSlot]
  cases howner : s.slots slot with
  | none => exact .ok h
  | some n =>
    have hset := (h.owner slot n).mp howner
    have hother : ∀ m, m ≠ n → bitmapTestBit (s.bitmap m) slot = false := fun m hm => by
      rw [← not_eq_true, ← h.owner, howner]
      simpa using hm.symm
    simp only [clusterNodeClearSlotBit, hset, if_true]
    refine .ok ⟨fun j m => ?_, fun m => ?_⟩
    · by_cases hm : m = n
      · by_cases hj : j = slot <;> simp [hm, hj, test_bitmapClearBit, h.owner]
      · by_cases hj : j = slot <;> simp [hm, hj, h.owner, hother]
    · simp only [update_apply]
      split_ifs with hm
      · have hmem : slot ∈ slotSet (s.bitmap n) := (mem_slotSet ..).mpr hset
        have hpos := card_pos.mpr ⟨slot, hmem⟩
        rw [slotSet_bitmapClearBit, card_erase_of_mem hmem, h.numslots]
        omega
      · exact h.numslots m

theorem Consistent.rebind (n : Node) (j : Slot) :
    Ensures (· ≠ Abort.delSlot) (rebind s n j) Consistent :=
  (h.clusterDelSlot j).bind fun _ hr => .ok (hr.clusterAddSlot n j)

/-- The slots of a node are deleted one after the other, each from a consistent state. -/
theorem Consistent.clusterDelNodeSlots (n : Node) :
    Ensures (· ≠ Abort.delSlot) (clusterDelNodeSlots s n) fun r => Consistent r.1 := by
  refine Ensures.foldlM (P := fun r : State Node × Nat => Consistent r.1) ?_ _ h
  rintro ⟨s, deleted⟩ j hs
  dsimp only
  split_ifs
  · exact (hs.clusterDelSlot j).bind fun r hr => .ok hr
  · exact .ok hs

/-- Its own assertion may fail; the slots are not touched. -/
theorem Consistent.clusterSetMaster (myself n : Node) :
    Ensures (· ≠ Abort.delSlot) (clusterSetMaster s myself n) Consistent := by
  rw [SlotTable.clusterSetMaster]
  split
  · exact .error (by decide)
  · exact .ok (h.configure _)

/-- A round of the loop over the slots leaves the slot or rebinds it to the sender. -/
theorem Consistent.updateSlot {myself sender : Node} {epoch : UInt64} {slots : Bitmap}
    {curmaster : Option Node} (acc : Bool × List Slot) (j : Slot) :
    Ensures (· ≠ Abort.delSlot) (updateSlot myself sender epoch slots curmaster (s, acc) j)
      fun r => Consistent r.1 := by
  unfold SlotTable.updateSlot
  dsimp only
  split_ifs
  · exact .ok h
  · exact (h.rebind sender j).bind fun _ hs' => .ok hs'
  · exact (h.rebind sender j).bind fun _ hs' => .ok hs'
  · exact .ok h

/-- The claims of a sender, for any epochs; a master that is missing is another error. -/
theorem Consistent.clusterUpdateSlotsConfigWith (myself sender : Node) (epoch : UInt64)
    (slots : Bitmap) :
    Ensures (· ≠ Abort.delSlot) (clusterUpdateSlotsConfigWith s myself sender epoch slots)
      Consistent := by
  unfold SlotTable.clusterUpdateSlotsConfigWith
  generalize (if s.config.isMaster myself then some myself else s.config.slaveof myself) = curmaster
  split_ifs
  · exact .ok h
  refine (Ensures.foldlM (P := fun r : State Node × Bool × List Slot => Consistent r.1)
    (fun acc j hacc => hacc.updateSlot acc.2 j) _ h).bind ?_
  rintro ⟨s, newmaster, dirty⟩ hs
  dsimp only
  split_ifs
  · exact .ok hs
  · cases curmaster with
    | none => exact .error (by decide)
    | some master =>
      dsimp only
      split_ifs
      · exact hs.clusterSetMaster myself sender
      · exact .ok (hs.configure _)
  · exact .ok (hs.configure _)

theorem Consistent.clusterFailoverReplaceYourMaster (myself : Node) :
    Ensures (· ≠ Abort.delSlot) (clusterFailoverReplaceYourMaster s myself) Consistent := by
  rw [SlotTable.clusterFailoverReplaceYourMaster]
  cases s.config.slaveof myself with
  | none => exact .ok h
  | some oldmaster =>
    split_ifs
    · exact .ok h
    · refine Ensures.foldlM ?_ _ (h.configure _)
      intro s j hs
      split_ifs
      · exact hs.rebind myself j
      · exact .ok hs

theorem Consistent.resetMaster (sender : Node) :
    Ensures (· ≠ Abort.delSlot) (resetMaster s sender) Consistent := by
  rw [SlotTable.resetMaster]
  split_ifs
  · exact (h.clusterDelNodeSlots sender).bind fun _ hr => .ok (hr.configure _)
  · exact .ok h

/-- No operation leaves the invariant or fails in `clusterDelSlot`. -/
theorem Consistent.step (myself : Node) (op : Op Node) :
    Ensures (· ≠ Abort.delSlot) (step myself s op) Consistent := by
  cases op with
  | addSlot n slot => exact .ok (h.clusterAddSlot n slot)
  | delSlot slot => exact (h.clusterDelSlot slot).map Prod.fst
  | delNodeSlots n => exact (h.clusterDelNodeSlots n).map Prod.fst
  | updateSlotsConfigWith sender epoch slots =>
    exact h.clusterUpdateSlotsConfigWith myself sender epoch slots
  | failoverReplaceYourMaster => exact h.clusterFailoverReplaceYourMaster myself
  | resetMaster sender => exact h.resetMaster sender
  | other config => exact .ok (h.configure config)

omit h

/-- After any operations the table and the bitmaps agree, so that a slot has one owner; the
counters count the bits; and the assertion of `clusterDelSlot` did not fail. -/
theorem slot_table_stays_consistent (myself : Node) (config : Config Node) (ops : List (Op Node)) :
    ops.foldlM (step myself) (State.initial config) ≠ .error .delSlot ∧
      ∀ s, ops.foldlM (step myself) (State.initial config) = .ok s →
        (∀ j n, s.slots j = some n ↔ bitmapTestBit (s.bitmap n) j = true) ∧
          ∀ n, s.numslots n = (slotSet (s.bitmap n)).card := by
  have hrun := Ensures.foldlM (fun _ op hs => hs.step myself op) ops (consistent_initial config)
  constructor
  · intro heq
    rw [heq] at hrun
    exact hrun.of_error rfl
  · intro s heq
    rw [heq] at hrun
    exact ⟨hrun.of_ok.owner, hrun.of_ok.numslots⟩

end Consistency

end Redis.Cluster.SlotTable
