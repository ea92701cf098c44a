import Redis.Cluster.HashSlot
import Redis.Cluster.Packets
import Redis.Library.SortedMap
import Redis.RadixTree.Enumeration

/-! The index from hash slots to keys that `db.c` keeps in cluster mode: a radix tree whose
keys are two bytes of the slot and the key, and a counter for each slot. -/
namespace Redis.Cluster

open ByteBuffer RadixTree Util List Function

/-- Database 0: the keys that exist, without their values, and the index. -/
structure SlotDb where
  dict : Finset Bytes
  slotsToKeys : Rax Unit
  slotsKeysCount : Nat → Nat

def slotBytes (hashslot : Nat) : Bytes := [UInt8.ofNat (hashslot / 256), UInt8.ofNat hashslot]

/-- What a key is indexed by. -/
def indexed (key : Bytes) : Bytes := slotBytes (keyHashSlot key) ++ key

section Code

variable (db : SlotDb)

/-- The counters have 64 bits. -/
def slotToKeyUpdateKey (key : Bytes) (add : Bool) : SlotDb :=
  let hashslot := keyHashSlot key
  let count := db.slotsKeysCount hashslot
  { db with
    slotsKeysCount := Function.update db.slotsKeysCount hashslot
      (if add then (count + 1) % 2 ^ 64 else (count + (2 ^ 64 - 1)) % 2 ^ 64)
    slotsToKeys :=
      if add then (raxInsert db.slotsToKeys (indexed key) none).1
      else (raxRemove db.slotsToKeys (indexed key)).1 }

def slotToKeyAdd (key : Bytes) : SlotDb := slotToKeyUpdateKey db key true

def slotToKeyDel (key : Bytes) : SlotDb := slotToKeyUpdateKey db key false

/-- The server stops if the key exists. -/
def dbAdd (key : Bytes) : Option SlotDb :=
  if key ∈ db.dict then none
  else some (slotToKeyAdd { db with dict := insert key db.dict } key)

def dbAddRDBLoad (key : Bytes) : SlotDb × Bool :=
  if key ∈ db.dict then (db, false)
  else (slotToKeyAdd { db with dict := insert key db.dict } key, true)

/-- `dbSyncDelete` and `dbAsyncDelete`, which differ in how the value is freed. -/
def dbDelete (key : Bytes) : SlotDb × Bool :=
  if key ∈ db.dict then (slotToKeyDel { db with dict := db.dict.erase key } key, true)
  else (db, false)

/-- The flush of the database and of the index, at once or in the background. -/
def emptyDb : SlotDb := { dict := ∅, slotsToKeys := raxNew, slotsKeysCount := fun _ => 0 }

/-- The result has 32 bits. -/
def countKeysInSlot (hashslot : Nat) : Nat := db.slotsKeysCount hashslot % 2 ^ 32

/-- The loop of `getKeysInSlot`; the keys in the order in which they are stored. -/
def getKeysLoop (rax : Rax Unit) (prefixBytes : Bytes) : Nat → Iterator Unit → List Bytes
  | 0, _ => []
  | count + 1, it =>
    if (raxNext rax it).2 then
      if (raxNext rax it).1.cur.key.take 2 ≠ prefixBytes then []
      else (raxNext rax it).1.cur.key.drop 2 ::
        getKeysLoop rax prefixBytes count (raxNext rax it).1
    else []

/-- The index of the array is an `int`; no result if it overflows. -/
def getKeysInSlot (hashslot count : Nat) : Option (List Bytes) :=
  let keys := getKeysLoop db.slotsToKeys (slotBytes hashslot) count
    (raxSeek db.slotsToKeys raxStart .ge (slotBytes hashslot))
  if keys.length < 2 ^ 31 then some keys else none

end Code

/-- The loop of `delKeysInSlot` with its counter, an `int`; no result if it does not end
within a number of rounds. -/
def delKeysLoop (hashslot : Nat) : Nat → SlotDb → Iterator Unit → Nat → Option (SlotDb × Nat)
  | 0, _, _, _ => none
  | fuel + 1, db, it, j =>
    if db.slotsKeysCount hashslot = 0 then some (db, j)
    else if j + 1 = 2 ^ 31 then none
    else
      let it := (raxNext db.slotsToKeys
        (raxSeek db.slotsToKeys it .ge (slotBytes hashslot))).1
      delKeysLoop hashslot fuel (dbDelete db (it.cur.key.drop 2)).1 it (j + 1)

def delKeysInSlot (fuel : Nat) (db : SlotDb) (hashslot : Nat) : Option (SlotDb × Nat) :=
  delKeysLoop hashslot fuel db raxStart 0

/-- The existing keys of a slot. -/
def SlotDb.slotKeys (db : SlotDb) (slot : Nat) : Finset Bytes :=
  db.dict.filter fun key => keyHashSlot key = slot

section Bytes

theorem slotBytes_injective {s t : Nat} (hs : s < clusterSlots) (ht : t < clusterSlots)
    (h : slotBytes s = slotBytes t) : s = t := by
  simp only [slotBytes, List.cons.injEq, and_true] at h
  have hhigh := congrArg UInt8.toNat h.1
  have hlow := congrArg UInt8.toNat h.2
  simp only [UInt8.toNat_ofNat'] at hhigh hlow
  unfold clusterSlots at hs ht
  omega

theorem keyHashSlot_lt_clusterSlots (key : Bytes) : keyHashSlot key < clusterSlots :=
  keyHashSlot_lt key

theorem indexed_take (key : Bytes) : (indexed key).take 2 = slotBytes (keyHashSlot key) := rfl

theorem indexed_drop (key : Bytes) : (indexed key).drop 2 = key := rfl

theorem indexed_injective : Function.Injective indexed := by
  intro a b h
  rw [← indexed_drop a, h, indexed_drop]

/-- A string between a prefix and a string that begins with it begins with it too. -/
theorem prefix_of_between {p a t : Bytes} (hge : ¬ a < p) (hlt : a < p ++ t) : p <+: a := by
  induction p generalizing a with
  | nil => exact nil_prefix
  | cons x p ih =>
    cases a with
    | nil => exact absurd (nil_lt_cons _ _) hge
    | cons y a =>
      rw [cons_lt_cons_iff] at hge
      rw [cons_append, cons_lt_cons_iff] at hlt
      obtain ⟨hnlt, hrest⟩ := not_or.mp hge
      rcases hlt with hyx | ⟨rfl, hlt⟩
      · exact absurd hyx hnlt
      · exact cons_prefix_cons.mpr ⟨rfl, ih (fun h => hrest ⟨rfl, h⟩) hlt⟩

end Bytes

/-- The map that the radix tree should represent: the indexed keys, without values. -/
def SlotDb.indexMap (db : SlotDb) (s : Bytes) : Option (Option Unit) :=
  if s ∈ db.dict.image indexed then some none else none

/-- The index mirrors the keys. -/
structure SlotDb.Mirrors (db : SlotDb) : Prop where
  represents : Represents db.slotsToKeys db.indexMap
  count : ∀ slot, db.slotsKeysCount slot = (db.slotKeys slot).card
  small : ∀ slot, (db.slotKeys slot).card < 2 ^ 31

/-- A key that may be added: the tree can hold it, and the slot has room for one more. -/
structure SlotDb.Admits (db : SlotDb) (key : Bytes) : Prop where
  short : (indexed key).length < raxNodeMaxSize
  room : (db.slotKeys (keyHashSlot key)).card + 1 < 2 ^ 31

variable {db : SlotDb} {key : Bytes} {slot : Nat}

section Updates

theorem mirrors_emptyDb : emptyDb.Mirrors := by
  refine ⟨?_, fun slot => by simp [SlotDb.slotKeys, emptyDb], fun slot => by
    simp [SlotDb.slotKeys, emptyDb]⟩
  exact represents_raxNew

theorem slotKeys_insert (slot : Nat) :
    (insert key db.dict).filter (fun k => keyHashSlot k = slot) =
      if keyHashSlot key = slot then insert key (db.slotKeys slot) else db.slotKeys slot := by
  rw [Finset.filter_insert]
  rfl

theorem slotKeys_erase (slot : Nat) :
    (db.dict.erase key).filter (fun k => keyHashSlot k = slot) = (db.slotKeys slot).erase key := by
  rw [SlotDb.slotKeys, Finset.filter_erase]

theorem SlotDb.Mirrors.add (h : db.Mirrors) (hkey : key ∉ db.dict) (hadmits : db.Admits key) :
    (slotToKeyAdd { db with dict := insert key db.dict } key).Mirrors := by
  have hnot : ∀ slot, key ∉ db.slotKeys slot := fun slot hmem =>
    hkey (Finset.mem_filter.mp hmem).1
  have hkeys : ∀ slot, (slotToKeyAdd { db with dict := insert key db.dict } key).slotKeys slot =
      if keyHashSlot key = slot then insert key (db.slotKeys slot) else db.slotKeys slot :=
    fun slot => slotKeys_insert slot
  refine ⟨?_, fun slot => ?_, fun slot => ?_⟩
  · have hinsert : Represents (raxInsert db.slotsToKeys (indexed key) none).1 _ :=
      (raxGenericInsert_refines h.represents hadmits.short true).1
    have hmap : (slotToKeyAdd { db with dict := insert key db.dict } key).indexMap =
        update db.indexMap (indexed key) (some none) := by
      funext s
      simp only [SlotDb.indexMap, slotToKeyAdd, slotToKeyUpdateKey, Finset.image_insert,
        Finset.mem_insert, update_apply]
      by_cases hs : s = indexed key <;> simp [hs]
    rw [hmap]
    exact hinsert
  · rw [hkeys]
    simp only [slotToKeyAdd, slotToKeyUpdateKey, if_true, update_apply]
    by_cases hslot : slot = keyHashSlot key
    · have hroom := hadmits.room
      rw [if_pos hslot, if_pos hslot.symm, Finset.card_insert_of_notMem (hnot _), h.count, ← hslot]
      rw [← hslot] at hroom
      exact Nat.mod_eq_of_lt (by omega)
    · rw [if_neg hslot, if_neg (Ne.symm hslot), h.count]
  · rw [hkeys]
    split_ifs with hslot
    · rw [Finset.card_insert_of_notMem (hnot _), ← hslot]
      exact hadmits.room
    · exact h.small slot

theorem SlotDb.Mirrors.remove (h : db.Mirrors) (hkey : key ∈ db.dict) :
    (slotToKeyDel { db with dict := db.dict.erase key } key).Mirrors := by
  have hkeys : ∀ slot, (slotToKeyDel { db with dict := db.dict.erase key } key).slotKeys slot =
      (db.slotKeys slot).erase key := fun slot => slotKeys_erase slot
  refine ⟨?_, fun slot => ?_, fun slot => ?_⟩
  · have hremove := (raxRemove_refines (s := indexed key) h.represents).1
    have hmap : (slotToKeyDel { db with dict := db.dict.erase key } key).indexMap =
        update db.indexMap (indexed key) none := by
      funext s
      simp only [SlotDb.indexMap, slotToKeyDel, slotToKeyUpdateKey,
        Finset.image_erase indexed_injective, Finset.mem_erase, update_apply]
      by_cases hs : s = indexed key <;> simp [hs]
    rw [hmap]
    exact hremove
  · rw [hkeys]
    simp only [slotToKeyDel, slotToKeyUpdateKey, Bool.false_eq_true, if_false,
      update_apply]
    have hsmall := h.small slot
    by_cases hslot : slot = keyHashSlot key
    · have hmem : key ∈ db.slotKeys slot := Finset.mem_filter.mpr ⟨hkey, hslot.symm⟩
      have hpos := Finset.card_pos.mpr ⟨key, hmem⟩
      rw [if_pos hslot, ← hslot, Finset.card_erase_of_mem hmem, h.count]
      omega
    · have hmem : key ∉ db.slotKeys slot := fun hmem =>
        hslot (Finset.mem_filter.mp hmem).2.symm
      rw [if_neg hslot, Finset.erase_eq_of_notMem hmem, h.count]
  · rw [hkeys]
    exact lt_of_le_of_lt (Finset.card_erase_le) (h.small slot)

theorem SlotDb.Mirrors.dbDelete (h : db.Mirrors) (key : Bytes) :
    (dbDelete db key).1.Mirrors ∧ (Cluster.dbDelete db key).1.dict = db.dict.erase key := by
  rw [Cluster.dbDelete]
  split_ifs with hkey
  · exact ⟨h.remove hkey, rfl⟩
  · exact ⟨h, (Finset.erase_eq_of_notMem hkey).symm⟩

end Updates

section Slot

/-- The entries of the tree that begin with the bytes of a slot. -/
def slotEntries (rax : Rax Unit) (slot : Nat) : List (Entry Unit) :=
  rax.head.entries.filter fun e => e.1.take 2 = slotBytes slot

/-- From the first string at or behind the bytes of a slot on, the keys of the slot come
first. -/
theorem takeWhile_onward {rax : Rax Unit} (hwf : rax.head.Wf) (slot : Nat) :
    (rax.head.entries.filter fun e => ¬ e.1 < slotBytes slot).takeWhile
        (fun e => e.1.take 2 = slotBytes slot) = slotEntries rax slot := by
  have hbehind : ∀ e : Entry Unit, e.1.take 2 = slotBytes slot → ¬ e.1 < slotBytes slot := by
    intro e he hlt
    rw [← take_append_drop 2 e.1, he] at hlt
    exact List.not_lt.mpr (prefix_append _ _).le hlt
  have hsorted := (hwf.sorted.filter fun e => ¬ e.1 < slotBytes slot).imp_of_mem
    (S := fun a b : Entry Unit => ¬ a.1 < slotBytes slot ∧ a.1 < b.1)
    (fun ha _ hlt => ⟨by simpa using (mem_filter.mp ha).2, hlt⟩)
  rw [SortedMap.takeWhile_eq_filter hsorted, filter_filter, slotEntries]
  · apply filter_congr
    intro e _
    by_cases he : e.1.take 2 = slotBytes slot <;> simp [he, hbehind e]
  · rintro a b ⟨hge, hlt⟩ hb
    rw [decide_eq_true_eq] at hb ⊢
    rw [← take_append_drop 2 b.1, hb] at hlt
    exact (prefix_iff_eq_take.mp (prefix_of_between hge hlt)).symm

/-- The loop of `getKeysInSlot` stores what comes, up to the first key of another slot. -/
theorem getKeysLoop_eq {rax : Rax Unit} (h : rax.Inv) (slot count : Nat) {it : Iterator Unit}
    {l : List (Entry Unit)} (hl : it.Pending rax.head (fun c => c.onward 0) l) :
    getKeysLoop rax (slotBytes slot) count it =
      ((l.takeWhile fun e => e.1.take 2 = slotBytes slot).take count).map fun e => e.1.drop 2 := by
  induction count generalizing it l with
  | zero => simp [getKeysLoop]
  | succ count ih =>
    have hstep := raxNext_yields h it l hl
    cases l with
    | nil => simp [getKeysLoop, hstep.1]
    | cons e rest =>
      obtain ⟨hone, _, rfl, hrest⟩ := hstep
      rw [getKeysLoop, if_pos hone]
      split_ifs with hother
      · rw [takeWhile_cons_of_neg (by simpa using hother)]
        rfl
      · rw [takeWhile_cons_of_pos (by simpa using hother), take_succ_cons,
          map_cons, ih hrest]

section

variable (h : db.Mirrors)
include h

theorem SlotDb.Mirrors.mem_entries (e : Entry Unit) :
    e ∈ db.slotsToKeys.head.entries ↔ e.2 = none ∧ ∃ key ∈ db.dict, indexed key = e.1 := by
  obtain ⟨s, v⟩ := e
  rw [h.represents.mem, SlotDb.indexMap]
  split_ifs with hmem
  · rw [Finset.mem_image] at hmem
    simp only [Option.some.injEq, hmem, and_true]
    exact eq_comm
  · rw [Finset.mem_image] at hmem
    simp [hmem]

variable (hslot : slot < clusterSlots)
include hslot

theorem SlotDb.Mirrors.mem_slotEntries (e : Entry Unit) : e ∈ slotEntries db.slotsToKeys slot ↔
      e.2 = none ∧ ∃ key ∈ db.slotKeys slot, indexed key = e.1 := by
  rw [slotEntries, mem_filter, h.mem_entries, decide_eq_true_eq]
  constructor
  · rintro ⟨⟨hnull, key, hkey, heq⟩, hbytes⟩
    rw [← heq, indexed_take] at hbytes
    have hkeyslot := slotBytes_injective (keyHashSlot_lt_clusterSlots key) hslot hbytes
    exact ⟨hnull, key, Finset.mem_filter.mpr ⟨hkey, hkeyslot⟩, heq⟩
  · rintro ⟨hnull, key, hkey, heq⟩
    obtain ⟨hmem, hkeyslot⟩ := Finset.mem_filter.mp hkey
    refine ⟨⟨hnull, key, hmem, heq⟩, ?_⟩
    rw [← heq, indexed_take, hkeyslot]

/-- The keys of the slot, in the order of the tree. -/
theorem SlotDb.Mirrors.slotList :
    ((slotEntries db.slotsToKeys slot).map fun e => e.1.drop 2).Nodup ∧
      (∀ key, key ∈ (slotEntries db.slotsToKeys slot).map (fun e => e.1.drop 2) ↔
        key ∈ db.slotKeys slot) := by
  constructor
  · have hnodup : (slotEntries db.slotsToKeys slot).Nodup :=
      (h.represents.inv.wf.keys_nodup.of_map _).filter _
    refine hnodup.map_on ?_
    intro e he e' he' hdrop
    obtain ⟨hnull, key, _, heq⟩ := (h.mem_slotEntries hslot e).mp he
    obtain ⟨hnull', key', _, heq'⟩ := (h.mem_slotEntries hslot e').mp he'
    rw [← heq, ← heq', indexed_drop, indexed_drop] at hdrop
    exact Prod.ext (by rw [← heq, ← heq', hdrop]) (hnull.trans hnull'.symm)
  · intro key
    rw [mem_map]
    constructor
    · rintro ⟨e, he, rfl⟩
      obtain ⟨_, key, hkey, heq⟩ := (h.mem_slotEntries hslot e).mp he
      rw [← heq, indexed_drop]
      exact hkey
    · intro hkey
      exact ⟨(indexed key, none), (h.mem_slotEntries hslot _).mpr ⟨rfl, key, hkey, rfl⟩, rfl⟩

theorem SlotDb.Mirrors.slotEntries_length :
    (slotEntries db.slotsToKeys slot).length = (db.slotKeys slot).card := by
  obtain ⟨hnodup, hmem⟩ := h.slotList hslot
  have hfinset : ((slotEntries db.slotsToKeys slot).map fun e => e.1.drop 2).toFinset =
      db.slotKeys slot := by
    ext key
    rw [mem_toFinset, hmem]
  rw [← hfinset, toFinset_card_of_nodup hnodup, length_map]

theorem SlotDb.Mirrors.getKeysInSlot (count : Nat) : getKeysInSlot db slot count =
      some (((slotEntries db.slotsToKeys slot).take count).map fun e => e.1.drop 2) := by
  have hpending := raxSeek_ge_pending h.represents.inv raxStart (slotBytes slot)
  have hlen := h.slotEntries_length hslot
  have hsmall := h.small slot
  unfold Cluster.getKeysInSlot
  simp only [getKeysLoop_eq h.represents.inv slot count hpending,
    takeWhile_onward h.represents.inv.wf]
  rw [if_pos]
  rw [length_map, length_take]
  omega

/-- While a slot has keys, the seek of `delKeysInSlot` finds one of them. -/
theorem SlotDb.Mirrors.firstKey (hne : (db.slotKeys slot).card ≠ 0) (it : Iterator Unit) :
    (raxNext db.slotsToKeys (raxSeek db.slotsToKeys it .ge (slotBytes slot))).1.cur.key.drop 2 ∈
      db.slotKeys slot := by
  have hpending := raxSeek_ge_pending h.represents.inv it (slotBytes slot)
  have hstep := raxNext_yields h.represents.inv _ _ hpending
  have hkeys := takeWhile_onward h.represents.inv.wf slot
  have hlen := h.slotEntries_length hslot
  cases hl : db.slotsToKeys.head.entries.filter (fun e => ¬ e.1 < slotBytes slot) with
  | nil =>
    rw [hl, takeWhile_nil] at hkeys
    rw [← hkeys, length_nil] at hlen
    exact absurd hlen.symm hne
  | cons e rest =>
    rw [hl] at hstep hkeys
    obtain ⟨_, _, hentry, _⟩ := hstep
    have hfirst : e ∈ slotEntries db.slotsToKeys slot := by
      by_cases he : e.1.take 2 = slotBytes slot
      · rw [← hkeys, takeWhile_cons_of_pos (by simpa using he)]
        exact mem_cons_self ..
      · rw [takeWhile_cons_of_neg (by simpa using he)] at hkeys
        rw [← hkeys, length_nil] at hlen
        exact absurd hlen.symm hne
    have hmem := ((h.slotList hslot).2 (e.1.drop 2)).mp (mem_map_of_mem hfirst)
    rw [← hentry] at hmem
    exact hmem

end

/-- The loop of `delKeysInSlot` removes a key of the slot in every round. -/
theorem delKeysLoop_eq (hslot : slot < clusterSlots) {n : Nat} {db : SlotDb} (h : db.Mirrors)
    (hn : (db.slotKeys slot).card = n) (it : Iterator Unit) {j : Nat} (hj : j + n < 2 ^ 31) :
    ∃ db', (∀ fuel, n < fuel → delKeysLoop slot fuel db it j = some (db', j + n)) ∧
      db'.dict = db.dict \ db.slotKeys slot := by
  induction n generalizing db it j with
  | zero =>
    refine ⟨db, fun fuel hfuel => ?_, ?_⟩
    · obtain ⟨fuel, rfl⟩ := Nat.exists_eq_succ_of_ne_zero (ne_of_gt hfuel)
      rw [delKeysLoop, h.count, if_pos hn]
      rfl
    · rw [Finset.card_eq_zero.mp hn, Finset.sdiff_empty]
  | succ n ih =>
    have hkey := h.firstKey hslot (by omega) it
    generalize hfound : (raxNext db.slotsToKeys
      (raxSeek db.slotsToKeys it .ge (slotBytes slot))).1 = found at hkey
    obtain ⟨hmirrors, hdict⟩ := h.dbDelete (found.cur.key.drop 2)
    have hkeys : (dbDelete db (found.cur.key.drop 2)).1.slotKeys slot =
        (db.slotKeys slot).erase (found.cur.key.drop 2) := by
      rw [SlotDb.slotKeys, hdict, slotKeys_erase]
    have hcard := Finset.card_erase_of_mem hkey
    rw [← hkeys] at hcard
    obtain ⟨db', hloop, hdict'⟩ := ih hmirrors (by omega) found (j := j + 1) (by omega)
    refine ⟨db', fun fuel hfuel => ?_, ?_⟩
    · obtain ⟨fuel, rfl⟩ := Nat.exists_eq_succ_of_ne_zero (ne_of_gt (Nat.zero_lt_of_lt hfuel))
      rw [delKeysLoop, h.count, if_neg (by omega), if_neg (by omega)]
      rw [hfound, hloop fuel (by omega), add_right_comm]
      rfl
    · rw [hdict', hdict, hkeys]
      ext k
      simp only [Finset.mem_sdiff, Finset.mem_erase]
      have hsame : k = found.cur.key.drop 2 → k ∈ db.slotKeys slot := fun heq => heq ▸ hkey
      tauto

end Slot

/-- The databases that additions, deletions and flushes lead to, as long as only keys are
added that the index has room for. -/
inductive SlotRun : SlotDb → Prop
  | start : SlotRun emptyDb
  | add {db db' : SlotDb} {key : Bytes} (run : SlotRun db) (admits : db.Admits key)
      (added : dbAdd db key = some db') : SlotRun db'
  | load {db : SlotDb} {key : Bytes} (run : SlotRun db) (admits : db.Admits key) :
      SlotRun (dbAddRDBLoad db key).1
  | delete {db : SlotDb} (run : SlotRun db) (key : Bytes) : SlotRun (dbDelete db key).1
  | flush {db : SlotDb} (run : SlotRun db) : SlotRun emptyDb
  | deleteSlot {db db' : SlotDb} {slot fuel n : Nat} (run : SlotRun db)
      (hslot : slot < clusterSlots) (deleted : delKeysInSlot fuel db slot = some (db', n)) :
      SlotRun db'

/-- Every round is a deletion, whatever key it finds. -/
theorem delKeysLoop_mirrors {fuel j : Nat} (h : db.Mirrors) {it : Iterator Unit}
    {r : SlotDb × Nat} (hres : delKeysLoop slot fuel db it j = some r) : r.1.Mirrors := by
  induction fuel generalizing db it j with
  | zero => cases hres
  | succ fuel ih =>
    rw [delKeysLoop] at hres
    split_ifs at hres
    · rw [← Option.some.inj hres]
      exact h
    · exact ih (h.dbDelete _).1 hres

theorem SlotRun.mirrors (h : SlotRun db) : db.Mirrors := by
  induction h with
  | start => exact mirrors_emptyDb
  | @add db db' key run admits added ih =>
    rw [dbAdd] at added
    split_ifs at added with hkey
    rw [← Option.some.inj added]
    exact ih.add hkey admits
  | @load db key run admits ih =>
    rw [dbAddRDBLoad]
    split_ifs with hkey
    · exact ih
    · exact ih.add hkey admits
  | delete run key ih => exact (ih.dbDelete key).1
  | flush run ih => exact mirrors_emptyDb
  | deleteSlot run hslot deleted ih => exact delKeysLoop_mirrors ih deleted

/-- In every database that a run leads to, a slot's counter is the number of its keys, as many
of them are returned as are asked for and exist, and its deletion ends with all of them gone;
and keys with the same tag are in the same slot. -/
theorem slot_index_mirrors_keys {db : SlotDb} (h : SlotRun db) :
    (∀ slot < clusterSlots,
      countKeysInSlot db slot = (db.slotKeys slot).card ∧
      (∀ count, ∃ keys, getKeysInSlot db slot count = some keys ∧ keys.Nodup ∧
        keys.length = min count (db.slotKeys slot).card ∧ ∀ key ∈ keys, key ∈ db.slotKeys slot) ∧
      ∃ db', (∀ fuel, (db.slotKeys slot).card < fuel →
          delKeysInSlot fuel db slot = some (db', (db.slotKeys slot).card)) ∧
        db'.dict = db.dict \ db.slotKeys slot) ∧
    ∀ key key' tag, HasTag key tag → HasTag key' tag → key.length < 2 ^ 31 →
      key'.length < 2 ^ 31 → keyHashSlot key = keyHashSlot key' := by
  have hmirrors := h.mirrors
  refine ⟨fun slot hslot => ⟨?_, fun count => ?_, ?_⟩, fun key key' tag htag htag' hlen hlen' => ?_⟩
  · have hsmall := hmirrors.small slot
    rw [countKeysInSlot, hmirrors.count]
    exact Nat.mod_eq_of_lt (by omega)
  · obtain ⟨hnodup, hmem⟩ := hmirrors.slotList hslot
    refine ⟨_, hmirrors.getKeysInSlot hslot count, ?_, ?_, ?_⟩
    · rw [map_take]
      exact hnodup.sublist (take_sublist _ _)
    · rw [length_map, length_take, hmirrors.slotEntries_length hslot]
    · intro key hkey
      rw [map_take] at hkey
      exact (hmem key).mp (mem_of_mem_take hkey)
  · have hsmall := hmirrors.small slot
    obtain ⟨db', hloop, hdict⟩ := delKeysLoop_eq hslot hmirrors rfl raxStart (j := 0) (by omega)
    refine ⟨db', fun fuel hfuel => ?_, hdict⟩
    rw [delKeysInSlot, hloop fuel hfuel, Nat.zero_add]
  · rw [keyHashSlot_of_tag htag hlen, keyHashSlot_of_tag htag' hlen']

/-- Two keys with one tag. -/
def taggedDb : SlotDb :=
  (dbAddRDBLoad (dbAddRDBLoad emptyDb [123, 97, 125, 49]).1 [123, 97, 125, 50]).1

theorem slot_index_mirrors_keys_tagged :
    SlotRun taggedDb ∧ countKeysInSlot taggedDb 15495 = 2 := by
  have hfirst : emptyDb.Admits [123, 97, 125, 49] := ⟨by decide, by decide⟩
  have hsecond : (dbAddRDBLoad emptyDb [123, 97, 125, 49]).1.Admits [123, 97, 125, 50] :=
    ⟨by decide, by decide⟩
  have hrun : SlotRun taggedDb := .load (.load .start hfirst) hsecond
  exact ⟨hrun, (((slot_index_mirrors_keys hrun).1 15495 (by decide)).1).trans (by decide)⟩

/-- The length of a key of more than 2^31 bytes is negative as an `int`: nothing of it is
hashed, and its tag is not seen. -/
theorem overlong_tag_ignored :
    ∃ key key' tag, HasTag key tag ∧ HasTag key' tag ∧ keyHashSlot key ≠ keyHashSlot key' := by
  obtain ⟨b, hb⟩ : ∃ b : Bytes, b.length = 2 ^ 31 := ⟨_, length_replicate (a := 0)⟩
  refine ⟨[123, 116, 125], 123 :: ([116] ++ 125 :: b), [116], ⟨[], [], rfl, by decide⟩,
    ⟨[], b, rfl, by decide⟩, ?_⟩
  have hnegative : cInt (123 :: ([116] ++ 125 :: b) : Bytes).length < 0 := by
    simp only [length_cons, length_append, length_nil, hb]
    decide
  rw [keyHashSlot_of_negative hnegative]
  decide

end Redis.Cluster
