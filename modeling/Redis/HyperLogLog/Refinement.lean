import Redis.HyperLogLog.Commands
import Redis.HyperLogLog.Histogram
import Redis.Library.Simulation

/-! The HyperLogLog commands against their meaning: a key stands for the pairs of register
and pattern length of everything that was added to it or merged into it, and its
registers are the maxima of these pairs. -/
namespace Redis.HyperLogLog

open ByteBuffer PackedFields Shared Strings List Function

variable {o : Hll} {r : List Nat} {pairs : List (Nat × Nat)} {i : Nat} {key : Bytes} {srv : Server}

/-- The largest pattern length that was seen for a register. -/
def registerOf (pairs : List (Nat × Nat)) (i : Nat) : Nat :=
  (pairs.filter (·.1 = i)).foldl (fun m p => max m p.2) 0

def registersOf (pairs : List (Nat × Nat)) : List Nat :=
  (List.range hllRegisters).map (registerOf pairs)

inductive PfCommand where
  | pfadd (key : Bytes) (eles : List Bytes)
  | pfcount (keys : List Bytes)
  | pfmerge (dest : Bytes) (srcs : List Bytes)

/-- What the keys were made of. -/
def Spec : Type := Bytes → Option (List (Nat × Nat))

/-- Everything that went into some keys. -/
def Spec.union (s : Spec) (keys : List Bytes) : List (Nat × Nat) :=
  keys.flatMap fun key => (s key).getD []

def Spec.update (s : Spec) (key : Bytes) (pairs : List (Nat × Nat)) : Spec :=
  fun k => if k = key then some pairs else s k

def specStep (srv : Server) (s : Spec) : PfCommand → Spec × Reply
  | .pfadd key eles =>
    let old := (s key).getD []
    let new := old ++ eles.filterMap hllPatLen
    (s.update key new,
      .integer (if s key = none ∨ registersOf new ≠ registersOf old then 1 else 0))
  | .pfcount [key] =>
    (s, .integer (match s key with
      | none => 0
      | some pairs => toLongLong (srv.estimate (regHisto (registersOf pairs))).toNat))
  | .pfcount keys =>
    (s, .integer (toLongLong (srv.estimate (regHisto (registersOf (s.union keys)))).toNat))
  | .pfmerge dest srcs => (s.update dest (s.union (dest :: srcs)), .ok)

def pfExecute (srv : Server) (db : Db) : PfCommand → Outcome
  | .pfadd key eles => pfaddCommand srv db key eles
  | .pfcount keys => pfcountCommand srv db keys
  | .pfmerge dest srcs => pfmergeCommand srv db dest srcs

/-- A failed assertion takes the server down. -/
def pfStep (srv : Server) : Option Db → PfCommand → Option Db × Option Reply
  | none, _ => (none, none)
  | some db, cmd =>
    match pfExecute srv db cmd with
    | .done reply db => (some db, some reply)
    | .assertion => (none, none)

/-- The object stands for the registers, and a valid cache holds their estimate. -/
structure ObjOk (srv : Server) (o : Hll) (r : List Nat) : Prop where
  rep : Rep o r
  notused : o.notused.length = 3
  card : o.card.length = 8
  cached : o.validCache = true → readLE 8 o.card = (srv.estimate (regHisto r)).toNat

/-- The key space holds exactly the objects of these keys. -/
def Represents (srv : Server) (db : Db) (s : Spec) : Prop :=
  ∀ key, match s key with
    | none => db key = none
    | some pairs => ∃ o, db key = some (.str o.toBytes) ∧ ObjOk srv o (registersOf pairs)

section Pairs

theorem foldl_max (l : List (Nat × Nat)) (m : Nat) :
    l.foldl (fun m p => max m p.2) m = max m (l.foldl (fun m p => max m p.2) 0) := by
  induction l generalizing m with
  | nil => exact (Nat.max_zero m).symm
  | cons p l ih =>
    rw [foldl_cons, foldl_cons, ih, ih (max 0 p.2)]
    omega

theorem registerOf_append (a b : List (Nat × Nat)) (i : Nat) :
    registerOf (a ++ b) i = max (registerOf a i) (registerOf b i) := by
  rw [registerOf, filter_append, foldl_append, foldl_max]
  rfl

variable (pairs)

@[simp] theorem registersOf_length : (registersOf pairs).length = hllRegisters := by
  rw [registersOf, length_map, length_range]

theorem getD_registersOf (hi : i < hllRegisters) :
    (registersOf pairs).getD i 0 = registerOf pairs i := by
  rw [getD_eq_getElem _ _ (by rwa [registersOf_length])]
  simp [registersOf]

theorem registersOf_append (a b : List (Nat × Nat)) :
    registersOf (a ++ b) = zipWith max (registersOf a) (registersOf b) := by
  rw [registersOf, registersOf, registersOf, zipWith_map, zipWith_self]
  congr 1
  funext i
  exact registerOf_append a b i

theorem registersOf_nil : registersOf [] = emptyRegisters := by
  rw [registersOf, emptyRegisters, eq_replicate_iff]
  exact ⟨by simp, fun v hv => by
    obtain ⟨i, -, rfl⟩ := mem_map.mp hv
    rfl⟩

/-- One more pair raises its register, if it is above it. -/
theorem registersOf_concat (hi : i < hllRegisters) (c : Nat) :
    registersOf (pairs ++ [(i, c)]) = (registersOf pairs).set i (max ((registersOf pairs).getD i 0) c) := by
  refine ext_getD (by simp) fun j => ?_
  rw [getD_set _ (by simpa using hi)]
  rcases lt_or_ge j hllRegisters with hj | hj
  · rw [getD_registersOf _ hj, getD_registersOf _ hj, getD_registersOf _ hi, registerOf_append]
    split_ifs with hij
    · subst hij
      simp [registerOf]
    · simp [registerOf, hij]
  · rw [if_neg (by omega), getD_eq_default _ _ (by simpa using hj),
      getD_eq_default _ _ (by simpa using hj)]

end Pairs

section Hash

theorem hllPatLenLoop_bounds (fuel : Nat) (hash bit : UInt64) (count : Nat) :
    count ≤ hllPatLenLoop fuel hash bit count ∧ hllPatLenLoop fuel hash bit count ≤ count + fuel := by
  induction fuel generalizing bit count with
  | zero => exact ⟨le_refl _, le_refl _⟩
  | succ fuel ih =>
    rw [hllPatLenLoop]
    split_ifs
    · obtain ⟨hlo, hhi⟩ := ih (bit <<< 1) (count + 1)
      exact ⟨by omega, by omega⟩
    · exact ⟨le_refl _, Nat.le_add_right _ _⟩

/-- A register that exists, and a length that fits six bits. -/
theorem hllPatLen_bounds {ele : Bytes} {p : Nat × Nat} (h : hllPatLen ele = some p) :
    p.1 < hllRegisters ∧ 1 ≤ p.2 ∧ p.2 < 64 := by
  obtain ⟨hash, -, rfl⟩ := Option.map_eq_some_iff.mp h
  have hcount := hllPatLenLoop_bounds 50 ((hash >>> 14) ||| ((1 : UInt64) <<< 50)) 1 1
  refine ⟨?_, hcount.1, lt_of_le_of_lt hcount.2 (by norm_num)⟩
  exact lt_of_le_of_lt Nat.and_le_right (by decide)

/-- The length of a short element is the `int` that the hash is given. -/
theorem exists_hllPatLen {ele : Bytes} (h : ele.length < 2 ^ 31) : ∃ p, hllPatLen ele = some p := by
  rw [hllPatLen, murmurHash64A, intLen_of_lt h]
  exact ⟨_, rfl⟩

end Hash

section Stored

/-- An object is read back from its string. -/
theorem hllOfBytes_toBytes (hnotused : o.notused.length = 3) (hcard : o.card.length = 8)
    (hdense : o.encoding = .dense → o.registers.length = hllDenseSize - hllHdrSize) :
    hllOfBytes o.toBytes = some o := by
  obtain ⟨encoding, notused, card, registers⟩ := o
  obtain ⟨a, b, c, rfl⟩ := length_eq_three.mp hnotused
  let e : UInt8 := if encoding = .dense then 0 else 1
  have hstring : (Hll.mk encoding [a, b, c] card registers).toBytes =
      72 :: 89 :: 76 :: 76 :: e :: a :: b :: c :: (card ++ registers) := by simp [Hll.toBytes, magic, e]
  have hlen : (72 :: 89 :: 76 :: 76 :: e :: a :: b :: c :: (card ++ registers)).length =
      hllHdrSize + registers.length := by
    simp only [length_cons, length_append, hcard, hllHdrSize]
    omega
  have hcard' : ((72 :: 89 :: 76 :: 76 :: e :: a :: b :: c :: (card ++ registers)).drop 8).take 8 =
      card := take_left' hcard
  have hregs : (72 :: 89 :: 76 :: 76 :: e :: a :: b :: c :: (card ++ registers)).drop 16 =
      registers := drop_left' hcard
  rw [hllOfBytes, hstring, if_neg (by rw [hlen]; simp [magic])]
  simp only [hcard', hregs, hlen]
  cases encoding with
  | dense =>
    have hregisters := hdense rfl
    have hcode : (72 :: 89 :: 76 :: 76 :: e :: a :: b :: c :: (card ++ registers)).getD 4 0 = 0 := rfl
    rw [if_pos hcode, if_neg (by rw [hregisters]; decide)]
    rfl
  | sparse => rfl

theorem ObjOk.hllOfBytes_eq (h : ObjOk srv o r) : hllOfBytes o.toBytes = some o := by
  refine hllOfBytes_toBytes h.notused h.card fun hdense => ?_
  have hdata := h.rep.data
  rw [hdense] at hdata
  exact hdata.1

variable {srv : Server} {db : Db} {s : Spec}

section

variable (h : Represents srv db s)
include h

theorem Represents.lookup_none (hkey : s key = none) : lookupHll db key = .ok none := by
  have hdb := h key
  rw [hkey] at hdb
  simp only [lookupHll, hdb]

theorem Represents.lookup_some (hkey : s key = some pairs) :
    ∃ o, lookupHll db key = .ok (some o) ∧ ObjOk srv o (registersOf pairs) := by
  have hdb := h key
  rw [hkey] at hdb
  obtain ⟨o, hdb, hok⟩ := hdb
  exact ⟨o, by simp only [lookupHll, hdb, hok.hllOfBytes_eq], hok⟩

/-- Storing an object. -/
theorem Represents.set (key : Bytes) (hok : ObjOk srv o (registersOf pairs)) :
    Represents srv (db.set key o.toBytes) (s.update key pairs) := by
  intro k
  rcases eq_or_ne k key with rfl | hne
  · simp only [Spec.update, if_true]
    exact ⟨o, update_self .., hok⟩
  · simp only [Spec.update, hne, if_false, Db.set, Dict.set_of_ne hne]
    exact h k

/-- Storing the object of the same registers again changes nothing. -/
theorem Represents.set_same (hkey : s key = some pairs)
    (hok : ObjOk srv o (registersOf pairs)) : Represents srv (db.set key o.toBytes) s := by
  have hset := h.set key hok
  have hsame : s.update key pairs = s := by
    funext k
    rw [Spec.update]
    split_ifs with hk
    · rw [hk, hkey]
    · rfl
  rwa [hsame] at hset

end

theorem validCache_invalidateCache (hcard : o.card.length = 8) :
    o.invalidateCache.validCache = false := by
  have hbyte (b : UInt8) : (b ||| 128) &&& 128 ≠ 0 := by
    have htop : (b ||| 128) &&& 128 = 128 := by
      rw [← UInt8.toBitVec_inj, UInt8.toBitVec_and, UInt8.toBitVec_or]
      ext i hi
      simp only [BitVec.getElem_and, BitVec.getElem_or]
      cases b.toBitVec[i] <;> cases (128 : UInt8).toBitVec[i] <;> rfl
    rw [htop]
    decide
  rw [Hll.validCache, Hll.invalidateCache, getD_modify_self (by omega)]
  exact decide_eq_false (hbyte _)

/-- An object with the lengths of its header. -/
structure Shaped (o : Hll) (r : List Nat) : Prop where
  rep : Rep o r
  notused : o.notused.length = 3
  card : o.card.length = 8

/-- An object whose cache was invalidated, whatever the cache held. -/
theorem Shaped.invalidateCache (h : Shaped o r) : ObjOk srv o.invalidateCache r where
  rep := ⟨h.rep.length, h.rep.lt, h.rep.data⟩
  notused := h.notused
  card := (invalidateCache_card_length o).trans h.card
  cached hvalid := by simp [validCache_invalidateCache h.card] at hvalid

end Stored

section Add

variable {srv : Server} {db : Db} {s : Spec}

theorem ObjOk.shaped (h : ObjOk srv o r) : Shaped o r :=
  ⟨h.rep, h.notused, h.card⟩

theorem Raised.shaped {o o' : Hll} {index count : Nat} (h : Raised o r index count o')
    (ho : Shaped o r) : Shaped o' (r.set index count) :=
  ⟨h.rep, (congrArg length h.notused).trans ho.notused, h.card.trans ho.card⟩

theorem shaped_createHLLObject : Shaped createHLLObject (registersOf []) where
  rep := by
    rw [registersOf_nil]
    refine ⟨length_replicate, fun v hv => ?_, ?_⟩
    · rw [eq_of_mem_replicate hv]
      norm_num
    · refine ⟨[.xzero hllRegisters], by simp [Op.Valid, hllRegisters], rfl, ?_⟩
      rw [expandOps_cons, expandOps_nil, append_nil, emptyRegisters, Op.expand, Op.runlen, Op.regval]
  notused := rfl
  card := rfl

/-- One element: nothing happens, or its register is raised. -/
theorem hllAdd_spec (h : Shaped o (registersOf pairs)) (sparseMaxBytes : Nat) {ele : Bytes}
    {p : Nat × Nat} (hp : hllPatLen ele = some p) :
    (registersOf (pairs ++ [p]) = registersOf pairs ∧ hllAdd sparseMaxBytes o ele = .same o) ∨
      (registerOf pairs p.1 < registerOf (pairs ++ [p]) p.1 ∧
        ∃ o', hllAdd sparseMaxBytes o ele = .changed o' ∧ Shaped o' (registersOf (pairs ++ [p]))) := by
  obtain ⟨hindex, hpos, hcount⟩ := hllPatLen_bounds hp
  obtain ⟨index, count⟩ := p
  simp only [hllAdd, hp]
  have hconcat := registersOf_concat pairs hindex count
  have hraise : registerOf (pairs ++ [(index, count)]) index = max (registerOf pairs index) count := by
    simp [registerOf]
  rcases hllSet_spec h.rep sparseMaxBytes hindex hpos hcount with ⟨hle, hsame⟩ | ⟨hlt, o', hset, hraised⟩
  · refine .inl ⟨?_, hsame⟩
    rw [hconcat, max_eq_left hle, getD_eq_getElem _ _ (by simpa using hindex), set_getElem_self]
  · refine .inr ⟨?_, o', hset, ?_⟩
    · rw [getD_registersOf _ hindex] at hlt
      rw [hraise]
      exact lt_max_of_lt_right hlt
    · rw [hconcat, max_eq_right (le_of_lt hlt)]
      exact hraised.shaped h

/-- All elements: the count of updates tells whether a register was raised. -/
theorem addAll_spec (sparseMaxBytes : Nat) {eles : List Bytes} (hshort : ∀ ele ∈ eles, ele.length < 2 ^ 31)
    (h : Shaped o (registersOf pairs)) (updated : Nat) :
    (registersOf (pairs ++ eles.filterMap hllPatLen) = registersOf pairs ∧
        addAll sparseMaxBytes o updated eles = .ok o updated) ∨
      ((∃ i < hllRegisters, registerOf pairs i < registerOf (pairs ++ eles.filterMap hllPatLen) i) ∧
        ∃ o' updated', addAll sparseMaxBytes o updated eles = .ok o' updated' ∧ updated < updated' ∧
          Shaped o' (registersOf (pairs ++ eles.filterMap hllPatLen))) := by
  induction eles generalizing o pairs updated with
  | nil => exact .inl ⟨by simp, rfl⟩
  | cons ele eles ih =>
    obtain ⟨hele, heles⟩ := forall_mem_cons.mp hshort
    obtain ⟨p, hp⟩ := exists_hllPatLen hele
    have hsplit : pairs ++ (ele :: eles).filterMap hllPatLen =
        (pairs ++ [p]) ++ eles.filterMap hllPatLen := by simp [hp]
    have hmono (i : Nat) : registerOf pairs i ≤ registerOf (pairs ++ [p]) i := by
      rw [registerOf_append]
      exact le_max_left ..
    rw [hsplit]
    rcases hllAdd_spec h sparseMaxBytes hp with ⟨heq, hadd⟩ | ⟨hlt, o', hadd, ho'⟩
    · simp only [addAll, hadd]
      have h' : Shaped o (registersOf (pairs ++ [p])) := by rwa [heq]
      rcases ih heles h' updated with ⟨hall, hrest⟩ | ⟨⟨i, hi, hless⟩, hrest⟩
      · exact .inl ⟨hall.trans heq, hrest⟩
      · exact .inr ⟨⟨i, hi, lt_of_le_of_lt (hmono i) hless⟩, hrest⟩
    · have hraised : ∃ i < hllRegisters,
          registerOf pairs i < registerOf (pairs ++ [p] ++ eles.filterMap hllPatLen) i := by
        refine ⟨_, (hllPatLen_bounds hp).1, lt_of_lt_of_le hlt ?_⟩
        rw [registerOf_append (pairs ++ [p])]
        exact le_max_left ..
      simp only [addAll, hadd]
      refine .inr ⟨hraised, ?_⟩
      rcases ih heles ho' (updated + 1) with ⟨hall, hrest⟩ | ⟨-, o'', updated', hrest, hcount, hshaped⟩
      · exact ⟨o', updated + 1, hrest, Nat.lt_succ_self _, by rwa [hall]⟩
      · exact ⟨o'', updated', hrest, by omega, hshaped⟩

theorem registersOf_ne {a b : List (Nat × Nat)} (hi : i < hllRegisters)
    (hlt : registerOf a i < registerOf b i) : registersOf b ≠ registersOf a := by
  intro heq
  rw [← getD_registersOf a hi, ← getD_registersOf b hi, heq] at hlt
  exact lt_irrefl _ hlt

/-- `PFADD` against its meaning. -/
theorem pfadd_refines (h : Represents srv db s) (key : Bytes) {eles : List Bytes}
    (hshort : ∀ ele ∈ eles, ele.length < 2 ^ 31) :
    ∃ db', pfaddCommand srv db key eles = .done (specStep srv s (.pfadd key eles)).2 db' ∧
      Represents srv db' (specStep srv s (.pfadd key eles)).1 := by
  cases hkey : s key with
  | none =>
    -- a new key counts as an update, so the cache is invalidated in any case
    have hlookup := h.lookup_none hkey
    have hadd : ∃ o updated, addAll srv.hllSparseMaxBytes createHLLObject 1 eles = .ok o updated ∧
        updated ≠ 0 ∧ Shaped o (registersOf ([] ++ eles.filterMap hllPatLen)) := by
      rcases addAll_spec srv.hllSparseMaxBytes hshort shaped_createHLLObject 1 with
        ⟨heq, hadd⟩ | ⟨-, o, updated, hadd, hcount, ho⟩
      · exact ⟨_, 1, hadd, by norm_num, by rw [heq]; exact shaped_createHLLObject⟩
      · exact ⟨o, updated, hadd, by omega, ho⟩
    obtain ⟨o, updated, hadd, hcount, ho⟩ := hadd
    simp only [specStep, hkey, Option.getD_none, true_or, if_true, pfaddCommand, hlookup, hadd]
    rw [if_pos hcount]
    exact ⟨_, rfl, h.set key ho.invalidateCache⟩
  | some pairs =>
    obtain ⟨o, hlookup, hok⟩ := h.lookup_some hkey
    simp only [specStep, hkey, Option.getD_some, pfaddCommand, hlookup, reduceCtorEq, false_or, if_false]
    rcases addAll_spec srv.hllSparseMaxBytes hshort hok.shaped 0 with
      ⟨heq, hadd⟩ | ⟨⟨i, hi, hlt⟩, o', updated, hadd, hcount, ho'⟩
    · simp only [hadd]
      rw [if_neg (by simp), if_neg (by simpa using heq)]
      exact ⟨_, rfl, h.set key (by rw [heq]; exact hok)⟩
    · simp only [hadd]
      rw [if_pos (by omega), if_pos (registersOf_ne hi hlt)]
      exact ⟨_, rfl, h.set key ho'.invalidateCache⟩

end Add

section Merge

variable {srv : Server} {db : Db} {s : Spec}

variable (h : Represents srv db s)
include h

/-- Merging keys gives the registers of everything that went into them. -/
theorem mergeKeys_spec (keys : List Bytes) (pairs : List (Nat × Nat)) (useDense : Bool) :
    ∃ b, mergeKeys db keys (registersOf pairs) useDense =
      .ok (registersOf (pairs ++ s.union keys), b) := by
  induction keys generalizing pairs useDense with
  | nil => exact ⟨useDense, by simp [mergeKeys, Spec.union]⟩
  | cons key keys ih =>
    cases hkey : s key with
    | none =>
      have hunion : s.union (key :: keys) = s.union keys := by simp [Spec.union, hkey]
      rw [mergeKeys, h.lookup_none hkey, hunion]
      exact ih pairs useDense
    | some pairs' =>
      obtain ⟨o, hlookup, hok⟩ := h.lookup_some hkey
      have hunion : pairs ++ s.union (key :: keys) = (pairs ++ pairs') ++ s.union keys := by
        simp [Spec.union, hkey]
      rw [mergeKeys, hlookup, hunion]
      simp only [hllMerge_spec hok.rep (registersOf_length pairs), ← registersOf_append]
      exact ih _ _

omit h in
/-- Writing registers to an object raises those that are below. -/
theorem writeAll_spec (sparseMaxBytes : Nat) (counts : List Nat) (hcounts : ∀ c ∈ counts, c < 64)
    (h : Shaped o r) {j : Nat} (hj : j + counts.length ≤ hllRegisters) :
    ∃ o' r', writeAll sparseMaxBytes o j counts = some o' ∧ Shaped o' r' ∧
      ∀ k, r'.getD k 0 =
        if j ≤ k then max (r.getD k 0) (counts.getD (k - j) 0) else r.getD k 0 := by
  induction counts generalizing o r j with
  | nil => exact ⟨o, r, rfl, h, fun k => by simp⟩
  | cons count counts ih =>
    obtain ⟨hcount, hcounts⟩ := forall_mem_cons.mp hcounts
    rw [length_cons] at hj
    have hj' : j + 1 + counts.length ≤ hllRegisters := by omega
    have hhead (n : Nat) : (count :: counts).getD n 0 = if n = 0 then count else counts.getD (n - 1) 0 := by
      cases n <;> rfl
    -- the register at `j` is raised by now, the others follow
    have hnext {o' : Hll} {r' : List Nat} (ho' : Shaped o' r')
        (hr' : ∀ k, r'.getD k 0 = if j = k then max (r.getD k 0) count else r.getD k 0) :
        ∃ o'' r'', writeAll sparseMaxBytes o' (j + 1) counts = some o'' ∧ Shaped o'' r'' ∧
          ∀ k, r''.getD k 0 =
            if j ≤ k then max (r.getD k 0) ((count :: counts).getD (k - j) 0) else r.getD k 0 := by
      obtain ⟨o'', r'', hwrite, ho'', hr''⟩ := ih hcounts ho' hj'
      refine ⟨o'', r'', hwrite, ho'', fun k => ?_⟩
      rw [hr'' k, hr' k, hhead, Nat.sub_sub]
      split_ifs <;> first | rfl | omega
    rw [writeAll]
    split_ifs with hzero
    · exact hnext h fun k => by simp [hzero]
    · have hindex : j < hllRegisters := by omega
      rcases hllSet_spec h.rep sparseMaxBytes hindex (pos_of_ne_zero hzero) hcount with
        ⟨hle, hset⟩ | ⟨hlt, o', hset, hraised⟩
      · simp only [hset]
        refine hnext h fun k => ?_
        split_ifs with hjk
        · subst hjk
          omega
        · rfl
      · simp only [hset]
        refine hnext (hraised.shaped h) fun k => ?_
        rw [getD_set r (by rw [h.rep.length]; omega)]
        split_ifs with hjk
        · subst hjk
          omega
        · rfl

theorem Represents.registerOf_lt (hkey : s key = some pairs)
    (hi : i < hllRegisters) : registerOf pairs i < 64 := by
  obtain ⟨o, -, hok⟩ := h.lookup_some hkey
  rw [← getD_registersOf pairs hi]
  exact hok.rep.getD_lt i

theorem Represents.union_lt (keys : List Bytes) (hi : i < hllRegisters) :
    registerOf (s.union keys) i < 64 := by
  induction keys with
  | nil => exact Nat.zero_lt_succ _
  | cons key keys ih =>
    rw [Spec.union, flatMap_cons, registerOf_append]
    refine Nat.max_lt.mpr ⟨?_, ih⟩
    cases hkey : s key with
    | none => exact Nat.zero_lt_succ _
    | some pairs => exact h.registerOf_lt hkey hi

theorem Represents.mergeTarget_shaped (dest : Bytes) :
    Shaped (mergeTarget db dest) (registersOf ((s dest).getD [])) := by
  cases hkey : s dest with
  | none =>
    rw [mergeTarget, h.lookup_none hkey]
    exact shaped_createHLLObject
  | some pairs =>
    obtain ⟨o, hlookup, hok⟩ := h.lookup_some hkey
    rw [mergeTarget, hlookup]
    exact hok.shaped

omit h in
/-- The object the result is written to, converted or not. -/
theorem pfmerge_target (h : Shaped o r) (useDense : Bool) :
    ∃ o', (if useDense then hllSparseToDense o else .ok o) = .ok o' ∧ Shaped o' r := by
  cases useDense with
  | false => exact ⟨o, rfl, h⟩
  | true =>
    obtain ⟨registers, hconvert, hdense⟩ := hllSparseToDense_spec h.rep
    exact ⟨_, hconvert, ⟨h.rep.length, h.rep.lt, hdense⟩, h.notused, h.card⟩

/-- `PFMERGE` against its meaning. -/
theorem pfmerge_refines (dest : Bytes) (srcs : List Bytes) :
    ∃ db', pfmergeCommand srv db dest srcs = .done .ok db' ∧
      Represents srv db' (s.update dest (s.union (dest :: srcs))) := by
  obtain ⟨useDense, hmerge⟩ := mergeKeys_spec h (dest :: srcs) [] false
  rw [registersOf_nil, nil_append] at hmerge
  obtain ⟨o', htarget, hshaped'⟩ := pfmerge_target (h.mergeTarget_shaped dest) useDense
  have hcounts : ∀ c ∈ registersOf (s.union (dest :: srcs)), c < 64 := by
    intro c hc
    obtain ⟨i, hi, rfl⟩ := mem_map.mp hc
    exact h.union_lt _ (mem_range.mp hi)
  obtain ⟨o'', r, hwrite, hshaped'', hr⟩ := writeAll_spec srv.hllSparseMaxBytes _ hcounts hshaped'
    (le_of_eq (by rw [registersOf_length, zero_add]))
  have hresult : r = registersOf (s.union (dest :: srcs)) := by
    refine ext_getD (by rw [hshaped''.rep.length, registersOf_length]) fun k => ?_
    rw [hr k, if_pos (Nat.zero_le k), Nat.sub_zero]
    rcases lt_or_ge k hllRegisters with hk | hk
    · rw [getD_registersOf _ hk, getD_registersOf _ hk, Spec.union, flatMap_cons, registerOf_append]
      omega
    · rw [getD_eq_default _ _ (by simpa using hk), getD_eq_default _ _ (by simpa using hk),
        Nat.max_self]
  rw [hresult] at hshaped''
  simp only [pfmergeCommand, hmerge, htarget, hwrite]
  exact ⟨_, rfl, h.set dest hshaped''.invalidateCache⟩

end Merge

section Count

variable {srv : Server} {db : Db} {s : Spec}

/-- `hllCount` of an object is the estimate of the histogram of its registers. -/
theorem hllCount_spec (srv : Server) (h : Rep o r) :
    hllCount srv o = (srv.estimate (regHisto r), false) := by
  have hdata := h.data
  cases henc : o.encoding with
  | dense =>
    rw [henc] at hdata
    simp only [hllCount, henc, hllDenseRegHisto_spec hdata h.length]
    rfl
  | sparse =>
    rw [henc] at hdata
    simp only [hllCount, henc, hllSparseRegHisto_spec hdata h.length]
    rfl

/-- `PFCOUNT` against its meaning: the cache is not seen. -/
theorem pfcount_refines (h : Represents srv db s) (keys : List Bytes) :
    ∃ db', pfcountCommand srv db keys = .done (specStep srv s (.pfcount keys)).2 db' ∧
      Represents srv db' (specStep srv s (.pfcount keys)).1 := by
  -- several keys, or none at all: the maximum is computed and nothing is cached
  have hmany : ∃ registers b, mergeKeys db keys emptyRegisters false = .ok (registers, b) ∧
      hllCountRaw srv registers = srv.estimate (regHisto (registersOf (s.union keys))) := by
    obtain ⟨b, hmerge⟩ := mergeKeys_spec h keys [] false
    rw [registersOf_nil, nil_append] at hmerge
    refine ⟨_, b, hmerge, ?_⟩
    rw [hllCountRaw, hllRawRegHisto_spec (registersOf_length _)]
    rfl
  obtain ⟨registers, b, hmerge, hcount⟩ := hmany
  rcases keys with _ | ⟨key, _ | ⟨key', keys⟩⟩
  · simp only [pfcountCommand, hmerge, hcount, specStep]
    exact ⟨db, rfl, h⟩
  · simp only [pfcountCommand, pfcountSingle, specStep]
    cases hkey : s key with
    | none =>
      rw [h.lookup_none hkey]
      exact ⟨db, rfl, h⟩
    | some pairs =>
      obtain ⟨o, hlookup, hok⟩ := h.lookup_some hkey
      simp only [hlookup, hllCount_spec srv hok.rep, if_false, Bool.false_eq_true]
      split_ifs with hvalid
      · rw [hok.cached hvalid]
        exact ⟨db, rfl, h⟩
      · refine ⟨_, rfl, h.set_same hkey ?_⟩
        exact ⟨⟨hok.rep.length, hok.rep.lt, hok.rep.data⟩, hok.notused, leBytes_length .., fun _ =>
          by simpa using readLE_leBytes_of_lt (UInt64.toNat_lt _) []⟩
  · simp only [pfcountCommand, hmerge, hcount, specStep]
    exact ⟨db, rfl, h⟩

end Count

/-- The elements that a command adds are shorter than `2 ^ 31` bytes. -/
def PfCommand.Short : PfCommand → Prop
  | .pfadd _ eles => ∀ ele ∈ eles, ele.length < 2 ^ 31
  | .pfcount _ => True
  | .pfmerge _ _ => True

/-- One command: the server stays up, replies what its meaning says, and keeps the objects. -/
theorem pfExecute_refines {db : Db} {s : Spec} (h : Represents srv db s) {cmd : PfCommand}
    (hshort : cmd.Short) :
    ∃ db', pfExecute srv db cmd = .done (specStep srv s cmd).2 db' ∧
      Represents srv db' (specStep srv s cmd).1 := by
  cases cmd with
  | pfadd key eles => exact pfadd_refines h key hshort
  | pfcount keys => exact pfcount_refines h keys
  | pfmerge dest srcs => exact pfmerge_refines h dest srcs

/-- The server is up, and its key space stands for these keys. -/
def Running (srv : Server) (st : Option Db) (s : Spec) : Prop :=
  ∃ db, st = some db ∧ Represents srv db s

/-- A run of commands on an empty key space, beside its meaning. -/
theorem run_running (srv : Server) {cmds : List PfCommand} (hshort : ∀ cmd ∈ cmds, cmd.Short) :
    Running srv (Simulation.run (pfStep srv) (some fun _ => none) cmds).1
        (Simulation.run (specStep srv) (fun _ => none) cmds).1 ∧
      List.Forall₂ (fun reply reply' => reply = some reply')
        (Simulation.run (pfStep srv) (some fun _ => none) cmds).2
        (Simulation.run (specStep srv) (fun _ => none) cmds).2 := by
  have hstep : ∀ st t cmd, Running srv st t → cmd.Short →
      Running srv (pfStep srv st cmd).1 (specStep srv t cmd).1 ∧
        (pfStep srv st cmd).2 = some (specStep srv t cmd).2 := by
    rintro st t cmd ⟨db, rfl, hrep⟩ hcmd
    obtain ⟨db', hexec, hrep'⟩ := pfExecute_refines hrep hcmd
    rw [pfStep, hexec]
    exact ⟨⟨db', rfl, hrep'⟩, rfl⟩
  have hempty : Running srv (some fun _ => none) (fun _ => none) := ⟨_, rfl, fun _ => rfl⟩
  exact Simulation.run_simulates hstep hempty
    (Simulation.RunOk.of_forall (fun cmd hcmd => hshort cmd hcmd) _)

/-- From an empty key space the commands act as pointwise maxima, as long as no element of `PFADD`
has `2 ^ 31` bytes: the server stays up, the replies are those of the pairs, every key reads as the
maxima of its pairs, in either encoding, and a valid cache is the estimate of its registers.
Registers that are equal have equal histograms in the three encodings. -/
theorem hyperloglog_refines_maxima (srv : Server) (cmds : List PfCommand)
    (hshort : ∀ cmd ∈ cmds, cmd.Short) :
    (∃ db : Db, Simulation.run (pfStep srv) (some fun _ => none) cmds =
        (some db, (Simulation.run (specStep srv) (fun _ => none) cmds).2.map some) ∧
      Represents srv db (Simulation.run (specStep srv) (fun _ => none) cmds).1) ∧
    ∀ (sparse dense : Bytes) (r : List Nat), r.length = hllRegisters → SparseRep sparse r →
      DenseRep dense r →
      hllSparseRegHisto sparse (List.replicate 64 0) = (regHisto r, false) ∧
      hllDenseRegHisto dense (List.replicate 64 0) = regHisto r ∧
      hllRawRegHisto r (List.replicate 64 0) = regHisto r := by
  refine ⟨?_, fun sparse dense r hlen hsparse hdense => ⟨hllSparseRegHisto_spec hsparse hlen _,
    hllDenseRegHisto_spec hdense hlen _, hllRawRegHisto_spec hlen _⟩⟩
  obtain ⟨⟨db, hdb, hrep⟩, hreplies⟩ := run_running srv hshort
  refine ⟨db, Prod.ext hdb ?_, hrep⟩
  rw [← List.forall₂_eq_eq_eq, List.forall₂_map_right_iff]
  exact hreplies

section Examples

/-- Two keys are made, and one is merged into the other. -/
def twoKeys : List PfCommand :=
  [.pfadd [107] [[97], [98]], .pfadd [106] [[99]], .pfmerge [107] [[106]]]

theorem twoKeys_short : ∀ cmd ∈ twoKeys, cmd.Short := by simp [twoKeys, PfCommand.Short]

theorem hyperloglog_refines_maxima_twoKeys : ∃ db : Db,
    Simulation.run (pfStep ⟨3000, fun _ => 3⟩) (some fun _ => none) twoKeys =
      (some db, [some (.integer 1), some (.integer 1), some .ok]) := by
  obtain ⟨⟨db, hrun, -⟩, -⟩ :=
    hyperloglog_refines_maxima ⟨3000, fun _ => 3⟩ twoKeys twoKeys_short
  exact ⟨db, hrun.trans rfl⟩

/-- An element of `2 ^ 31` bytes has a negative length for the hash, which reads on behind it. -/
theorem long_element_ends_server : ∃ ele : Bytes, ele.length = 2 ^ 31 ∧
    ∀ srv : Server, pfStep srv (some fun _ => none) (.pfadd [107] [ele]) = (none, none) := by
  obtain ⟨ele, hlen⟩ : ∃ ele : Bytes, ele.length = 2 ^ 31 := ⟨_, length_replicate (a := 0)⟩
  have hnone : hllPatLen ele = none := by
    rw [hllPatLen, murmurHash64A, hlen]
    rfl
  refine ⟨ele, hlen, fun srv => ?_⟩
  simp [pfStep, pfExecute, pfaddCommand, lookupHll, addAll, hllAdd, hnone]

end Examples

/-- After commands that add no element of `2 ^ 31` bytes, `PFCOUNT` of several keys replies what it
replies for the first of them once the others are merged into it. -/
theorem pfcount_of_merged (srv : Server) (cmds : List PfCommand) (hshort : ∀ cmd ∈ cmds, cmd.Short)
    (dest src : Bytes) (srcs : List Bytes) : ∃ db merged counted counted' reply,
      (Simulation.run (pfStep srv) (some fun _ => none) cmds).1 = some db ∧
      pfcountCommand srv db (dest :: src :: srcs) = .done reply counted ∧
      pfmergeCommand srv db dest (src :: srcs) = .done .ok merged ∧
      pfcountCommand srv merged [dest] = .done reply counted' := by
  obtain ⟨⟨db, hdb, hrep⟩, -⟩ := run_running srv hshort
  obtain ⟨counted, hcount, -⟩ := pfcount_refines hrep (dest :: src :: srcs)
  obtain ⟨merged, hmerge, hrep'⟩ := pfmerge_refines hrep dest (src :: srcs)
  obtain ⟨counted', hcount', -⟩ := pfcount_refines hrep' [dest]
  refine ⟨db, merged, counted, counted', _, hdb, hcount, hmerge, hcount'.trans ?_⟩
  simp [specStep, Spec.update]

theorem pfcount_of_merged_twoKeys : ∃ db merged counted counted' reply,
    (Simulation.run (pfStep ⟨3000, fun _ => 3⟩) (some fun _ => none) twoKeys).1 = some db ∧
      pfcountCommand ⟨3000, fun _ => 3⟩ db [[106], [107]] = .done reply counted ∧
      pfmergeCommand ⟨3000, fun _ => 3⟩ db [106] [[107]] = .done .ok merged ∧
      pfcountCommand ⟨3000, fun _ => 3⟩ merged [[106]] = .done reply counted' :=
  pfcount_of_merged ⟨3000, fun _ => 3⟩ twoKeys twoKeys_short [106] [107] []

end Redis.HyperLogLog
