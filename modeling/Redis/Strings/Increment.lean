import Redis.Shared

/-! `INCRBY` and `DECRBY` on objects that keys can share: a small integer is one object for all
its uses, and an object with one reference is changed in place. -/
namespace Redis.Strings

open ByteBuffer Util Shared Function Option

/-- A string with its encoding; an object of another type has no value here. -/
structure Robj where
  refcount : Nat
  value : Option Value

/-- The keys with the addresses of their objects. `shared.integers` is at the start, and
addresses from `next` on are free. -/
structure Keys where
  dict : Dict Nat
  objects : Nat → Robj
  next : Nat

def objSharedIntegers : Nat := 10000

def objSharedRefcount : Nat := 2 ^ 31 - 1

/-- A missing key counts from 0. -/
def getLongLongFromObject : Option Value → Option Int
  | none => some 0
  | some (.str s) => string2ll s
  | some (.int v) => some v

/-- The policy for `maxmemory` decides whether values may be shared integers. -/
def createStringObjectFromLongLongForValue (valueobj : Bool) (db : Keys) (value : Int) :
    Keys × Nat :=
  if value ≥ 0 ∧ value < objSharedIntegers ∧ valueobj = false then (db, value.toNat)
  else
    let o : Value :=
      if value ≥ -2 ^ 63 ∧ value ≤ 2 ^ 63 - 1 then .int value else .str (ll2string value)
    ({ db with objects := update db.objects db.next ⟨1, some o⟩, next := db.next + 1 }, db.next)

def decrRefCount (db : Keys) (o : Nat) : Keys :=
  let count := (db.objects o).refcount
  if count = objSharedRefcount then db
  else { db with objects := update db.objects o ⟨count - 1, (db.objects o).value⟩ }

/-- `dbAdd` or `dbOverwrite`. -/
def dbAddOrOverwrite (db : Keys) (key : Bytes) (val : Nat) : Keys :=
  let added := { db with dict := db.dict.set key val }
  match db.dict key with
  | none => added
  | some old => decrRefCount added old

/-- The object with the result, changed in place or a new one. -/
def storeCounter (valueobj : Bool) (db : Keys) (key : Bytes) (value : Int) : Keys × Nat :=
  match (db.dict key).filter fun o => (db.objects o).refcount = 1 ∧
      ((db.objects o).value matches some (.int _)) ∧ (value < 0 ∨ value ≥ objSharedIntegers) ∧
      value ≥ -2 ^ 63 ∧ value ≤ 2 ^ 63 - 1 with
  | some o => ({ db with objects := update db.objects o ⟨1, some (.int value)⟩ }, o)
  | none =>
    let (db, new) := createStringObjectFromLongLongForValue valueobj db value
    (dbAddOrOverwrite db key new, new)

/-- The value of a key; inside, none for another type. -/
def Keys.get (db : Keys) (key : Bytes) : Option (Option Value) :=
  (db.dict key).map fun o => (db.objects o).value

/-- The sum of two `long long` numbers wraps around. -/
def incrDecrCommand (valueobj : Bool) (db : Keys) (key : Bytes) (incr : Int) :
    Keys × Except String Bytes :=
  if db.get key = some none then (db, .error wrongtypeerr)
  else
    match getLongLongFromObject (db.get key).join with
    | none => (db, .error (addReplyError "value is not an integer or out of range"))
    | some oldvalue =>
      if incrementOverflows oldvalue incr then
        (db, .error (addReplyError "increment or decrement would overflow"))
      else
        let (db, new) := storeCounter valueobj db key ((oldvalue + incr).bmod (2 ^ 64))
        (db, .ok (58 :: ((db.objects new).value.elim [] Value.text ++ [13, 10])))

inductive CounterCommand where
  | incrby
  | decrby

/-- `incrbyCommand` and `decrbyCommand`; `-incr` wraps around as well. -/
def CounterCommand.run (cmd : CounterCommand) (valueobj : Bool) (db : Keys) (key arg : Bytes) :
    Keys × Except String Bytes :=
  match getLongLongFromObjectOrReply arg none with
  | .error err => (db, .error err)
  | .ok incr =>
    match cmd with
    | .incrby => incrDecrCommand valueobj db key incr
    | .decrby => incrDecrCommand valueobj db key ((-incr).bmod (2 ^ 64))

/-- The exact result. -/
def CounterCommand.result : CounterCommand → Int → Int → Int
  | .incrby, v, n => v + n
  | .decrby, v, n => v - n

/-- A result that fits is the reply and the text of the key, and other keys keep their values;
one that does not fit is an error and changes nothing. -/
def Counts (db : Keys) (key : Bytes) (result : Int) (out : Keys × Except String Bytes) : Prop :=
  if -2 ^ 63 ≤ result ∧ result < 2 ^ 63 then
    out.2 = .ok (58 :: (ll2string result ++ [13, 10])) ∧
      (∃ o, out.1.get key = some (some o) ∧ o.text = ll2string result) ∧
      ∀ k, k ≠ key → out.1.get k = db.get k
  else (∃ err, out.2 = .error err) ∧ out.1 = db

/-- An object that counts one reference is the value of one key at most. -/
structure Keys.Sound (db : Keys) : Prop where
  shared : ∀ n < objSharedIntegers, db.objects n = ⟨objSharedRefcount, some (.int n)⟩
  owner : ∀ k k' o, db.dict k = some o → db.dict k' = some o → (db.objects o).refcount = 1 → k = k'
  allocated : ∀ k o, db.dict k = some o → o < db.next
  ints : ∀ k v, db.get k = some (some (.int v)) → -2 ^ 63 ≤ v ∧ v < 2 ^ 63

/-- The key holds an integer, in whatever encoding. -/
structure Keys.Stores (db : Keys) (key : Bytes) (v : Int) : Prop where
  sound : db.Sound
  text : db.get key = none ∧ v = 0 ∨ ∃ o, db.get key = some (some o) ∧ o.text = ll2string v
  low : -2 ^ 63 ≤ v
  high : v < 2 ^ 63

variable {db db' : Keys} {k key : Bytes} {value v n : Int} {valueobj : Bool}

theorem get_congr (hdict : db'.dict k = db.dict k)
    (hvalue : ∀ o, db.dict k = some o → (db'.objects o).value = (db.objects o).value) :
    db'.get k = db.get k := by
  rw [Keys.get, Keys.get, hdict]
  exact map_congr hvalue

theorem create_spec (hdb : db.Sound) (hlo : -2 ^ 63 ≤ value) (hhi : value < 2 ^ 63)
    {new : Nat} (hnew : createStringObjectFromLongLongForValue valueobj db value = (db', new)) :
    (db'.objects new).value = some (.int value) ∧ db'.dict = db.dict ∧
      ∀ k o, db.dict k = some o → db'.objects o = db.objects o := by
  rw [createStringObjectFromLongLongForValue] at hnew
  split_ifs at hnew with hshared hlong
  · cases hnew
    refine ⟨?_, rfl, fun _ _ _ => rfl⟩
    rw [hdb.shared _ (by omega), Int.toNat_of_nonneg hshared.1]
  · cases hnew
    exact ⟨by simp, rfl, fun k o hk => update_of_ne (hdb.allocated k o hk).ne ..⟩
  · omega

theorem dbAddOrOverwrite_spec (db : Keys) (key : Bytes) (val : Nat) :
    (dbAddOrOverwrite db key val).dict = db.dict.set key val ∧
      ∀ o, ((dbAddOrOverwrite db key val).objects o).value = (db.objects o).value := by
  rw [dbAddOrOverwrite]
  split
  · exact ⟨rfl, fun _ => rfl⟩
  · rename_i old _
    simp only [decrRefCount]
    split_ifs
    · exact ⟨rfl, fun _ => rfl⟩
    · refine ⟨rfl, fun o => ?_⟩
      rcases eq_or_ne o old with rfl | hne
      · simp
      · simp [update_of_ne hne]

theorem storeCounter_spec (hdb : db.Sound) (hlo : -2 ^ 63 ≤ value) (hhi : value < 2 ^ 63)
    {new : Nat} (hstore : storeCounter valueobj db key value = (db', new)) :
    db'.dict key = some new ∧ (db'.objects new).value = some (.int value) ∧
      ∀ k, k ≠ key → db'.get k = db.get k := by
  rw [storeCounter] at hstore
  split at hstore
  · rename_i o hfilter
    cases hstore
    obtain ⟨hkey, hplace⟩ := filter_eq_some_iff.mp hfilter
    refine ⟨hkey, by simp, fun k hne => get_congr rfl fun p hk => ?_⟩
    -- no other key has this object
    have hp : p ≠ new := by
      rintro rfl
      exact hne (hdb.owner k key p hk hkey (of_decide_eq_true hplace).1)
    simp [update_of_ne hp]
  · generalize hnew : createStringObjectFromLongLongForValue valueobj db value = created at hstore
    obtain ⟨hvalue, hdict, hold⟩ := create_spec hdb hlo hhi hnew
    cases hstore
    obtain ⟨hset, hvalues⟩ := dbAddOrOverwrite_spec created.1 key created.2
    refine ⟨by simp [hset], by rw [hvalues, hvalue], fun k hne => get_congr ?_ fun o hk => ?_⟩
    · simp [hset, hdict, Dict.set_of_ne hne]
    · rw [hvalues, hold k o hk]

/-- The integer is read back from its text in either encoding. -/
theorem Keys.Stores.read (h : db.Stores key v) :
    db.get key ≠ some none ∧ getLongLongFromObject (db.get key).join = some v := by
  have hread := string2ll_of_ll2string h.low h.high
  rcases h.text with ⟨hnone, rfl⟩ | ⟨⟨s⟩ | ⟨w⟩, hget, htext⟩
  · rw [hnone]
    exact ⟨nofun, rfl⟩
  · rw [hget]
    exact ⟨nofun, (congrArg string2ll htext).trans hread⟩
  · obtain ⟨hlo, hhi⟩ := h.sound.ints key w hget
    rw [hget]
    exact ⟨nofun, (string2ll_of_ll2string hlo hhi).symm.trans ((congrArg string2ll htext).trans hread)⟩

/-- The command adds exactly, or it finds the overflow. -/
theorem Keys.Stores.counts (h : db.Stores key v) (hlo : -2 ^ 63 ≤ n) (hhi : n < 2 ^ 63) :
    Counts db key (v + n) (incrDecrCommand valueobj db key n) := by
  rw [incrDecrCommand, if_neg h.read.1, h.read.2, Counts]
  simp only [incrementOverflows_eq h.low h.high hlo hhi, decide_eq_true_eq]
  split_ifs with hfits
  · rw [Int.bmod_eq_of_le (by omega) (by omega)]
    generalize hstore : storeCounter valueobj db key (v + n) = stored
    obtain ⟨hdict, hvalue, hothers⟩ := storeCounter_spec h.sound hfits.1 hfits.2 hstore
    refine ⟨by rw [hvalue]; rfl, ⟨.int (v + n), ?_, rfl⟩, hothers⟩
    rw [Keys.get, hdict, map_some, hvalue]
  · exact ⟨⟨_, rfl⟩, rfl⟩

/-- Of two results that fit the same outcome, both fit 64 bits or none. -/
theorem Counts.fits_iff {a b : Int} {out : Keys × Except String Bytes} (ha : Counts db key a out)
    (hb : Counts db key b out) : -2 ^ 63 ≤ a ∧ a < 2 ^ 63 ↔ -2 ^ 63 ≤ b ∧ b < 2 ^ 63 := by
  rw [Counts] at ha hb
  split_ifs at ha hb with hafits hbfits hbfits
  · exact iff_of_true hafits hbfits
  · obtain ⟨⟨err, herr⟩, -⟩ := hb
    exact nomatch ha.1.symm.trans herr
  · obtain ⟨⟨err, herr⟩, -⟩ := ha
    exact nomatch hb.1.symm.trans herr
  · exact iff_of_false hafits hbfits

/-- One key, with the shared integer 7. -/
def counterKeys : Keys where
  dict k := if k = [107] then some 7 else none
  objects n := ⟨objSharedRefcount, some (.int n)⟩
  next := objSharedIntegers

theorem counterKeys_stores : counterKeys.Stores [107] 7 := by
  have hkey : ∀ k o, counterKeys.dict k = some o → k = [107] ∧ o = 7 := by
    intro k o h
    obtain ⟨hk, ho⟩ := ite_none_right_eq_some.mp h
    exact ⟨hk, (some.inj ho).symm⟩
  refine ⟨⟨fun _ _ => rfl, ?_, ?_, ?_⟩, .inr ⟨.int 7, rfl, rfl⟩, by decide, by decide⟩
  · exact fun k k' o hk hk' _ => (hkey k o hk).1.trans (hkey k' o hk').1.symm
  · exact fun k o hk => (hkey k o hk).2 ▸ (by decide : 7 < objSharedIntegers)
  · intro k v hget
    obtain ⟨o, hk, ho⟩ := map_eq_some_iff.mp hget
    obtain ⟨rfl, rfl⟩ := hkey k o hk
    cases ho
    decide

/-- The commands are exact, but for `DECRBY` with the smallest number, where `v - 2^63` is
computed in place of `v + 2^63`. -/
theorem incrby_decrby_exact_iff (cmd : CounterCommand) (valueobj : Bool) (h : db.Stores key v)
    (hlo : -2 ^ 63 ≤ n) (hhi : n < 2 ^ 63) :
    Counts db key (cmd.result v n) (cmd.run valueobj db key (ll2string n)) ↔
      ¬ (cmd = .decrby ∧ n = -2 ^ 63) := by
  rw [CounterCommand.run, getLongLongFromObjectOrReply, string2ll_of_ll2string hlo hhi]
  cases cmd with
  | incrby => exact iff_of_true (h.counts hlo hhi) (by simp)
  | decrby =>
    by_cases hmin : n = -2 ^ 63
    · subst hmin
      refine iff_of_false (fun hexact => ?_) (fun hnot => hnot ⟨rfl, rfl⟩)
      have hneg : (-(-2 ^ 63 : Int)).bmod (2 ^ 64) = -2 ^ 63 := by decide
      have hfits := hexact.fits_iff (h.counts (by decide) (by decide))
      have hv := h.low
      have hv' := h.high
      simp only [CounterCommand.result] at hfits
      omega
    · refine iff_of_true ?_ fun hand => hmin hand.2
      have hneg : (-n).bmod (2 ^ 64) = -n := Int.bmod_eq_of_le (by omega) (by omega)
      simp only [hneg]
      exact h.counts (by omega) (by omega)

theorem incrby_decrby_exact_three :
    Counts counterKeys [107] (CounterCommand.incrby.result 7 3)
      (CounterCommand.incrby.run false counterKeys [107] (ll2string 3)) :=
  (incrby_decrby_exact_iff .incrby false counterKeys_stores (by decide) (by decide)).mpr nofun

/-- `DECRBY k -9223372036854775808` finds no overflow. -/
theorem decrby_smallest_subtracts :
    ¬ Counts counterKeys [107] (CounterCommand.decrby.result 7 (-2 ^ 63))
      (CounterCommand.decrby.run false counterKeys [107] (ll2string (-2 ^ 63))) := by
  intro h
  have hdiff : Counts counterKeys [107] (7 + -2 ^ 63)
      (CounterCommand.decrby.run false counterKeys [107] (ll2string (-2 ^ 63))) := by
    rw [CounterCommand.run, getLongLongFromObjectOrReply,
      string2ll_of_ll2string (by decide) (by decide)]
    exact counterKeys_stores.counts (by decide) (by decide)
  exact absurd (h.fits_iff hdiff) (by decide)

end Redis.Strings
