import Redis.Keyspace.Basic

/-! The commands that give a key an expire time, against exact arithmetic. The time is
computed in 64 bits, and neither `SET` nor `EXPIRE` looks for an overflow. -/
namespace Redis.Keyspace

open ByteBuffer Util Shared AList

/-- A clock that stands still. -/
def Clock.fixed (now : Int) : Clock := ⟨now, fun _ => now⟩

/-- The commands that take an expire time; `SET` with its options. -/
inductive TimedCommand where
  | expire (cmd : ExpireCommand)
  | set (val : Bytes) (options : List Bytes)
  | setex (val : Bytes)
  | psetex (val : Bytes)

namespace TimedCommand

def run {A : Type} (cmd : TimedCommand) (now : Int) (db : Db A) (key : Bytes) (n : Int) :
    Option (Db A × Reply) :=
  match cmd with
  | .expire cmd => expireFamilyCommand cmd (.fixed now) db key (ll2string n)
  | .set val options => setCommand (.fixed now) db key val options
  | .setex val => setexCommand (.fixed now) db key (ll2string n) val
  | .psetex val => psetexCommand (.fixed now) db key (ll2string n) val

/-- The options of `SET` are accepted, and `n` is the argument of `EX` or `PX`. -/
def Takes (n : Int) : TimedCommand → Prop
  | .set _ options => ∃ o, parseSetOptions options noOptions = some o ∧ o.expire = some (ll2string n)
  | _ => True

def setOptions (options : List Bytes) : SetOptions :=
  (parseSetOptions options noOptions).getD noOptions

/-- The milliseconds of one unit. -/
def scale : TimeUnit → Int
  | .seconds => 1000
  | .milliseconds => 1

/-- The expire time that is asked for. -/
def time (now n : Int) : TimedCommand → Int
  | .expire cmd => scale cmd.unit * n + if cmd.relative then now else 0
  | .set _ options => scale (setOptions options).unit * n + now
  | .setex _ => 1000 * n + now
  | .psetex _ => n + now

/-- The `EXPIRE` family deletes a key whose time is not in the future. -/
def deletes (now n : Int) (cmd : TimedCommand) : Bool :=
  match cmd with
  | .expire _ => decide (cmd.time now n ≤ now)
  | _ => false

end TimedCommand

/-- An error, or the reply to a condition of `SET` that is not met. -/
def Reply.refuses : Reply → Bool
  | .error _ => true
  | .null => true
  | _ => false

/-- The time is stored as it is asked for, or nothing changes. -/
def StoresRequestedTime {A : Type} (cmd : TimedCommand) (now : Int) (db : Db A) (key : Bytes)
    (n : Int) : Prop :=
  ∃ db' reply, cmd.run now db key n = some (db', reply) ∧
    ((reply.refuses = true ∧ db' = db) ∨
      (cmd.deletes now n = true ∧ db'.dict.lookup key = none ∧ db'.expires.lookup key = none) ∨
      (cmd.deletes now n = false ∧ (db'.dict.lookup key).isSome ∧
        db'.expires.lookup key = some (cmd.time now n)))

/-- The range of a `long long`. -/
def Fits (v : Int) : Prop := -2 ^ 63 ≤ v ∧ v < 2 ^ 63

instance (v : Int) : Decidable (Fits v) := inferInstanceAs (Decidable (_ ∧ _))

/-- The time asked for does not overflow, or what it wraps around to has the same effect. -/
def TimedCommand.InRange (now n : Int) (cmd : TimedCommand) : Prop :=
  match cmd with
  | .expire _ => Fits (cmd.time now n) ∨ (cmd.time now n ≤ now ∧ wrap64 (cmd.time now n) ≤ now)
  | .set _ options => n ≤ 0 ∨ (setOptions options).nx = true ∨ Fits (cmd.time now n)
  | _ => n ≤ 0 ∨ Fits (cmd.time now n)

theorem wrap64_eq_iff {v : Int} : wrap64 v = v ↔ Fits v := by
  rw [wrap64, Int.bmod_def, Fits]
  split_ifs <;> omega

theorem wrap64_add (v w : Int) : wrap64 (wrap64 v + w) = wrap64 (v + w) := Int.bmod_add_bmod

theorem wrap64_of_fits {v : Int} (h : Fits v) : wrap64 v = v := wrap64_eq_iff.mpr h

theorem expireWhen_eq (n basetime : Int) (unit : TimeUnit) :
    expireWhen basetime unit n = wrap64 (TimedCommand.scale unit * n + basetime) := by
  cases unit with
  | seconds =>
    rw [expireWhen, if_pos rfl, wrap64_add, TimedCommand.scale, Int.mul_comm]
  | milliseconds =>
    rw [expireWhen, if_neg (by simp), TimedCommand.scale, Int.one_mul]

theorem getLongLong_ll2string {n : Int} (hn : Fits n) (msg : Option String) :
    getLongLongFromObjectOrReply (ll2string n) msg = .ok n := by
  rw [getLongLongFromObjectOrReply, string2ll_of_ll2string hn.1 hn.2]

section Existing

variable {A : Type} {db : Db A} {key : Bytes} {now n : Int}

section

variable (hlive : keyIsExpired now db key = some false)
include hlive

theorem lookupKeyWrite_of_live : lookupKeyWrite now db key = some (db, db.dict.lookup key) := by
  rw [lookupKeyWrite, expireIfNeeded, hlive]
  rfl

/-- The clock of the commands stands still. -/
theorem lookupFixed_of_live :
    lookupKeyWrite (Clock.fixed now).cached db key = some (db, db.dict.lookup key) :=
  lookupKeyWrite_of_live hlive

theorem lookupIf_of_live (flag : Bool) (test : Option (Object A) → Bool) :
    lookupIf (.fixed now) flag db key test = some (db, flag && test (db.dict.lookup key)) := by
  cases flag with
  | false => rfl
  | true =>
    rw [lookupIf, if_pos rfl, lookupFixed_of_live hlive]
    rfl

variable (hkey : (db.dict.lookup key).isSome)
include hkey

omit hlive in
theorem isNone_of_key : (db.dict.lookup key).isNone = false := by
  rw [← Option.not_isSome, hkey]
  rfl

/-- A key that exists is overwritten, and its expire time set. -/
theorem setGenericWrite_of_live (val : Bytes) (keepttl : Bool) (ms : Int) (okReply : Reply) :
    ∃ db', setGenericWrite (.fixed now) db key val keepttl (some ms) okReply = some (db', okReply) ∧
      (db'.dict.lookup key).isSome ∧ db'.expires.lookup key = some (wrap64 (now + ms)) := by
  have hlookup := lookupFixed_of_live hlive
  have hnone := isNone_of_key hkey
  have hset : ∃ db₁, genericSetKey (Clock.fixed now).cached db key (.string val) keepttl true =
      some db₁ ∧ (db₁.dict.lookup key).isSome := by
    cases keepttl with
    | true =>
      simp only [genericSetKey, hlookup, Option.bind_eq_bind, Option.bind_some, hnone,
        Bool.false_eq_true, if_false, dbOverwrite, hkey, if_true]
      exact ⟨_, rfl, by simp [signalModifiedKey]⟩
    | false =>
      simp only [genericSetKey, hlookup, Option.bind_eq_bind, Option.bind_some, hnone,
        Bool.false_eq_true, if_false, dbOverwrite, hkey, if_true, removeExpire,
        lookup_insert, Option.isSome_some, Option.map_some]
      exact ⟨_, rfl, by simp [signalModifiedKey]⟩
  obtain ⟨db₁, hrun, hsome⟩ := hset
  refine ⟨{ db₁ with expires := db₁.expires.insert key (setWhen (.fixed now) ms) }, ?_, hsome, ?_⟩
  · rw [setGenericWrite, hrun]
    simp [setExpire, hsome]
  · exact lookup_insert _

/-- `EXPIRE` stores the time it has computed, or deletes the key. -/
theorem expireGeneric_of_live (hn : Fits n) {basetime when_ : Int} {unit : TimeUnit}
    (hwhen : expireWhen basetime unit n = when_) :
    ∃ db', expireGenericCommand (.fixed now) db key (ll2string n) basetime unit =
        some (db', .integer 1) ∧
      if when_ ≤ now then db'.dict.lookup key = none ∧ db'.expires.lookup key = none
      else (db'.dict.lookup key).isSome ∧ db'.expires.lookup key = some when_ := by
  have hlookup := lookupFixed_of_live hlive
  have hnone := isNone_of_key hkey
  rw [expireGenericCommand, getLongLong_ll2string hn]
  simp only [hwhen, hlookup, Option.bind_eq_bind, Option.bind_some, hnone, Bool.false_eq_true,
    if_false]
  by_cases hpast : when_ ≤ now
  · have hclock : when_ ≤ (Clock.fixed now).mstime 1 := hpast
    simp only [hclock, hpast, if_true, dbDelete, hkey]
    exact ⟨_, rfl, lookup_erase _ _, lookup_erase _ _⟩
  · have hclock : ¬ when_ ≤ (Clock.fixed now).mstime 1 := hpast
    simp only [hclock, hpast, if_false, setExpire, hkey, if_true, Option.bind_some]
    exact ⟨_, rfl, hkey, lookup_insert _⟩

/-- `SET` with an expire argument is refused, or stores the time after it has wrapped around. -/
theorem setGeneric_of_live (hn : Fits n) (name : String) {o : SetOptions}
    (hexpire : o.expire = some (ll2string n)) (val : Bytes) :
    ∃ db' reply, setGenericCommand (.fixed now) db name o key val .ok .null = some (db', reply) ∧
      if n ≤ 0 ∨ o.nx = true then reply.refuses = true ∧ db' = db
      else reply.refuses = false ∧ (db'.dict.lookup key).isSome ∧
        db'.expires.lookup key = some (wrap64 (TimedCommand.scale o.unit * n + now)) := by
  have hnone := isNone_of_key hkey
  rw [setGenericCommand, hexpire]
  simp only [setMilliseconds, getLongLong_ll2string hn]
  by_cases hpos : n ≤ 0
  · refine ⟨db, .error (addReplyError ("invalid expire time in " ++ name)), ?_, ?_⟩
    · simp [hpos, bind, Except.bind]
    · rw [if_pos (.inl hpos)]
      exact ⟨rfl, rfl⟩
  · simp only [bind, Except.bind, hpos, if_false, false_or]
    simp only [setGenericLookup, lookupIf_of_live hlive, hkey, hnone, Bool.and_true, Bool.and_false,
      Option.bind_eq_bind, Option.bind_some]
    cases hnx : o.nx with
    | true => exact ⟨db, .null, by simp, by simp [Reply.refuses]⟩
    | false =>
      obtain ⟨db', hrun, hsome, hstored⟩ := setGenericWrite_of_live hlive hkey val o.keepttl
        (if o.unit = .seconds then wrap64 (n * 1000) else n) .ok
      refine ⟨db', .ok, by simpa using hrun, ?_⟩
      rw [if_neg (by simp), hstored]
      refine ⟨rfl, hsome, congrArg some ?_⟩
      cases o.unit with
      | seconds => rw [if_pos rfl, Int.add_comm, wrap64_add, TimedCommand.scale, Int.mul_comm]
      | milliseconds => rw [if_neg (by simp), TimedCommand.scale, Int.one_mul, Int.add_comm]

theorem expire_stores_iff (hn : Fits n) (cmd : ExpireCommand) :
    StoresRequestedTime (.expire cmd) now db key n ↔ (TimedCommand.expire cmd).InRange now n := by
  obtain ⟨db', hrun, hafter⟩ := expireGeneric_of_live hlive hkey hn
    (expireWhen_eq n (if cmd.relative then now else 0) cmd.unit)
  have hasked : TimedCommand.scale cmd.unit * n + (if cmd.relative then now else 0) =
      (TimedCommand.expire cmd).time now n := rfl
  rw [hasked] at hafter
  have hrun' : (TimedCommand.expire cmd).run now db key n = some (db', .integer 1) := hrun
  simp only [TimedCommand.InRange]
  generalize htime : (TimedCommand.expire cmd).time now n = time at hafter ⊢
  have hdeletes : (TimedCommand.expire cmd).deletes now n = decide (time ≤ now) := by
    rw [← htime]
    rfl
  by_cases hpast : wrap64 time ≤ now
  · rw [if_pos hpast] at hafter
    constructor
    · rintro ⟨db'', reply, hrun'', hcase⟩
      rw [hrun'] at hrun''
      cases hrun''
      rcases hcase with ⟨hrefuses, -⟩ | ⟨hdeleted, -⟩ | ⟨-, hsome, -⟩
      · cases hrefuses
      · rw [hdeletes, decide_eq_true_eq] at hdeleted
        exact .inr ⟨hdeleted, hpast⟩
      · rw [hafter.1] at hsome
        cases hsome
    · intro hrange
      have htime_le : time ≤ now := by
        rcases hrange with hfits | ⟨hle, -⟩
        · rwa [wrap64_of_fits hfits] at hpast
        · exact hle
      exact ⟨db', _, hrun', .inr (.inl ⟨by rw [hdeletes, decide_eq_true htime_le], hafter⟩)⟩
  · rw [if_neg hpast] at hafter
    constructor
    · rintro ⟨db'', reply, hrun'', hcase⟩
      rw [hrun'] at hrun''
      cases hrun''
      rcases hcase with ⟨hrefuses, -⟩ | ⟨-, hnone, -⟩ | ⟨-, -, hexact⟩
      · cases hrefuses
      · rw [hnone] at hafter
        cases hafter.1
      · rw [hafter.2, htime] at hexact
        exact .inl (wrap64_eq_iff.mp (Option.some.inj hexact))
    · intro hrange
      have hfits : Fits time := by
        rcases hrange with hfits | ⟨-, hle⟩
        · exact hfits
        · exact absurd hle hpast
      have hlater : ¬ time ≤ now := by rwa [wrap64_of_fits hfits] at hpast
      refine ⟨db', _, hrun', .inr (.inr ⟨by rw [hdeletes, decide_eq_false hlater], hafter.1, ?_⟩)⟩
      rw [hafter.2, htime, wrap64_of_fits hfits]

/-- The three forms of `SET`, by their options. -/
theorem set_stores_iff (hn : Fits n) {cmd : TimedCommand} {name : String} {o : SetOptions}
    {val : Bytes} (hexpire : o.expire = some (ll2string n))
    (hrun : cmd.run now db key n = setGenericCommand (.fixed now) db name o key val .ok .null)
    (htime : cmd.time now n = TimedCommand.scale o.unit * n + now)
    (hdeletes : cmd.deletes now n = false) :
    StoresRequestedTime cmd now db key n ↔ n ≤ 0 ∨ o.nx = true ∨ Fits (cmd.time now n) := by
  obtain ⟨db', reply, hset, hafter⟩ := setGeneric_of_live hlive hkey hn name hexpire val
  rw [hset] at hrun
  rw [← or_assoc]
  by_cases hrefused : n ≤ 0 ∨ o.nx = true
  · rw [if_pos hrefused] at hafter
    exact iff_of_true ⟨db', reply, hrun, .inl hafter⟩ (.inl hrefused)
  · rw [if_neg hrefused, ← htime] at hafter
    obtain ⟨hreply, hsome, hstored⟩ := hafter
    rw [or_iff_right hrefused, ← wrap64_eq_iff]
    -- a time that was stored is the one asked for if it did not wrap around
    constructor
    · rintro ⟨db'', reply', hrun', hcase⟩
      rw [hrun] at hrun'
      cases hrun'
      rcases hcase with ⟨hrefuses, -⟩ | ⟨hdeleted, -⟩ | ⟨-, -, hexact⟩
      · rw [hreply] at hrefuses
        cases hrefuses
      · rw [hdeletes] at hdeleted
        cases hdeleted
      · rw [hstored] at hexact
        exact Option.some.inj hexact
    · intro hexact
      exact ⟨db', reply, hrun, .inr (.inr ⟨hdeletes, hsome, hstored.trans (congrArg some hexact)⟩)⟩

theorem setex_stores_iff (hn : Fits n) (val : Bytes) :
    StoresRequestedTime (.setex val) now db key n ↔ n ≤ 0 ∨ Fits (1000 * n + now) := by
  rw [set_stores_iff (o := { noOptions with expire := some (ll2string n) }) hlive hkey hn rfl rfl
    rfl rfl]
  simp [TimedCommand.time, noOptions]

end

/-- Every command stores the time it is asked for, exactly when that time does not overflow
or the overflow makes no difference. -/
theorem storesRequestedTime_iff (hkey : (db.dict.lookup key).isSome)
    (hlive : keyIsExpired now db key = some false) (hn : Fits n) (cmd : TimedCommand)
    (htakes : cmd.Takes n) :
    StoresRequestedTime cmd now db key n ↔ cmd.InRange now n := by
  cases cmd with
  | expire cmd => exact expire_stores_iff hlive hkey hn cmd
  | set val options =>
    obtain ⟨o, hparse, hexpire⟩ := htakes
    have hoptions : TimedCommand.setOptions options = o := by
      rw [TimedCommand.setOptions, hparse, Option.getD_some]
    rw [TimedCommand.InRange, hoptions]
    apply set_stores_iff hlive hkey hn hexpire
    · rw [TimedCommand.run, setCommand, hparse]
    · rw [TimedCommand.time, hoptions]
    · rfl
  | setex val =>
    rw [setex_stores_iff hlive hkey hn]
    rfl
  | psetex val =>
    rw [set_stores_iff
      (o := { noOptions with expire := some (ll2string n), unit := .milliseconds }) hlive hkey hn
      rfl rfl (by simp [TimedCommand.time, TimedCommand.scale]) rfl]
    simp [TimedCommand.InRange, noOptions]

/-- A database with one string. -/
def oneKeyDb : Db Unit := ⟨AList.singleton [107] (.string [118]), ∅, []⟩

/-- `EXPIRE k 100` at one second. -/
theorem storesRequestedTime_iff_expire :
    StoresRequestedTime (.expire .expire) 1000 oneKeyDb [107] 100 :=
  (storesRequestedTime_iff (by decide) (by decide) (by decide) (.expire .expire) trivial).mpr
    (Or.inl (by decide))

/-- `SETEX k 9223372036854775 w` stores a time before the start of the epoch. -/
theorem setex_stores_negative_time :
    ¬ StoresRequestedTime (.setex [119]) 1600000000000 oneKeyDb [107] 9223372036854775 := by
  rw [setex_stores_iff (by decide) (by decide) (by decide)]
  decide

end Existing

end Redis.Keyspace
