import Redis.Aof.Load
import Redis.Keyspace.ExpireTimes
import Redis.Library.Outcome

/-! How `feedAppendOnlyFile` translates the commands that set an expire time, and what loading
the translation gives the key. -/
namespace Redis.Aof

open ByteBuffer Util Keyspace Option List AList

variable {a e m n param : Bytes} {cmd : ExpireCommand} {w w' : Int} {options : List Bytes}
  {exarg pxarg : Option Bytes}

/-- The commands that may be translated, with their arguments. -/
inductive ExpiringCommand where
  | expire (cmd : ExpireCommand) (key param : Bytes)
  | setex (key param val : Bytes)
  | psetex (key param val : Bytes)
  | set (key val : Bytes) (options : List Bytes)

namespace ExpiringCommand

def key : ExpiringCommand → Bytes
  | .expire _ key _ | .setex key _ _ | .psetex key _ _ | .set key _ _ => key

def run {A : Type} (c : Clock) (db : Db A) : ExpiringCommand → Option (Db A × Reply)
  | .expire cmd key param => expireFamilyCommand cmd c db key param
  | .setex key param val => setexCommand c db key param val
  | .psetex key param val => psetexCommand c db key param val
  | .set key val options => setCommand c db key val options

end ExpiringCommand

section Code

/-- `now` is what `mstime` returns. The command that is translated tells the unit, and whether
the argument is relative. -/
def catAppendOnlyExpireAtCommand (now : Int) (unit : TimeUnit) (relative : Bool)
    (key seconds : Bytes) : ExpiringCommand :=
  let when_ := strtol seconds
  let when_ := if unit = .seconds then wrap64 (when_ * 1000) else when_
  let when_ := if relative then wrap64 (when_ + now) else when_
  .expire .pexpireat key (ll2string when_)

/-- The loop over the options of `SET`, with `exarg` and `pxarg`; no result if it reads behind
the last argument. -/
def scanOptions : List Bytes → Option Bytes → Option Bytes → Option (Option Bytes × Option Bytes)
  | [], exarg, pxarg => some (exarg, pxarg)
  | a :: rest, exarg, pxarg =>
    if (isName a exName ∨ isName a pxName) ∧ rest = [] then none
    else
      scanOptions rest (if isName a exName then rest.head? else exarg)
        (if isName a pxName then rest.head? else pxarg)

/-- The commands that are appended; none is the failed assertion. -/
def feedAppendOnlyFile (now : Int) : ExpiringCommand → Option (List ExpiringCommand)
  | .expire cmd key param =>
    if cmd = .pexpireat then some [.expire cmd key param]
    else some [catAppendOnlyExpireAtCommand now cmd.unit cmd.relative key param]
  | .setex key param val =>
    some [.set key val [], catAppendOnlyExpireAtCommand now .seconds true key param]
  | .psetex key param val =>
    some [.set key val [], catAppendOnlyExpireAtCommand now .milliseconds true key param]
  | .set key val options =>
    match scanOptions options none none with
    | none | some (some _, some _) => none
    | some (some exarg, none) =>
      some [.set key val [], catAppendOnlyExpireAtCommand now .seconds true key exarg]
    | some (none, some pxarg) =>
      some [.set key val [], catAppendOnlyExpireAtCommand now .milliseconds true key pxarg]
    | some (none, none) => some [.set key val options]

/-- While a file is loaded, `keyIsExpired` and `checkAlreadyExpired` return 0. So they do where
every expire time is in the future. -/
def loading : Clock := ⟨-1, fun _ => -2 ^ 63 - 1⟩

def load {A : Type} (db : Db A) (cmds : List ExpiringCommand) : Option (Db A) :=
  cmds.foldlM (fun db cmd => (cmd.run loading db).map Prod.fst) db

end Code

section Options

/-- A word that the scan takes for an option with an argument. -/
def timed (a : Bytes) : Bool := isName a exName || isName a pxName

theorem isName_unique (hn : isName a n) (hm : isName a m) : n = m := by
  rw [isName, decide_eq_true_eq] at hn hm
  exact hn.symm.trans hm

theorem not_isName (hn : isName a n) (hne : n ≠ m) : isName a m = false :=
  Bool.eq_false_iff.mpr fun hm => hne (isName_unique hn hm)

/-- What the scan has found for the unit that the parser has found last. -/
def found (unit : TimeUnit) (exarg pxarg : Option Bytes) : Option Bytes :=
  if unit = .seconds then exarg else pxarg

/-- The scan is in step with the parser, unless that has taken the name of an option for a time. -/
def InStep (o : SetOptions) (exarg pxarg : Option Bytes) : Prop :=
  o.expire = found o.unit exarg pxarg ∨ ∃ e, o.expire = some e ∧ timed e = true

/-- An option with its argument: the argument is scanned as a word too. -/
theorem scanOptions_argument {o : SetOptions} {next : Bytes} {rest : List Bytes}
    (hnext : o.expire = some next) (exarg pxarg : Option Bytes)
    (hfound : found o.unit exarg pxarg = some next) (hrest : timed next = true → rest ≠ []) :
    ∃ exarg' pxarg', scanOptions (next :: rest) exarg pxarg = scanOptions rest exarg' pxarg' ∧
      InStep o exarg' pxarg' := by
  refine ⟨if isName next exName then rest.head? else exarg,
    if isName next pxName then rest.head? else pxarg, ?_, ?_⟩
  · rw [scanOptions, if_neg]
    rintro ⟨hname, hnil⟩
    exact hrest (by simpa [timed] using hname) hnil
  · cases htimed : timed next with
    | true => exact .inr ⟨next, hnext, htimed⟩
    | false =>
      obtain ⟨hex, hpx⟩ : isName next exName = false ∧ isName next pxName = false := by
        simpa [timed] using htimed
      refine .inl ?_
      rw [hex, hpx, hnext]
      exact hfound.symm

theorem scanOptions_found {o o' : SetOptions} (hparse : parseSetOptions options o = some o')
    (hfinal : ∀ e, o'.expire = some e → timed e = false) (hstep : InStep o exarg pxarg) :
    ∃ exarg' pxarg', scanOptions options exarg pxarg = some (exarg', pxarg') ∧
      o'.expire = found o'.unit exarg' pxarg' := by
  have hlast : ∀ {next : Bytes} {rest : List Bytes} {o₁ : SetOptions}, o₁.expire = some next →
      parseSetOptions rest o₁ = some o' → timed next = true → rest ≠ [] := by
    rintro next rest o₁ hnext hrest htimed rfl
    rw [parseSetOptions, some.injEq] at hrest
    rw [hfinal next (hrest ▸ hnext)] at htimed
    cases htimed
  fun_induction parseSetOptions options o generalizing exarg pxarg with
  | case1 o =>
    cases hparse
    refine ⟨exarg, pxarg, rfl, ?_⟩
    rcases hstep with hfound | ⟨e, he, htimed⟩
    · exact hfound
    · rw [hfinal e he] at htimed
      cases htimed
  | case2 a rest o hname ih | case3 a rest o _ hname ih | case4 a rest o _ _ hname ih =>
    have hex : isName a exName = false := not_isName hname.1 (by decide)
    have hpx : isName a pxName = false := not_isName hname.1 (by decide)
    rw [scanOptions, if_neg (by simp [hex, hpx]), hex, hpx]
    exact ih hparse hstep
  | case5 => cases hparse
  | case6 a o _ _ _ next rest hname ih =>
    have hpx : isName a pxName = false := not_isName hname.1 (by decide)
    obtain ⟨exarg', pxarg', hscan, hstep'⟩ := scanOptions_argument
      (o := { o with ex := true, unit := .seconds, expire := some next }) rfl (some next) pxarg
      rfl (hlast rfl hparse)
    rw [scanOptions, if_neg (by simp), if_pos hname.1, hpx, if_neg (by simp)]
    rw [head?_cons, hscan]
    exact ih hparse hstep'
  | case7 a o _ _ _ next rest _ hname ih =>
    have hex : isName a exName = false := not_isName hname.1 (by decide)
    obtain ⟨exarg', pxarg', hscan, hstep'⟩ := scanOptions_argument
      (o := { o with px := true, unit := .milliseconds, expire := some next }) rfl exarg
      (some next) rfl (hlast rfl hparse)
    rw [scanOptions, if_neg (by simp), if_pos hname.1, hex, if_neg (by simp)]
    rw [head?_cons, hscan]
    exact ih hparse hstep'
  | case8 => cases hparse

/-- The scan has found an argument for each name that it has come across. -/
theorem scanOptions_isSome {exarg' pxarg' : Option Bytes}
    (h : scanOptions options exarg pxarg = some (exarg', pxarg')) :
    (exarg'.isSome ↔ exarg.isSome ∨ ∃ a ∈ options, isName a exName = true) ∧
      (pxarg'.isSome ↔ pxarg.isSome ∨ ∃ a ∈ options, isName a pxName = true) := by
  induction options generalizing exarg pxarg with
  | nil =>
    cases h
    simp
  | cons a rest ih =>
    rw [scanOptions] at h
    by_cases hlast : (isName a exName = true ∨ isName a pxName = true) ∧ rest = []
    · rw [if_pos hlast] at h
      cases h
    rw [if_neg hlast] at h
    have hhead : isName a exName = true ∨ isName a pxName = true → rest.head?.isSome := by
      intro hname
      rw [isSome_head?]
      exact fun hnil => hlast ⟨hname, hnil⟩
    obtain ⟨hex, hpx⟩ := ih h
    rw [hex, hpx]
    constructor
    · by_cases hname : isName a exName = true
      · simp [hname, hhead (.inl hname)]
      · simp [hname]
    · by_cases hname : isName a pxName = true
      · simp [hname, hhead (.inr hname)]
      · simp [hname]

end Options

section Loading

variable {A : Type} {db db' : Db A} {key val : Bytes} {o : Object A} {now : Int}

theorem loading_live (h : (getExpire db key).isSome) :
    keyIsExpired loading.cached db key = some false := by
  obtain ⟨when_, hwhen⟩ := isSome_iff_exists.mp h
  rw [keyIsExpired, hwhen]
  have hpast : ¬ (loading.cached > when_ ∧ 0 ≤ when_) := by
    simp only [loading]
    omega
  simp only [bind_eq_bind, bind_some]
  split_ifs with hneg
  · rfl
  · have hnot : ¬ loading.cached > when_ := fun h => hpast ⟨h, by omega⟩
    simp [hnot]

theorem getExpire_of_lookup (h : db.dict.lookup key = some o) : (getExpire db key).isSome := by
  rw [getExpire, h]
  cases db.expires.lookup key <;> rfl

theorem getExpire_of_lookupKeyWrite {r : Db A × Option (Object A)}
    (h : lookupKeyWrite now db key = some r) : (getExpire db key).isSome := by
  cases hexpire : getExpire db key with
  | none =>
    rw [lookupKeyWrite, expireIfNeeded, keyIsExpired, hexpire] at h
    cases h
  | some when_ => rfl

theorem load_set (h : (getExpire db key).isSome) (val : Bytes) :
    ∃ db₁, (ExpiringCommand.set key val []).run loading db = some (db₁, .ok) ∧
      db₁.dict.lookup key = some (.string val) := by
  have hlookup := lookupKeyWrite_of_live (loading_live h)
  simp only [ExpiringCommand.run, setCommand, parseSetOptions, setGenericCommand, noOptions,
    setGenericLookup, lookupIf, setGenericWrite, genericSetKey, hlookup, bind_eq_bind,
    bind_some, Bool.false_eq_true, if_false]
  cases hold : db.dict.lookup key with
  | none => exact ⟨_, by simp [dbAdd, hold, removeExpire]; rfl, by simp [signalModifiedKey]⟩
  | some o => exact ⟨_, by simp [dbOverwrite, hold, removeExpire]; rfl, by simp [signalModifiedKey]⟩

theorem load_pexpireat (h : db.dict.lookup key = some o) (hw : Fits w) :
    ∃ db₁, (ExpiringCommand.expire .pexpireat key (ll2string w)).run loading db =
        some (db₁, .integer 1) ∧
      db₁.dict.lookup key = some o ∧ db₁.expires.lookup key = some w := by
  have hlookup := lookupKeyWrite_of_live (loading_live (getExpire_of_lookup h))
  have hwhen : expireWhen 0 .milliseconds w = w := by
    rw [expireWhen_eq, TimedCommand.scale, Int.one_mul, Int.add_zero, wrap64_of_fits hw]
  have hfuture : ¬ w ≤ loading.mstime 1 := by
    have hlow := hw.1
    simp only [loading]
    omega
  refine ⟨signalModifiedKey { db with expires := db.expires.insert key w } key, ?_, h,
    lookup_insert _⟩
  simp only [ExpiringCommand.run, expireFamilyCommand, ExpireCommand.relative, ExpireCommand.unit,
    expireGenericCommand, getLongLong_ll2string hw, hlookup, hwhen, h, hfuture, setExpire,
    bind_eq_bind, bind_some, Bool.false_eq_true, if_false, isNone_some,
    isSome_some, if_true]

/-- Loading the commands gives the key the value and the expire time that it has in `db'`. -/
def Records (db db' : Db A) (key : Bytes) (cmds : List ExpiringCommand) : Prop :=
  ∃ loaded, load db cmds = some loaded ∧ loaded.dict.lookup key = db'.dict.lookup key ∧
    loaded.expires.lookup key = db'.expires.lookup key

theorem records_expire_iff (hdb : db.dict.lookup key = some o) (hdb' : db'.dict.lookup key = some o)
    (hw : db'.expires.lookup key = some w) (hw' : Fits w') :
    Records db db' key [.expire .pexpireat key (ll2string w')] ↔ w' = w := by
  obtain ⟨db₁, hrun, hdict, hexpires⟩ := load_pexpireat hdb hw'
  have hload : load db [.expire .pexpireat key (ll2string w')] = some db₁ := by
    simp [load, hrun]
  simp [Records, hload, hdict, hexpires, hdb', hw]

theorem records_set_iff (hdb : (getExpire db key).isSome)
    (hdb' : db'.dict.lookup key = some (.string val))
    (hw : db'.expires.lookup key = some w) (hw' : Fits w') :
    Records db db' key [.set key val [], .expire .pexpireat key (ll2string w')] ↔ w' = w := by
  obtain ⟨db₁, hset, hval⟩ := load_set hdb val
  obtain ⟨db₂, hrun, hdict, hexpires⟩ := load_pexpireat hval hw'
  have hload : load db [.set key val [], .expire .pexpireat key (ll2string w')] = some db₂ := by
    simp [load, hset, hrun]
  simp [Records, hload, hdict, hexpires, hdb', hw]

end Loading

section Commands

variable {A : Type} {c : Clock} {db db' : Db A} {key val : Bytes} {o : Object A} {now : Int}

theorem lookupIf_some {flag : Bool} {test : Option (Object A) → Bool} {r : Db A × Bool}
    (h : lookupIf c flag db key test = some r) : r.1 = db ∨ (getExpire db key).isSome := by
  rw [lookupIf] at h
  split_ifs at h
  · cases hlookup : lookupKeyWrite c.cached db key with
    | none =>
      rw [hlookup] at h
      cases h
    | some found => exact .inr (getExpire_of_lookupKeyWrite hlookup)
  · cases h
    exact .inl rfl

theorem genericSetKey_some {val : Object A} {keepttl signal : Bool}
    (h : genericSetKey now db key val keepttl signal = some db') :
    (getExpire db key).isSome ∧ db'.dict.lookup key = some val := by
  simp only [genericSetKey, bind_eq_bind, bind_eq_some_iff, some.injEq] at h
  obtain ⟨⟨db₁, old⟩, hlookup, db₂, hadd, db₃, httl, rfl⟩ := h
  have hdict₂ : db₂.dict.lookup key = some val := by
    simp only [dbAdd, dbOverwrite] at hadd
    split_ifs at hadd <;> cases hadd <;> exact lookup_insert _
  have hdict₃ : db₃.dict = db₂.dict := by
    simp only [removeExpire] at httl
    split_ifs at httl <;> cases httl <;> rfl
  refine ⟨getExpire_of_lookupKeyWrite hlookup, ?_⟩
  split_ifs
  · exact hdict₃ ▸ hdict₂
  · exact hdict₃ ▸ hdict₂

theorem setGenericLookup_some {o : SetOptions} {ms : Int}
    (h : setGenericLookup c db o key val (some ms) .ok .null = some (db', .ok)) :
    (getExpire db key).isSome ∧ db'.dict.lookup key = some (.string val) ∧
      db'.expires.lookup key = some (setWhen c ms) := by
  simp only [setGenericLookup, bind_eq_bind, bind_eq_some_iff] at h
  obtain ⟨⟨db₁, nx⟩, hnx, h⟩ := h
  split_ifs at h
  · cases h
  simp only [bind_eq_some_iff] at h
  obtain ⟨⟨db₂, xx⟩, hxx, h⟩ := h
  split_ifs at h
  · cases h
  simp only [setGenericWrite, bind_eq_bind, bind_eq_some_iff, some.injEq,
    Prod.mk.injEq] at h
  obtain ⟨db₃, hset, db₄, hexpire, rfl, -⟩ := h
  obtain ⟨hlive, hdict⟩ := genericSetKey_some hset
  rw [setExpire] at hexpire
  split_ifs at hexpire
  cases hexpire
  refine ⟨?_, hdict, lookup_insert _⟩
  rcases lookupIf_some hnx with rfl | hlive
  · rcases lookupIf_some hxx with rfl | hlive
    · exact hlive
    · exact hlive
  · exact hlive

/-- What a `SET` with an expire time has stored when it replies `OK`. -/
theorem setGenericCommand_some {name : String} {o : SetOptions} {val : Bytes}
    (he : o.expire = some e)
    (h : setGenericCommand c db name o key val .ok .null = some (db', .ok)) :
    ∃ n, string2ll e = some n ∧ (getExpire db key).isSome ∧
      db'.dict.lookup key = some (.string val) ∧ db'.expires.lookup key =
        some (setWhen c (if o.unit = .seconds then wrap64 (n * 1000) else n)) := by
  rw [setGenericCommand, he] at h
  dsimp only at h
  cases hms : setMilliseconds name e o.unit with
  | error err =>
    rw [hms] at h
    cases h
  | ok ms =>
    rw [hms] at h
    obtain ⟨n, hn, hms⟩ := Outcome.exists_of_bind_eq_ok hms
    split at hms
    · cases hms
    · cases hms
      exact ⟨n, Shared.getLongLong_ok hn, setGenericLookup_some h⟩

theorem lookupKeyWrite_some {db₁ : Db A} (h : lookupKeyWrite now db key = some (db₁, some o)) :
    db₁ = db ∧ db.dict.lookup key = some o := by
  rw [lookupKeyWrite, expireIfNeeded] at h
  cases hexpired : keyIsExpired now db key with
  | none =>
    rw [hexpired] at h
    cases h
  | some expired =>
    rw [hexpired] at h
    cases expired with
    | true =>
      simp only [bind_eq_bind, bind_some, if_true, some.injEq,
        Prod.mk.injEq] at h
      obtain ⟨rfl, hlookup⟩ := h
      split_ifs at hlookup <;> simp [dbDelete, signalModifiedKey] at hlookup
    | false =>
      simp only [bind_eq_bind, bind_some, Bool.false_eq_true, if_false,
        some.injEq, Prod.mk.injEq] at h
      exact ⟨h.1.symm, h.2⟩

/-- What a command of the `EXPIRE` family has stored when the key is still there. -/
theorem expireFamilyCommand_some
    (h : expireFamilyCommand cmd c db key param = some (db', .integer 1))
    (hexpire : (db'.expires.lookup key).isSome) :
    ∃ n o, string2ll param = some n ∧ db.dict.lookup key = some o ∧
      db'.dict.lookup key = some o ∧ db'.expires.lookup key =
        some (expireWhen (if cmd.relative then c.mstime 0 else 0) cmd.unit n) := by
  rw [expireFamilyCommand, expireGenericCommand] at h
  generalize (if cmd.relative then c.mstime 0 else 0) = basetime at h ⊢
  cases hn : Shared.getLongLongFromObjectOrReply param none with
  | error err =>
    rw [hn] at h
    cases h
  | ok n =>
    simp only [hn, bind_eq_bind, bind_eq_some_iff] at h
    obtain ⟨⟨db₁, o⟩, hlookup, h⟩ := h
    split_ifs at h with hnone hpast hdeleted
    · cases h
    · cases h
      simp [dbDelete, signalModifiedKey] at hexpire
    · obtain ⟨o, rfl⟩ := ne_none_iff_exists'.mp (by simpa using hnone)
      obtain ⟨rfl, hkey⟩ := lookupKeyWrite_some hlookup
      simp only [bind_eq_some_iff, setExpire, hkey, isSome_some, if_true,
        some.injEq, Prod.mk.injEq, and_true] at h
      obtain ⟨db₂, rfl, rfl⟩ := h
      exact ⟨n, o, Shared.getLongLong_ok hn, hkey, hkey, lookup_insert _⟩

end Commands

/-- What the command replies when it has succeeded. -/
def ExpiringCommand.success : ExpiringCommand → Keyspace.Reply
  | .expire .. => .integer 1
  | _ => .ok

/-- A `SET` has the option `EX` or `PX`. -/
def ExpiringCommand.Timed : ExpiringCommand → Prop
  | .set _ _ options => ∃ o, parseSetOptions options noOptions = some o ∧ o.expire.isSome
  | _ => True

/-- A relative time is added to the same time in both places, and no `SET` names both units. -/
def ExpiringCommand.Recorded (c : Clock) (now : Int) : ExpiringCommand → Prop
  | .expire cmd _ _ => cmd.relative = true → wrap64 now = wrap64 (c.mstime 0)
  | .set _ _ options => wrap64 now = wrap64 (c.mstime 0) ∧
      ¬ ((∃ a ∈ options, isName a exName = true) ∧ ∃ a ∈ options, isName a pxName = true)
  | _ => wrap64 now = wrap64 (c.mstime 0)

theorem fits_wrap64 (v : Int) : Fits (wrap64 v) := by
  rw [← wrap64_eq_iff]
  exact Int.bmod_bmod

/-- Adding the clock twice gives the same time if the clock shows the same. -/
theorem wrap64_add_eq_iff (ms now before : Int) :
    wrap64 (ms + now) = wrap64 (ms + before) ↔ wrap64 now = wrap64 before := by
  rw [wrap64, wrap64, wrap64, wrap64, Int.bmod_eq_bmod_iff_bmod_sub_eq_zero,
    Int.bmod_eq_bmod_iff_bmod_sub_eq_zero, Int.add_sub_add_left]

section Records

variable {A : Type} {c : Clock} {db db' : Db A} {o : Object A}

/-- The two commands that `SET` with an expire time is translated into. -/
theorem records_translation_iff {key val : Bytes} (unit : TimeUnit) {n : Int}
    (he : string2ll e = some n) (hdb : (getExpire db key).isSome)
    (hdb' : db'.dict.lookup key = some (.string val)) (hexpires : db'.expires.lookup key =
      some (setWhen c (if unit = .seconds then wrap64 (n * 1000) else n))) (now : Int) :
    Records db db' key [.set key val [], catAppendOnlyExpireAtCommand now unit true key e] ↔
      wrap64 now = wrap64 (c.mstime 0) := by
  rw [catAppendOnlyExpireAtCommand, if_pos rfl, strtol_of_string2ll he,
    records_set_iff hdb hdb' hexpires (fits_wrap64 _), setWhen, Int.add_comm (c.mstime 0),
    wrap64_add_eq_iff]

theorem expire_records_iff {key : Bytes} {n : Int}
    (hn : string2ll param = some n) (hdb : db.dict.lookup key = some o)
    (hdb' : db'.dict.lookup key = some o) (hexpires : db'.expires.lookup key =
      some (expireWhen (if cmd.relative then c.mstime 0 else 0) cmd.unit n)) (now : Int) :
    (∃ cmds, feedAppendOnlyFile now (.expire cmd key param) = some cmds ∧
      Records db db' key cmds) ↔ (ExpiringCommand.expire cmd key param).Recorded c now := by
  obtain ⟨hparam, hlo, hhi⟩ := string2ll_ll2string hn
  have hscaled : Fits (if cmd.unit = .seconds then wrap64 (n * 1000) else n) := by
    split_ifs
    · exact fits_wrap64 _
    · exact ⟨hlo, hhi⟩
  simp only [feedAppendOnlyFile, ExpiringCommand.Recorded, catAppendOnlyExpireAtCommand,
    strtol_of_string2ll hn]
  rw [expireWhen] at hexpires
  by_cases hgeneric : cmd = .pexpireat
  · subst hgeneric
    have hsame : wrap64 (n + 0) = n := by rw [Int.add_zero, wrap64_of_fits ⟨hlo, hhi⟩]
    rw [if_pos rfl, ← hparam]
    simp only [some.injEq, exists_eq_left', ExpireCommand.relative, Bool.false_eq_true,
      false_imp_iff, iff_true]
    exact (records_expire_iff hdb hdb' hexpires ⟨hlo, hhi⟩).mpr hsame.symm
  rw [if_neg hgeneric]
  simp only [some.injEq, exists_eq_left']
  generalize (if cmd.unit = .seconds then wrap64 (n * 1000) else n) = ms at hexpires hscaled ⊢
  cases hrelative : cmd.relative with
  | true =>
    rw [hrelative, if_pos rfl] at hexpires
    rw [if_pos rfl, records_expire_iff hdb hdb' hexpires (fits_wrap64 _), wrap64_add_eq_iff]
    simp
  | false =>
    rw [hrelative, if_neg (by simp), Int.add_zero, wrap64_of_fits hscaled] at hexpires
    rw [if_neg (by simp), records_expire_iff hdb hdb' hexpires hscaled]
    simp

/-- The file records the expire time that the command stored exactly when a relative time is
added to the same time in both places, and the options of `SET` do not name both units. -/
theorem aof_records_expire_time_iff (cmd : ExpiringCommand) (now : Int)
    (hrun : cmd.run c db = some (db', cmd.success)) (htimed : cmd.Timed)
    (hexpire : (db'.expires.lookup cmd.key).isSome) :
    (∃ cmds, feedAppendOnlyFile now cmd = some cmds ∧ Records db db' cmd.key cmds) ↔
      cmd.Recorded c now := by
  cases cmd with
  | expire cmd key param =>
    obtain ⟨n, o, hn, hdb, hdb', hwhen⟩ := expireFamilyCommand_some hrun hexpire
    exact expire_records_iff hn hdb hdb' hwhen now
  | setex key param val | psetex key param val =>
    simp only [ExpiringCommand.run, setexCommand, psetexCommand] at hrun
    obtain ⟨n, hn, hlive, hdb', hexpires⟩ := setGenericCommand_some rfl hrun
    simp only [feedAppendOnlyFile, Option.some.injEq, exists_eq_left']
    exact records_translation_iff _ hn hlive hdb' hexpires now
  | set key val options =>
    obtain ⟨o, hparse, hsome⟩ := htimed
    obtain ⟨e, he⟩ := isSome_iff_exists.mp hsome
    rw [ExpiringCommand.run, setCommand, hparse] at hrun
    obtain ⟨n, hn, hlive, hdb', hexpires⟩ := setGenericCommand_some he hrun
    have htimed : timed e = false := by
      rw [timed, exName, pxName, not_isName_of_string2ll hn (by decide),
        not_isName_of_string2ll hn (by decide)]
      rfl
    have hstart : InStep noOptions none none := Or.inl rfl
    obtain ⟨exarg, pxarg, hscan, hfound⟩ := scanOptions_found hparse
      (fun e' he' => Option.some.inj (he.symm.trans he') ▸ htimed) hstart
    obtain ⟨hex, hpx⟩ := scanOptions_isSome hscan
    simp only [isSome_none, Bool.false_eq_true, false_or] at hex hpx
    simp only [feedAppendOnlyFile, ExpiringCommand.Recorded, hscan]
    rw [← hex, ← hpx]
    rw [he] at hfound
    cases hunit : o.unit with
    | seconds =>
      rw [hunit] at hfound hexpires
      obtain rfl : some e = exarg := hfound
      cases pxarg with
      | none =>
        simp only [Option.some.injEq, exists_eq_left', isSome_none, Bool.false_eq_true,
          and_false, not_false_eq_true, and_true]
        exact records_translation_iff .seconds hn hlive hdb' hexpires now
      | some p => simp
    | milliseconds =>
      rw [hunit] at hfound hexpires
      obtain rfl : some e = pxarg := hfound
      cases exarg with
      | none =>
        simp only [Option.some.injEq, exists_eq_left', isSome_none, Bool.false_eq_true,
          false_and, not_false_eq_true, and_true]
        exact records_translation_iff .milliseconds hn hlive hdb' hexpires now
      | some p => simp

end Records

section Clock

/-- One key, without an expire time. -/
def oneKey : Db Unit := ⟨AList.insert [107] (.string [118]) ∅, ∅, []⟩

/-- The key after a command that gave it an expire time. -/
def oneKeyUntil (val : Bytes) (when_ : Int) : Db Unit :=
  ⟨AList.insert [107] (.string val) ∅, AList.insert [107] when_ ∅, [[107]]⟩

/-- A relative time with a clock that stands still. -/
theorem aof_records_pexpire :
    ∃ cmds, feedAppendOnlyFile 1000 (.expire .pexpire [107] [49, 48]) = some cmds ∧
      Records oneKey (oneKeyUntil [118] 1010) [107] cmds :=
  (aof_records_expire_time_iff (c := .fixed 1000) (.expire .pexpire [107] [49, 48]) 1000 rfl trivial
    rfl).mpr fun _ => rfl

/-- The clock goes on between the command and its translation; and a `SET` with the words
`EX px EX 10` succeeds, while its translation fails an assertion. -/
theorem aof_misses_expire_time :
    ((ExpiringCommand.expire .pexpire [107] [49, 48]).run (.fixed 1000) oneKey =
        some (oneKeyUntil [118] 1010, .integer 1) ∧
      ¬ ∃ cmds, feedAppendOnlyFile 1001 (.expire .pexpire [107] [49, 48]) = some cmds ∧
        Records oneKey (oneKeyUntil [118] 1010) [107] cmds) ∧
    (ExpiringCommand.set [107] [118] [exName, pxName, exName, [49, 48]]).run (.fixed 1000) oneKey =
        some (oneKeyUntil [118] 11000, .ok) ∧
      feedAppendOnlyFile 1000 (.set [107] [118] [exName, pxName, exName, [49, 48]]) = none := by
  refine ⟨⟨rfl, ?_⟩, rfl, rfl⟩
  rintro ⟨cmds, hfeed, hrecords⟩
  obtain rfl : [.expire .pexpireat [107] (ll2string 1011)] = cmds := Option.some.inj hfeed
  have hsame := (records_expire_iff (o := .string [118]) rfl rfl rfl
    (show Fits 1011 by decide)).mp hrecords
  exact absurd hsame (by decide)

end Clock

end Redis.Aof
