import Redis.KeyPositions.Basic
import Redis.Library.Outcome

/-! The positions that `getKeysFromCommand` returns, against those of the arguments that the
command uses as keys. For each command an inductive relation says what options it accepts;
the reader of the key positions is then followed along it. -/
namespace Redis.KeyPositions

open ByteBuffer Util Shared List Outcome Option

variable {words argv rest : List Bytes} {j i : Nat} {used : List Nat} {env : Env} {a key w : Bytes}
  {keys storekey last : Option Nat} {v : Int} {x : String} {streams : Nat × Nat}
variable {nostore right xreadgroup : Bool} {source : LcsSource} {k p q : Nat}

section Words

variable {a : Bytes} {x y : String}

/-- A word has one name. -/
theorem named_eq (h : named a x = true) (y : String) : named a y = decide (word x = word y) := by
  rw [named, isName, decide_eq_true_eq] at h
  rw [named, isName, h]

theorem named_other (h : named a x = true) (hne : word x ≠ word y) : named a y = false := by
  rw [named_eq h, decide_eq_false hne]

/-- No option has a name that is an integer. -/
theorem named_of_string2ll (h : string2ll a = some v) (hx : ∃ c s, word x = c :: s ∧ 97 ≤ c.toNat) :
    named a x = false := by
  obtain ⟨c, s, hword, hletter⟩ := hx
  rw [named, hword]
  exact not_isName_of_string2ll h (by omega)

end Words

/-- `atoi` reads what `string2ll` accepts, when it fits an `int`. -/
theorem atoi_of_string2ll (h : string2ll a = some v) (hpos : 0 ≤ v) (hlt : v < 2 ^ 31) :
    atoi (cString a) = v := by
  obtain ⟨w, rfl⟩ := Int.eq_ofNat_of_zero_le hpos
  rw [cString_of_string2ll h, atoi, strtol_of_string2ll h, cInt_of_lt (by omega)]

theorem drop_eq_getD_cons {n : Nat} (h : n < argv.length) :
    argv.drop n = argv.getD n [] :: argv.drop (n + 1) := by
  rw [drop_eq_getElem_cons h, getD_eq_getElem _ _ h]

section Georadius

/-- What `georadiusGeneric` accepts from argument `i` on, with the key to store to before and
after it. `COUNT` and its argument are two words that are no `STORE`. -/
inductive GeoradiusReads : Nat → List Bytes → Option Nat → Option Nat → Prop where
  | nil (i : Nat) (storekey : Option Nat) : GeoradiusReads i [] storekey storekey
  | other {i : Nat} {a : Bytes} {rest : List Bytes} {storekey last : Option Nat}
      (hstore : named a "store" = false) (hdist : named a "storedist" = false)
      (hrest : GeoradiusReads (i + 1) rest storekey last) :
      GeoradiusReads i (a :: rest) storekey last
  | store {i : Nat} {a key : Bytes} {rest : List Bytes} {storekey last : Option Nat}
      (hstore : named a "store" = true ∨ named a "storedist" = true)
      (hrest : GeoradiusReads (i + 2) rest (some (i + 1)) last) :
      GeoradiusReads i (a :: key :: rest) storekey last

theorem GeoradiusReads.option (h : named a x = true)
    (hne : word x ≠ word "store" ∧ word x ≠ word "storedist")
    (hrest : GeoradiusReads (i + 1) rest storekey last) :
    GeoradiusReads i (a :: rest) storekey last :=
  .other (named_other h hne.1) (named_other h hne.2) hrest

theorem georadiusOptions_reads {args args' : GeoradiusArgs}
    (h : georadiusOptions nostore i words args = .ok args') :
    GeoradiusReads i words args.storekey args'.storekey := by
  fun_induction georadiusOptions nostore i words args with
  | case1 =>
    cases h
    exact .nil _ _
  | case2 i a rest args hname ih | case3 i a rest args _ hname ih
  | case4 i a rest args _ _ hname ih | case5 i a rest args _ _ _ hname ih
  | case6 i a rest args _ _ _ _ hname ih => exact .option hname (by decide) (ih h)
  | case9 i a args _ _ _ _ _ hname arg rest count hcount _ ih =>
    apply GeoradiusReads.option hname (by decide)
    refine .other ?_ ?_ (ih h)
    all_goals exact named_of_string2ll (getLongLong_ok hcount) ⟨_, _, rfl, by decide⟩
  | case11 i a args _ _ _ _ _ _ hname key rest ih => exact .store (.inl hname.1) (ih h)
  | case13 i a args _ _ _ _ _ _ _ hname key rest ih => exact .store (.inr hname.1) (ih h)
  | _ => cases h

theorem georadiusGetKeysLoop_other (hstore : named a "store" = false)
    (hdist : named a "storedist" = false) :
    georadiusGetKeysLoop i (a :: rest) storekey = georadiusGetKeysLoop (i + 1) rest storekey := by
  cases rest with
  | nil | cons b rest => simp [georadiusGetKeysLoop, hstore, hdist]

theorem GeoradiusReads.getKeys (h : GeoradiusReads i words storekey last) :
    georadiusGetKeysLoop i words storekey = last := by
  induction h with
  | nil => rfl
  | other hstore hdist _ ih => rw [georadiusGetKeysLoop_other hstore hdist, ih]
  | store hstore _ ih =>
    simp only [georadiusGetKeysLoop, if_pos hstore]
    exact ih

theorem extractUnit_other {unit : Bytes} (h : extractUnit unit = .ok ()) (hx : 2 < (word x).length) :
    named unit x = false := by
  rw [extractUnit] at h
  split_ifs at h with hmem
  have hlength : (cString unit).length ≤ 2 := by
    rcases mem_cons.mp hmem with heq | hmem
    · rw [heq]
      decide
    · have hword : ∀ w ∈ [word "km", word "ft", word "mi"], w.length ≤ 2 := by decide
      exact hword _ hmem
  rw [named, isName, decide_eq_false_iff_not]
  intro heq
  rw [← heq, length_map] at hx
  omega

/-- The reader of `GEORADIUS` begins one argument early, at the unit. -/
theorem georadiusKeys_eq {coords : Bool} (h : georadiusKeys env coords nostore argv = .ok used)
    (harity : (if coords then 6 else 5) ≤ argv.length) : georadiusGetKeys argv = used := by
  obtain ⟨_, -, h⟩ := exists_of_bind_eq_ok h
  obtain ⟨_, -, h⟩ := exists_of_bind_eq_ok h
  obtain ⟨_, hunit, h⟩ := exists_of_bind_eq_ok h
  obtain ⟨args, hargs, h⟩ := exists_of_bind_eq_ok h
  split_ifs at h
  obtain rfl := Except.ok.inj h
  cases coords with
  | false =>
    have hreads : georadiusGetKeysLoop 5 (argv.drop 5) none = args.storekey :=
      (georadiusOptions_reads hargs).getKeys
    rw [georadiusGetKeys, hreads]
  | true =>
    have hreads : georadiusGetKeysLoop 6 (argv.drop 6) none = args.storekey :=
      (georadiusOptions_reads hargs).getKeys
    have hunit : extractUnit (argv.getD 5 []) = .ok () := hunit
    rw [georadiusGetKeys, drop_eq_getD_cons (n := 5) harity, georadiusGetKeysLoop_other
      (extractUnit_other hunit (by decide)) (extractUnit_other hunit (by decide)), hreads]

end Georadius

section Xread

/-- What `xreadCommand` accepts up to `STREAMS`: where the keys begin and how many they are. -/
inductive XreadReads : Nat → List Bytes → Nat × Nat → Prop where
  | argument {i : Nat} {a arg : Bytes} {rest : List Bytes} {streams : Nat × Nat}
      (hname : named a "block" = true ∨ named a "count" = true)
      (hrest : XreadReads (i + 2) rest streams) : XreadReads i (a :: arg :: rest) streams
  | group {i : Nat} {a groupname consumername : Bytes} {rest : List Bytes} {streams : Nat × Nat}
      (hname : named a "group" = true) (hrest : XreadReads (i + 3) rest streams) :
      XreadReads i (a :: groupname :: consumername :: rest) streams
  | noack {i : Nat} {a : Bytes} {rest : List Bytes} {streams : Nat × Nat}
      (hname : named a "noack" = true) (hrest : XreadReads (i + 1) rest streams) :
      XreadReads i (a :: rest) streams
  | streams {i : Nat} {a : Bytes} {rest : List Bytes} (hname : named a "streams" = true)
      (hne : rest ≠ []) (heven : rest.length % 2 = 0) :
      XreadReads i (a :: rest) (i + 1, rest.length / 2)

theorem xreadOptions_reads {args args' : XreadArgs}
    (h : xreadOptions env xreadgroup i words args = .ok args') (hnone : args.streams = none)
    (hsome : args'.streams = some streams) : XreadReads i words streams := by
  fun_induction xreadOptions env xreadgroup i words args with
  | case1 =>
    cases h
    rw [hnone] at hsome
    cases hsome
  | case4 i a args hname arg rest _ timeout _ ih => exact .argument (.inl hname) (ih h hnone)
  | case7 i a args _ hname arg rest count _ ih => exact .argument (.inr hname) (ih h hnone)
  | case10 i a rest args _ _ hname heven =>
    cases h
    cases hsome
    exact .streams hname.1 hname.2 (not_ne_iff.mp heven)
  | case11 i a args _ _ hname groupname consumername rest _ _ ih => exact .group hname (ih h hnone)
  | case14 i a rest args _ _ _ _ hname _ ih => exact .noack hname (ih h hnone)
  | _ => cases h

/-- Where the reader finds `STREAMS`, with the keys and as many IDs behind it. -/
def StreamsAt (i : Nat) (words : List Bytes) (streams : Nat × Nat) : Prop :=
  ∃ pos num, xreadStreamsPos i words = some pos ∧ i + words.length = pos + 1 + num ∧ num ≠ 0 ∧
    num % 2 = 0 ∧ streams = (pos + 1, num / 2)

theorem StreamsAt.skip (h : StreamsAt (i + k) rest streams)
    (hpos : xreadStreamsPos i words = xreadStreamsPos (i + k) rest)
    (hlength : words.length = k + rest.length) : StreamsAt i words streams := by
  rw [StreamsAt, hpos, hlength, ← add_assoc]
  exact h

/-- The reader finds the same `STREAMS`. -/
theorem XreadReads.streamsPos (h : XreadReads i words streams) :
    StreamsAt i words streams := by
  induction h with
  | argument hname _ ih =>
    refine ih.skip ?_ (add_comm _ 2)
    simp only [xreadStreamsPos, if_pos hname]
  | group hname _ ih =>
    refine ih.skip ?_ (add_comm _ 3)
    simp +decide [xreadStreamsPos, named_eq hname]
  | noack hname _ ih =>
    refine ih.skip ?_ (add_comm _ 1)
    rw [xreadStreamsPos.eq_def]
    simp +decide [named_eq hname]
  | @streams i a rest hname hne heven =>
    refine ⟨i, rest.length, ?_, ?_, ?_, heven, rfl⟩
    · rw [xreadStreamsPos.eq_def]
      simp +decide [named_eq hname]
    · simp only [length_cons]
      omega
    · exact fun hzero => hne (eq_nil_of_length_eq_zero hzero)

theorem xreadKeys_eq (harity : 1 ≤ argv.length)
    (h : xreadKeys env xreadgroup argv = .ok used) : xreadGetKeys argv = used := by
  obtain ⟨args, hargs, h⟩ := exists_of_bind_eq_ok h
  cases hstreams : args.streams with
  | none =>
    rw [hstreams] at h
    cases h
  | some streams =>
    obtain ⟨pos, num, hpos, hlength, hnum, heven, rfl⟩ :=
      (xreadOptions_reads hargs rfl hstreams).streamsPos
    rw [hstreams] at h
    split_ifs at h
    rw [← Except.ok.inj h, xreadGetKeys, hpos]
    rw [length_drop] at hlength
    have hcount : argv.length - pos - 1 = num := by omega
    dsimp only
    rw [hcount, if_neg (by omega)]

end Xread

section Counted

/-- `ZUNIONSTORE` and `EVAL` get the number of their keys as an argument. -/
theorem zunionInterKeys_eq (hargc : argv.length < 2 ^ 31) (h : zunionInterKeys env argv = .ok used)
    (pos : Nat) : pos ∈ zunionInterGetKeys argv ↔ pos ∈ used := by
  obtain ⟨setnum, hsetnum, h⟩ := exists_of_bind_eq_ok h
  have hnumber := getLongLong_ok hsetnum
  split_ifs at h with hmin hmax
  obtain ⟨_, -, h⟩ := exists_of_bind_eq_ok h
  have hatoi : atoi (cString (argv.getD 2 [])) = setnum :=
    atoi_of_string2ll hnumber (by omega) (by omega)
  rw [← Except.ok.inj h, zunionInterGetKeys]
  simp only [hatoi]
  rw [if_neg (by omega), mem_append, mem_singleton, mem_cons, or_comm]

theorem evalKeys_eq (hargc : argv.length < 2 ^ 31) (h : evalKeys argv = .ok used) :
    evalGetKeys argv = used := by
  obtain ⟨numkeys, hnumkeys, h⟩ := exists_of_bind_eq_ok h
  have hnumber := getLongLong_ok hnumkeys
  split_ifs at h with hmax hmin
  have hatoi : atoi (cString (argv.getD 2 [])) = numkeys :=
    atoi_of_string2ll hnumber (by omega) (by omega)
  rw [← Except.ok.inj h, evalGetKeys]
  simp only [hatoi]
  by_cases hzero : numkeys = 0
  · rw [if_pos (by omega), hzero]
    rfl
  · rw [if_neg (by omega)]

end Counted

section Lcs

/-- What `stralgoLCS` accepts, with the source of its strings before and after. -/
inductive LcsReads : Nat → List Bytes → Option LcsSource → Option LcsSource → Prop where
  | nil (j : Nat) (source : Option LcsSource) : LcsReads j [] source source
  | other {j : Nat} {a : Bytes} {rest : List Bytes} {source last : Option LcsSource}
      (hstrings : named a "strings" = false) (hkeys : named a "keys" = false)
      (hrest : LcsReads (j + 1) rest source last) : LcsReads j (a :: rest) source last
  | strings {j : Nat} {a x y : Bytes} {rest : List Bytes} {last : Option LcsSource}
      (hname : named a "strings" = true) (hrest : LcsReads (j + 3) rest (some .strings) last) :
      LcsReads j (a :: x :: y :: rest) none last
  | keys {j : Nat} {a x y : Bytes} {rest : List Bytes} {last : Option LcsSource}
      (hname : named a "keys" = true) (hrest : LcsReads (j + 3) rest (some (.keys (j + 1))) last) :
      LcsReads j (a :: x :: y :: rest) none last

theorem LcsReads.option {source last : Option LcsSource} (h : named a x = true)
    (hne : word x ≠ word "strings" ∧ word x ≠ word "keys")
    (hrest : LcsReads (j + 1) rest source last) : LcsReads j (a :: rest) source last :=
  .other (named_other h hne.1) (named_other h hne.2) hrest

theorem lcsOptions_reads {args args' : LcsArgs} (h : lcsOptions j words args = .ok args') :
    LcsReads j words args.source args'.source := by
  fun_induction lcsOptions j words args with
  | case1 =>
    cases h
    exact .nil _ _
  | case2 j a rest args hname ih | case3 j a rest args _ hname ih
  | case4 j a rest args _ _ hname ih => exact .option hname (by decide) (ih h)
  | case6 j a args _ _ _ hname arg rest len hlen ih =>
    apply LcsReads.option hname (by decide)
    refine .other ?_ ?_ (ih h)
    all_goals exact named_of_string2ll (getLongLong_ok hlen) ⟨_, _, rfl, by decide⟩
  | case9 j a args _ _ _ _ hname x y rest hsource ih =>
    rw [not_isSome_iff_eq_none.mp hsource]
    exact .strings hname (ih h)
  | case12 j a args _ _ _ _ _ hname x y rest hsource ih =>
    rw [not_isSome_iff_eq_none.mp hsource]
    exact .keys hname (ih h)
  | _ => cases h

/-- The source is chosen once. -/
theorem LcsReads.eq_of_some {last : Option LcsSource}
    (h : LcsReads j words (some source) last) : last = some source := by
  generalize hsource : some source = before at h
  induction h with
  | nil => rfl
  | other _ _ _ ih => exact ih hsource
  | strings | keys => cases hsource

/-- The arguments that a source takes as keys. -/
def LcsSource.positions : LcsSource → List Nat
  | .strings => []
  | .keys first => [first, first + 1]

theorem LcsReads.getKeys (h : LcsReads j words none (some source)) :
    lcsGetKeysLoop j words = source.positions := by
  generalize hbefore : none = before at h
  generalize hlast : some source = last at h
  induction h with
  | nil => cases hbefore.trans hlast.symm
  | other hstrings hkeys _ ih =>
    rw [lcsGetKeysLoop, if_neg (by simp [hstrings]), if_neg (by simp [hkeys]), ih hbefore hlast]
  | strings hname hrest _ =>
    rw [hrest.eq_of_some] at hlast
    cases hlast
    rw [lcsGetKeysLoop, if_pos hname]
    rfl
  | keys hname hrest _ =>
    rw [hrest.eq_of_some] at hlast
    cases hlast
    have hstrings := named_other (y := "strings") hname (by decide)
    rw [lcsGetKeysLoop, if_neg (by simp [hstrings]), if_pos ⟨hname, by simp⟩]
    rfl

theorem stralgoKeys_eq (harity : 2 ≤ argv.length) (h : stralgoKeys argv = .ok used) :
    lcsGetKeys argv = used := by
  rw [stralgoKeys] at h
  split_ifs at h with hlcs
  obtain ⟨args, hargs, h⟩ := exists_of_bind_eq_ok h
  cases hsource : args.source with
  | none =>
    rw [hsource] at h
    cases h
  | some source =>
    have hreads := lcsOptions_reads hargs
    rw [hsource] at hreads h
    split_ifs at h
    have hused : used = source.positions := by
      cases source with
      | strings | keys first => exact (Except.ok.inj h).symm
    have hfirst := LcsReads.option (j := 1) hlcs (by decide) hreads
    rw [hused, lcsGetKeys, drop_eq_getD_cons harity, hfirst.getKeys]

end Lcs

section Migrate

/-- What `migrateCommand` accepts for the key argument `key`, with the place of `KEYS`. -/
inductive MigrateReads (key : Bytes) : Nat → List Bytes → Option Nat → Prop where
  | nil (j : Nat) : MigrateReads key j [] none
  | option {j : Nat} {a : Bytes} {rest : List Bytes} {keys : Option Nat}
      (hname : named a "copy" = true ∨ named a "replace" = true)
      (hrest : MigrateReads key (j + 1) rest keys) : MigrateReads key j (a :: rest) keys
  | auth {j : Nat} {a password : Bytes} {rest : List Bytes} {keys : Option Nat}
      (hname : named a "auth" = true) (hrest : MigrateReads key (j + 2) rest keys) :
      MigrateReads key j (a :: password :: rest) keys
  | auth2 {j : Nat} {a username password : Bytes} {rest : List Bytes} {keys : Option Nat}
      (hname : named a "auth2" = true) (hrest : MigrateReads key (j + 3) rest keys) :
      MigrateReads key j (a :: username :: password :: rest) keys
  | keys {j : Nat} {a : Bytes} {rest : List Bytes} (hname : named a "keys" = true)
      (hkey : key.length = 0) : MigrateReads key j (a :: rest) (some j)

/-- The names and passwords among the options. -/
def authWords : List Bytes → List Bytes
  | [] => []
  | a :: rest =>
    if named a "copy" ∨ named a "replace" then authWords rest
    else if named a "auth" then
      match rest with
      | password :: rest => password :: authWords rest
      | _ => []
    else if named a "auth2" then
      match rest with
      | username :: password :: rest => username :: password :: authWords rest
      | _ => []
    else []

/-- The keys are the one argument, or all that follow `KEYS`. -/
def migratePositions (argc : Nat) : Option Nat → List Nat
  | none => [3]
  | some j => List.range' (j + 1) (argc - (j + 1))

/-- What was read, and the range of the keys, with more words in front. -/
theorem MigrateReads.skip {range : List Nat} (h : ∃ keys, MigrateReads key (j + k) rest keys ∧
      range = migratePositions (j + k + rest.length) keys)
    (hreads : ∀ {keys}, MigrateReads key (j + k) rest keys → MigrateReads key j words keys)
    (hlength : words.length = rest.length + k) :
    ∃ keys, MigrateReads key j words keys ∧ range = migratePositions (j + words.length) keys := by
  obtain ⟨keys, hrest, hrange⟩ := h
  refine ⟨keys, hreads hrest, ?_⟩
  rw [hrange, hlength, add_comm rest.length, add_assoc]

theorem migrateOptions_reads {args args' : MigrateArgs}
    (h : migrateOptions key j words args = .ok args') (hfirst : args.firstKey = 3)
    (hnum : args.numKeys = 1) :
    ∃ keys, MigrateReads key j words keys ∧
      List.range' args'.firstKey args'.numKeys = migratePositions (j + words.length) keys := by
  fun_induction migrateOptions key j words args with
  | case1 =>
    cases h
    refine ⟨none, .nil _, ?_⟩
    rw [hfirst, hnum]
    rfl
  | case2 j a rest args hname ih =>
    exact MigrateReads.skip (ih h hfirst hnum) (.option (.inl hname)) rfl
  | case3 j a rest args _ hname ih =>
    exact MigrateReads.skip (ih h hfirst hnum) (.option (.inr hname)) rfl
  | case4 j a args _ _ hname password rest ih =>
    exact MigrateReads.skip (ih h hfirst hnum) (.auth hname) rfl
  | case6 j a args _ _ _ hname username password rest ih =>
    exact MigrateReads.skip (ih h hfirst hnum) (.auth2 hname) rfl
  | case9 j a rest args _ _ _ _ hname hkey =>
    cases h
    refine ⟨some j, .keys hname (not_ne_iff.mp hkey), ?_⟩
    have hlength : j + (rest.length + 1) - (j + 1) = rest.length := by omega
    rw [migratePositions, length_cons, hlength]
  | _ => cases h

theorem MigrateReads.key_nil {j : Nat} (h : MigrateReads key j words keys) (hkeys : keys = some q) :
    key.length = 0 := by
  induction h with
  | nil => cases hkeys
  | option _ _ ih | auth _ _ ih | auth2 _ _ ih => exact ih hkeys
  | keys _ hkey => exact hkey

theorem findKeys_cons_of_false (h : named a "keys" = false) (i : Nat) (rest : List Bytes) :
    findKeys i (a :: rest) = findKeys (i + 1) rest := by
  rw [findKeys, if_neg (by simp [h])]

theorem findKeys_cons_iff (hne : some i ≠ keys) :
    findKeys i (a :: rest) = keys ↔ named a "keys" = false ∧ findKeys (i + 1) rest = keys := by
  rw [findKeys]
  split_ifs with hname
  · simp [hname, hne]
  · simp [hname]

theorem findKeys_ge {i : Nat} (h : findKeys i words = some p) : i ≤ p := by
  induction words generalizing i with
  | nil => cases h
  | cons a rest ih =>
    rw [findKeys] at h
    split_ifs at h
    · exact (some.inj h).le
    · exact Nat.le_of_succ_le (ih h)

/-- The reader finds the option `KEYS`, or an argument of that name before it. -/
theorem MigrateReads.found {j : Nat} (h : MigrateReads key j words keys)
    (hkeys : keys = some q) : ∃ p, findKeys j words = some p ∧ p ≤ q ∧ q < j + words.length := by
  -- An argument in front is found itself, or passed over.
  have hcons : ∀ {i : Nat} {a : Bytes} {rest : List Bytes},
      (∃ p, findKeys (i + 1) rest = some p ∧ p ≤ q ∧ q < i + 1 + rest.length) →
      ∃ p, findKeys i (a :: rest) = some p ∧ p ≤ q ∧
        q < i + (a :: rest).length := by
    intro i a rest ⟨p, hp, hle, hlt⟩
    have hge := findKeys_ge hp
    have hlength : q < i + (a :: rest).length := by
      rw [length_cons]
      omega
    by_cases hname : named a "keys" = true
    · exact ⟨i, by rw [findKeys, if_pos hname], by omega, hlength⟩
    · rw [findKeys_cons_of_false (by simpa using hname)]
      exact ⟨p, hp, hle, hlength⟩
  induction h with
  | nil => cases hkeys
  | option _ _ ih => exact hcons (ih hkeys)
  | auth _ _ ih => exact hcons (hcons (ih hkeys))
  | auth2 _ _ ih => exact hcons (hcons (hcons (ih hkeys)))
  | @keys j a rest hname _ =>
    cases hkeys
    refine ⟨_, if_pos hname, le_refl _, ?_⟩
    rw [length_cons]
    omega

/-- What the command finds stands behind the arguments that were read. -/
theorem MigrateReads.ne_of_lt {j : Nat} (h : MigrateReads key j words keys) (hlt : p < j) :
    some p ≠ keys := by
  intro heq
  obtain ⟨p', hp', hle, -⟩ := h.found heq.symm
  have hge := findKeys_ge hp'
  omega

/-- The reader finds what the command finds, unless a name or a password is `keys`. -/
theorem MigrateReads.findKeys_eq_iff (h : MigrateReads key j words keys) :
    findKeys j words = keys ↔ ∀ w ∈ authWords words, named w "keys" = false := by
  induction h with
  | nil => simp [findKeys, authWords]
  | @option j a rest keys hname hrest ih =>
    have hkeys : named a "keys" = false := by
      rcases hname with hname | hname <;> exact named_other hname (by decide)
    have hwords : authWords (a :: rest) = authWords rest := by
      rw [authWords.eq_def]
      exact if_pos hname
    rw [findKeys_cons_of_false hkeys, hwords, ih]
  | @auth j a password rest keys hname hrest ih =>
    have hwords : authWords (a :: password :: rest) = password :: authWords rest := by
      simp +decide [authWords, named_eq hname]
    rw [findKeys_cons_of_false (named_other hname (by decide)), hwords, forall_mem_cons, ← ih]
    exact findKeys_cons_iff (hrest.ne_of_lt (by omega))
  | @auth2 j a username password rest keys hname hrest ih =>
    have hwords : authWords (a :: username :: password :: rest) =
        username :: password :: authWords rest := by
      simp +decide [authWords, named_eq hname]
    rw [findKeys_cons_of_false (named_other hname (by decide)), hwords, forall_mem_cons,
      forall_mem_cons, ← ih, findKeys_cons_iff (hrest.ne_of_lt (by omega)),
      findKeys_cons_iff (hrest.ne_of_lt (by omega))]
  | @keys j a rest hname _ =>
    rw [findKeys, if_pos hname, authWords.eq_def]
    simp +decide [named_eq hname]

theorem migrateKeys_parsed (harity : 6 ≤ argv.length) (h : migrateKeys argv = .ok used) :
    ∃ keys, MigrateReads (argv.getD 3 []) 6 (argv.drop 6) keys ∧
      used = migratePositions argv.length keys := by
  obtain ⟨args, hargs, h⟩ := exists_of_bind_eq_ok h
  obtain ⟨_, -, h⟩ := exists_of_bind_eq_ok h
  obtain ⟨_, -, h⟩ := exists_of_bind_eq_ok h
  obtain ⟨keys, hreads, hrange⟩ := migrateOptions_reads hargs rfl rfl
  refine ⟨keys, hreads, ?_⟩
  rw [← Except.ok.inj h, hrange, length_drop, Nat.add_sub_cancel' harity]

theorem migrateKeys_iff (harity : 6 ≤ argv.length) (h : migrateKeys argv = .ok used) :
    (∀ pos, pos ∈ migrateGetKeys argv ↔ pos ∈ used) ↔
      argv.getD 3 [] ≠ [] ∨ ∀ w ∈ authWords (argv.drop 6), named w "keys" = false := by
  obtain ⟨keys, hreads, rfl⟩ := migrateKeys_parsed harity h
  have hget : migrateGetKeys argv = if argv.getD 3 [] = [] then
      migratePositions argv.length (findKeys 6 (argv.drop 6)) else [3] := by
    rw [migrateGetKeys]
    cases findKeys 6 (argv.drop 6) with
    | none | some i => simp [migratePositions, length_eq_zero_iff]
  rw [hget]
  by_cases hkey : argv.getD 3 [] = []
  · rw [or_iff_right (not_not.mpr hkey), ← hreads.findKeys_eq_iff, if_pos hkey]
    constructor
    · intro hsame
      by_contra hne
      cases hkeys : keys with
      | none =>
        cases hfind : findKeys 6 (argv.drop 6) with
        | none => exact hne (hfind.trans hkeys.symm)
        | some p =>
          have hge := findKeys_ge hfind
          have hthree := (hsame 3).mpr (by rw [hkeys]; simp [migratePositions])
          rw [hfind, migratePositions, mem_range'_1] at hthree
          omega
      | some q =>
        obtain ⟨p, hp, hle, hlt⟩ := hreads.found hkeys
        have hpq : p ≠ q := by
          rintro rfl
          exact hne (hp.trans hkeys.symm)
        rw [length_drop] at hlt
        have hin : p + 1 ∈ migratePositions argv.length (findKeys 6 (argv.drop 6)) := by
          rw [hp, migratePositions, mem_range'_1]
          omega
        have hout := (hsame (p + 1)).mp hin
        rw [hkeys, migratePositions, mem_range'_1] at hout
        omega
    · intro heq pos
      rw [heq]
  · have hnone : keys = none := by
      cases hkeys : keys with
      | none => rfl
      | some q => exact absurd (eq_nil_of_length_eq_zero (hreads.key_nil hkeys)) hkey
    rw [if_neg hkey, hnone]
    exact iff_of_true (fun pos => Iff.rfl) (.inl hkey)

end Migrate

section Sorting

/-- What `sortCommand` accepts, with the position of the key to store to before and after. -/
inductive SortReads : Nat → List Bytes → Option Nat → Option Nat → Prop where
  | nil (j : Nat) (storekey : Option Nat) : SortReads j [] storekey storekey
  | flag {j : Nat} {a : Bytes} {rest : List Bytes} {storekey last : Option Nat}
      (hname : named a "asc" = true ∨ named a "desc" = true ∨ named a "alpha" = true)
      (hrest : SortReads (j + 1) rest storekey last) : SortReads j (a :: rest) storekey last
  | limit {j : Nat} {a start count : Bytes} {rest : List Bytes} {storekey last : Option Nat}
      (hname : named a "limit" = true) (hstart : (string2ll start).isSome)
      (hcount : (string2ll count).isSome) (hrest : SortReads (j + 3) rest storekey last) :
      SortReads j (a :: start :: count :: rest) storekey last
  | store {j : Nat} {a key : Bytes} {rest : List Bytes} {storekey last : Option Nat}
      (hname : named a "store" = true) (hrest : SortReads (j + 2) rest (some (j + 1)) last) :
      SortReads j (a :: key :: rest) storekey last
  | pattern {j : Nat} {a arg : Bytes} {rest : List Bytes} {storekey last : Option Nat}
      (hname : named a "by" = true ∨ named a "get" = true)
      (hrest : SortReads (j + 2) rest storekey last) : SortReads j (a :: arg :: rest) storekey last

theorem sortOptions_reads {args args' : SortArgs} (h : sortOptions env j words args = .ok args') :
    SortReads j words args.storekey args'.storekey := by
  fun_induction sortOptions env j words args with
  | case1 =>
    cases h
    exact .nil _ _
  | case2 j a rest args hname ih => exact .flag (.inl hname) (ih h)
  | case3 j a rest args _ hname ih => exact .flag (.inr (.inl hname)) (ih h)
  | case4 j a rest args _ _ hname ih => exact .flag (.inr (.inr hname)) (ih h)
  | case5 j a args _ _ _ hname start count rest _ _ hcount hstart ih =>
    exact .limit hname (isSome_of_eq_some (getLongLong_ok hstart))
      (isSome_of_eq_some (getLongLong_ok hcount)) (ih h)
  | case9 j a args _ _ _ _ hname key rest ih => exact .store hname (ih h)
  | case11 j a args _ _ _ _ _ hname pattern rest _ ih
  | case13 j a args _ _ _ _ _ hname pattern rest _ _ ih => exact .pattern (.inl hname) (ih h)
  | case16 j a args _ _ _ _ _ _ hname pattern rest _ ih => exact .pattern (.inr hname) (ih h)
  | _ => cases h

/-- The keys of the `STORE` options, with the options read as the command reads them. -/
def storeKeys : List Bytes → List Bytes
  | [] => []
  | a :: rest =>
    if named a "limit" then
      match rest with
      | _ :: _ :: rest => storeKeys rest
      | _ => []
    else if named a "store" then
      match rest with
      | key :: rest => key :: storeKeys rest
      | _ => []
    else if named a "by" ∨ named a "get" then
      match rest with
      | _ :: rest => storeKeys rest
      | _ => []
    else storeKeys rest

/-- The names that `sortGetKeys` takes for an option with an argument. -/
def isSortOption (o : Bytes) : Bool :=
  named o "store" || named o "get" || named o "by" || named o "limit"

/-- A word that is taken for a `STORE` with the next word as its argument. -/
def misleads (w : Bytes) (rest : List Bytes) : Bool := named w "store" && !rest.isEmpty

/-- Whether the reader ends with the right key, when it still passes over `skip` words, and
has the right one so far or not. The options are read as the command reads them: after a
`STORE` the reader takes the key for an option, which can hide options from it or make it see
one where there is none. -/
def storeSeen : Bool → Nat → List Bytes → Bool
  | right, _, [] => right
  | right, skip, a :: rest =>
    if named a "limit" then
      match rest with
      | _ :: _ :: rest => storeSeen right 0 rest
      | _ => right
    else if named a "store" then
      match rest with
      | key :: rest =>
        if skip = 2 then storeSeen false 0 rest
        else storeSeen (skip = 0 && !misleads key rest) (skiplist key) rest
      | _ => right
    else if named a "by" ∨ named a "get" then
      match rest with
      | arg :: rest =>
        if skip = 1 then storeSeen (right && !misleads arg rest) (skiplist arg) rest
        else storeSeen right 0 rest
      | _ => right
    else storeSeen right (skip - 1) rest

theorem skiplist_le (w : Bytes) : skiplist w ≤ 2 := by
  rw [skiplist]
  split_ifs <;> omega

variable {found : Option Nat}

/-- One word that the reader takes for an option. -/
theorem sortGetKeysLoop_word :
    sortGetKeysLoop i (w :: rest) 0 found = sortGetKeysLoop (i + 1) rest (skiplist w)
      (if misleads w rest then some (i + 1) else found) := by
  rw [sortGetKeysLoop, misleads]
  by_cases hstore : named w "store" = true ∧ rest ≠ []
  · have hskip : skiplist w = 0 := by
      simp +decide [skiplist, named_eq hstore.1]
    rw [if_pos hstore, hskip, if_pos (by simpa using hstore)]
  · rw [if_neg hstore, if_neg (by simpa using hstore)]

theorem sortGetKeysLoop_skip {skip : Nat} :
    sortGetKeysLoop i (w :: rest) (skip + 1) found = sortGetKeysLoop (i + 1) rest skip found := rfl

/-- A word of no meaning to the reader. -/
theorem sortGetKeysLoop_plain (hskip : skiplist w = 0) (hstore : named w "store" = false) :
    sortGetKeysLoop i (w :: rest) 0 found = sortGetKeysLoop (i + 1) rest 0 found := by
  rw [sortGetKeysLoop_word, hskip, misleads, hstore]
  rfl

theorem skiplist_of_other (hlimit : named w "limit" = false) (hget : named w "get" = false)
    (hby : named w "by" = false) : skiplist w = 0 := by
  simp [skiplist, hlimit, hget, hby]

/-- A number means nothing to the reader. -/
theorem sortGetKeysLoop_number (h : (string2ll w).isSome) :
    sortGetKeysLoop i (w :: rest) 0 found = sortGetKeysLoop (i + 1) rest 0 found := by
  obtain ⟨v, hv⟩ := isSome_iff_exists.mp h
  apply sortGetKeysLoop_plain
  · apply skiplist_of_other
    all_goals exact named_of_string2ll hv ⟨_, _, rfl, by decide⟩
  · exact named_of_string2ll hv ⟨_, _, rfl, by decide⟩

/-- Positions found so far lie before the next option. -/
structure FoundBefore (j : Nat) (found storekey : Option Nat) : Prop where
  found_le : ∀ p, found = some p → p ≤ j
  storekey_lt : ∀ p, storekey = some p → p < j

theorem FoundBefore.mono (h : FoundBefore j found storekey) (hle : j ≤ i) :
    FoundBefore i found storekey :=
  ⟨fun p hp => (h.found_le p hp).trans hle, fun p hp => (h.storekey_lt p hp).trans_le hle⟩

/-- A word between two options, read as an option: if it misleads, the key found is wrong. -/
theorem FoundBefore.word_iff
    (h : FoundBefore (j + 1) found storekey) (hright : right = true ↔ found = storekey)
    (hrest : ∀ {skip found right}, skip ≤ 2 → FoundBefore (j + 1) found storekey →
    (right = true ↔ found = storekey) →
    (sortGetKeysLoop (j + 1) rest skip found = last ↔ storeSeen right skip rest = true)) :
    sortGetKeysLoop j (w :: rest) 0 found = last ↔
      storeSeen (right && !misleads w rest) (skiplist w) rest = true := by
  rw [sortGetKeysLoop_word]
  apply hrest (skiplist_le w)
  · cases misleads w rest with
    | false => exact h
    | true => exact ⟨fun p hp => (some.inj hp).ge, h.storekey_lt⟩
  · cases misleads w rest with
    | false => simpa using hright
    | true =>
      refine iff_of_false (by simp) fun heq => ?_
      exact absurd (h.storekey_lt (j + 1) heq.symm) (lt_irrefl _)

theorem storeSeen_store (hname : named a "store" = true) (right : Bool) (skip : Nat) :
    storeSeen right skip (a :: key :: rest) =
      if skip = 2 then storeSeen false 0 rest
      else storeSeen (skip = 0 && !misleads key rest) (skiplist key) rest := by
  rw [storeSeen.eq_def]
  simp +decide [named_eq hname]

theorem storeSeen_pattern (hname : named a "by" = true ∨ named a "get" = true) (right : Bool)
    (skip : Nat) :
    storeSeen right skip (a :: w :: rest) =
      if skip = 1 then storeSeen (right && !misleads w rest) (skiplist w) rest
      else storeSeen right 0 rest := by
  rw [storeSeen.eq_def]
  rcases hname with hname | hname <;> simp +decide [named_eq hname]

theorem SortReads.getKeys_iff (h : SortReads j words storekey last) {skip : Nat} (hskip : skip ≤ 2)
    (hbefore : FoundBefore j found storekey) (hright : right = true ↔ found = storekey) :
    sortGetKeysLoop j words skip found = last ↔ storeSeen right skip words = true := by
  induction h generalizing skip found right with
  | nil => rw [sortGetKeysLoop, storeSeen, hright, eq_comm (a := found)]
  | @flag j a rest storekey last hname hrest ih =>
    have hother : ∀ y, y = "limit" ∨ y = "store" ∨ y = "by" ∨ y = "get" → named a y = false := by
      rcases hname with hname | hname | hname
      all_goals
        rintro y (rfl | rfl | rfl | rfl) <;> exact named_other hname (by decide)
    have hseen : storeSeen right skip (a :: rest) = storeSeen right (skip - 1) rest := by
      rw [storeSeen.eq_def]
      simp [hother]
    have hloop : sortGetKeysLoop j (a :: rest) skip found =
        sortGetKeysLoop (j + 1) rest (skip - 1) found := by
      cases skip with
      | zero => exact sortGetKeysLoop_plain (skiplist_of_other (by simp [hother])
          (by simp [hother]) (by simp [hother])) (by simp [hother])
      | succ skip => rfl
    rw [hseen, hloop]
    exact ih (by omega) (hbefore.mono (Nat.le_succ j)) hright
  | @limit j a start count rest storekey last hname hstart hcount hrest ih =>
    have hseen : storeSeen right skip (a :: start :: count :: rest) = storeSeen right 0 rest := by
      simp [storeSeen, hname]
    have hloop : sortGetKeysLoop j (a :: start :: count :: rest) skip found =
        sortGetKeysLoop (j + 3) rest 0 found := by
      interval_cases skip
      · rw [sortGetKeysLoop_word, misleads, named_other hname (by decide)]
        simp [skiplist, hname, sortGetKeysLoop_skip]
      · rw [sortGetKeysLoop_skip, sortGetKeysLoop_number hstart, sortGetKeysLoop_number hcount]
      · rw [sortGetKeysLoop_skip, sortGetKeysLoop_skip, sortGetKeysLoop_number hcount]
    rw [hseen, hloop]
    exact ih (by omega) (hbefore.mono (Nat.le_add_right j 3)) hright
  | @store j a key rest storekey last hname hrest ih =>
    have hle := hbefore.found_le
    have hlater : FoundBefore (j + 2) found (some (j + 1)) :=
      ⟨fun p hp => (hle p hp).trans (Nat.le_add_right j 2), by simp⟩
    have hfresh : found ≠ some (j + 1) := fun heq => absurd (hle _ heq) (by omega)
    rw [storeSeen_store hname]
    interval_cases skip
    · rw [if_neg (by decide), sortGetKeysLoop, if_pos ⟨hname, by simp⟩]
      exact FoundBefore.word_iff ⟨by simp, by simp⟩ (by simp) ih
    · exact hlater.word_iff (by simp [hfresh]) ih
    · rw [if_pos rfl, sortGetKeysLoop_skip, sortGetKeysLoop_skip]
      exact ih (by omega) hlater (by simp [hfresh])
  | @pattern j a arg rest storekey last hname hrest ih =>
    have hlater := hbefore.mono (Nat.le_add_right j 2)
    rw [storeSeen_pattern hname]
    interval_cases skip
    · have hword : skiplist a = 1 ∧ misleads a (arg :: rest) = false := by
        rcases hname with hname | hname
        all_goals simp +decide [skiplist, misleads, named_eq hname]
      rw [if_neg (by decide), sortGetKeysLoop_word, hword.1, hword.2, sortGetKeysLoop_skip]
      exact ih (by omega) hlater hright
    · exact hlater.word_iff hright ih
    · rw [if_neg (by decide), sortGetKeysLoop_skip, sortGetKeysLoop_skip]
      exact ih (by omega) hlater hright

theorem sortGetKeysLoop_gt {skip : Nat}
    (h : sortGetKeysLoop i words skip found = some p) (hfound : ∀ q, found = some q → 2 < q)
    (hi : 2 ≤ i) : 2 < p := by
  induction words generalizing i skip found with
  | nil =>
    exact hfound p h
  | cons w rest ih =>
    cases skip with
    | succ skip => exact ih h hfound (Nat.le_succ_of_le hi)
    | zero =>
      rw [sortGetKeysLoop_word] at h
      apply ih h _ (Nat.le_succ_of_le hi)
      intro q hq
      split_ifs at hq
      · cases hq
        omega
      · exact hfound q hq

theorem SortReads.gt (h : SortReads j words storekey last)
    (hstore : ∀ q, storekey = some q → 2 < q) (hj : 2 ≤ j) : ∀ q, last = some q → 2 < q := by
  induction h with
  | nil => exact hstore
  | flag _ _ ih | limit _ _ _ _ ih => exact ih hstore (by omega)
  | store _ _ ih =>
    apply ih _ (by omega)
    intro q hq
    cases hq
    omega
  | pattern _ _ ih => exact ih hstore (by omega)

/-- With the key itself in the first place, two optional positions give the same keys only if
they are the same. -/
theorem mem_cons_toList_iff (hfound : ∀ q, found = some q → 2 < q)
    (hlast : ∀ q, last = some q → 2 < q) :
    (∀ pos, pos ∈ 1 :: found.toList ↔ pos ∈ 1 :: last.toList) ↔ found = last := by
  constructor
  · intro hsame
    apply ext
    intro q
    have hq := hsame q
    simp only [mem_cons, mem_toList] at hq
    constructor
    · intro hmem
      have hgt := hfound q hmem
      exact (hq.mp (.inr hmem)).resolve_left (by omega)
    · intro hmem
      have hgt := hlast q hmem
      exact (hq.mpr (.inr hmem)).resolve_left (by omega)
  · rintro rfl pos
    rfl

/-- The exact condition, in terms of what the reader has found. -/
theorem sortKeys_iff (h : sortKeys env argv = .ok used) :
    (∀ pos, pos ∈ sortGetKeys argv ↔ pos ∈ used) ↔ storeSeen true 0 (argv.drop 2) = true := by
  obtain ⟨args, hargs, h⟩ := exists_of_bind_eq_ok h
  have hreads := sortOptions_reads hargs
  have hiff : sortGetKeysLoop 2 (argv.drop 2) 0 none = args.storekey ↔
      storeSeen true 0 (argv.drop 2) = true :=
    hreads.getKeys_iff (Nat.zero_le 2) ⟨by simp, by simp⟩ (by simp)
  rw [← hiff, ← Except.ok.inj h, sortGetKeys]
  apply mem_cons_toList_iff
  · intro q hq
    exact sortGetKeysLoop_gt hq (by simp) (le_refl 2)
  · exact hreads.gt (by simp) (le_refl 2)

/-- If no key has the name of an option, reading each key as an option does no harm: the reader
passes over nothing after it and goes on in step with the command. -/
theorem storeSeen_of_plain (h : ∀ key ∈ storeKeys words, isSortOption key = false) :
    storeSeen true 0 words = true := by
  fun_induction storeKeys words with
  | case1 => rfl
  | case2 a hname start count rest ih => simpa [storeSeen, hname] using ih h
  | case4 a hlimit hname key rest ih =>
    obtain ⟨hkey, hrest⟩ := forall_mem_cons.mp h
    have hplain : skiplist key = 0 ∧ misleads key rest = false := by
      simp only [isSortOption, Bool.or_eq_false_iff] at hkey
      simp [skiplist, misleads, hkey]
    rw [storeSeen_store hname, if_neg (by decide), hplain.1, hplain.2]
    exact ih hrest
  | case6 a hlimit hstore hname arg rest ih =>
    rw [storeSeen_pattern hname, if_neg (by decide)]
    exact ih h
  | case8 a rest hlimit hstore hname ih =>
    rw [storeSeen.eq_def]
    simpa [hlimit, hstore, hname] using ih h
  | case3 a hname rest hrest | case5 a hlimit hname rest hrest
  | case7 a hlimit hstore hname rest hrest => simp_all [storeSeen.eq_def]

end Sorting

/-- The arguments in which no key and no argument of an option has the name of an option. A `SORT`
that is ambiguous can still be read rightly, in the cases that `sortKeys_iff` tells. -/
def Unambiguous (cmd : KeyCommand) (argv : List Bytes) : Prop :=
  match cmd with
  | .sort => ∀ key ∈ storeKeys (argv.drop 2), isSortOption key = false
  | .migrate => argv.getD 3 [] ≠ [] ∨ ∀ w ∈ authWords (argv.drop 6), named w "keys" = false
  | _ => True

theorem positions_of_eq {keys : List Nat} (h : keys = used) :
    (∀ pos, pos ∈ keys ↔ pos ∈ used) ↔ True :=
  iff_of_true (fun _ => h ▸ Iff.rfl) trivial

/-- For every command but `SORT` the condition is exact. -/
theorem positions_iff_of_ne_sort {cmd : KeyCommand} (hargc : argv.length < 2 ^ 31)
    (haccepted : keysUsed env cmd argv = .ok used) (hsort : cmd ≠ .sort) :
    (∀ pos, pos ∈ getKeysFromCommand cmd argv ↔ pos ∈ used) ↔ Unambiguous cmd argv := by
  rw [keysUsed.eq_def] at haccepted
  split_ifs at haccepted with harity
  rw [not_lt] at harity
  cases cmd with
  | sort => exact absurd rfl hsort
  | georadius | georadiusRo | georadiusbymember | georadiusbymemberRo =>
    exact positions_of_eq (georadiusKeys_eq haccepted harity)
  | zunionstore | zinterstore => exact iff_of_true (zunionInterKeys_eq hargc haccepted) trivial
  | eval | evalsha => exact positions_of_eq (evalKeys_eq hargc haccepted)
  | xread | xreadgroup =>
    exact positions_of_eq (xreadKeys_eq (le_trans (by decide) harity) haccepted)
  | migrate => exact migrateKeys_iff harity haccepted
  | stralgo => exact positions_of_eq (stralgoKeys_eq harity haccepted)

/-- For arguments that a command accepts, the positions returned are those of its keys if the
arguments are unambiguous, and for every command but `SORT` only then. -/
theorem keyPositions_exact (env : Env) (cmd : KeyCommand) (argv : List Bytes) (used : List Nat)
    (hargc : argv.length < 2 ^ 31) (haccepted : keysUsed env cmd argv = .ok used) :
    (Unambiguous cmd argv → ∀ pos, pos ∈ getKeysFromCommand cmd argv ↔ pos ∈ used) ∧
      (cmd ≠ .sort → (∀ pos, pos ∈ getKeysFromCommand cmd argv ↔ pos ∈ used) →
        Unambiguous cmd argv) := by
  refine ⟨fun hplain => ?_, fun hsort => (positions_iff_of_ne_sort hargc haccepted hsort).mp⟩
  by_cases hsort : cmd = .sort
  · subst hsort
    rw [keysUsed.eq_def] at haccepted
    split_ifs at haccepted
    exact (sortKeys_iff haccepted).mpr (storeSeen_of_plain hplain)
  · exact (positions_iff_of_ne_sort hargc haccepted hsort).mpr hplain

/-- No cluster, no script, and every number accepted. -/
def plainEnv : Env := ⟨false, false, fun _ _ => .ok (), fun _ => .ok (), fun _ => .ok ()⟩

/-- `SORT k LIMIT 0 5 STORE d`. -/
theorem keyPositions_exact_sort :
    keysUsed plainEnv .sort
        [word "sort", word "k", word "limit", word "0", word "5", word "store", word "d"] =
        .ok [1, 6] ∧
      ∀ pos, pos ∈ getKeysFromCommand .sort
          [word "sort", word "k", word "limit", word "0", word "5", word "store", word "d"] ↔
        pos ∈ [1, 6] := by
  refine ⟨by decide, ?_⟩
  exact (keyPositions_exact plainEnv .sort _ [1, 6] (by decide) (by decide)).1
    (show ∀ key ∈ storeKeys _, isSortOption key = false by decide)

/-- `SORT k STORE store ASC` writes to the key `store`, but `ASC` is taken for it. -/
theorem sort_store_hidden :
    keysUsed plainEnv .sort [word "sort", word "k", word "STORE", word "store", word "ASC"] =
        .ok [1, 3] ∧
      getKeysFromCommand .sort [word "sort", word "k", word "STORE", word "store", word "ASC"] =
        [1, 4] := by
  decide

end Redis.KeyPositions
