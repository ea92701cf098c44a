import Redis.Acl.Rules
import Redis.Library.Outcome

/-! The rules that describe a user make the same user again. -/
namespace Redis.Acl

open ByteBuffer Util List Function

variable {sha256 : Bytes → Digest} {t : Commands} {u v start : User} {table : CommandTable}
variable {d : Draft} {name pattern : Bytes} {cmd : RedisCommand} {item : String × Category}
variable {rest rule sub : Bytes} {rules : List Bytes} {c : UInt8} {fake : User}

section Bitmap

theorem aclSetUser_firstRule (u : User) (additive : Bool) :
    aclSetUser sha256 t u (firstRule additive) =
      .ok (if additive then noCommands u else allCommands u) := by
  cases additive <;> rfl

/-- The operators are not the words that are looked for first. -/
theorem named_operator (hc : c ∈ [35, 43, 45, 126]) (rest : Bytes) {name : String}
    (hname : name ∈ ["on", "off", "allkeys", "resetkeys", "allcommands", "nocommands", "nopass",
      "resetpass"]) : named (c :: rest) name = false := by
  have hzero : c ≠ 0 := by
    rintro rfl
    exact absurd hc (by decide)
  have hhead : ∀ c ∈ ([35, 43, 45, 126] : List UInt8), ∀ name ∈ ["on", "off", "allkeys",
      "resetkeys", "allcommands", "nocommands", "nopass", "resetpass"],
      (word name).head? ≠ some (toLower c) := by decide +kernel
  rw [named, isName, cString, takeWhile_cons_of_pos (by simpa using hzero), map_cons,
    decide_eq_false_iff_not]
  intro heq
  apply hhead c hc name hname
  rw [← heq, head?_cons]

theorem aclSetUser_operator (hc : c ∈ [35, 43, 45, 126]) (u : User)
    (hkeys : named (c :: rest) "~*" = false) (hall : named (c :: rest) "+@all" = false)
    (hno : named (c :: rest) "-@all" = false) :
    aclSetUser sha256 t u (c :: rest) = applyOperator sha256 t u (c :: rest) := by
  rw [aclSetUser, if_neg (cons_ne_nil c rest)]
  simp [hkeys, hall, hno, named_operator hc rest]

/-- The rule for a category is applied to all of its commands. -/
theorem aclSetUser_category (u : User) (additive : Bool) (hitem : item ∈ aclCommandCategories) :
    aclSetUser sha256 t u (categoryRule additive item.1) =
      .ok (t.commands.foldl (setCategoryBit item.2 additive) u) := by
  have hflag : ∀ item ∈ aclCommandCategories,
      aclGetCommandCategoryFlagByName (word item.1) = some item.2 := by decide +kernel
  have hnames : ∀ item ∈ aclCommandCategories, ∀ additive, ∀ name ∈ ["~*", "+@all", "-@all"],
      named (categoryRule additive item.1) name = false := by decide +kernel
  have hname := hnames item hitem additive
  have hrule : categoryRule additive item.1 = (if additive then 43 else 45) :: 64 :: word item.1 := by
    cases additive <;> rfl
  rw [hrule] at hname ⊢
  cases additive with
  | false | true =>
    rw [aclSetUser_operator (by decide) u (hname _ (by decide)) (hname _ (by decide))
      (hname _ (by decide))]
    simp [applyOperator, aclSetUserCommandBitsForCategory, hflag item hitem]

/-- The bits that stay as the first rule made them. -/
structure Based (t : Commands) (u fake : User) : Prop where
  uniform : Uniform t fake
  future : aclUserCanExecuteFutureCommands fake = aclUserCanExecuteFutureCommands u

theorem Based.congr {fake' : User} (h : Based t u fake)
    (hbits : fake'.allowedCommands = fake.allowedCommands) : Based t u fake' where
  uniform := h.uniform.congr hbits
  future := by
    rw [← h.future]
    unfold aclUserCanExecuteFutureCommands aclGetUserCommandBit
    rw [hbits]

theorem Based.first (u fake : User) :
    Based t u (if !aclUserCanExecuteFutureCommands u then noCommands fake else allCommands fake) := by
  have hbits : ∀ i < userCommandBitsCount, aclGetUserCommandBit
      (if !aclUserCanExecuteFutureCommands u then noCommands fake else allCommands fake) i =
        aclUserCanExecuteFutureCommands u := by
    intro i hi
    cases aclUserCanExecuteFutureCommands u with
    | false => simp [aclGetUserCommandBit, noCommands, aclResetSubcommands]
    | true => simpa [aclGetUserCommandBit, allCommands, aclResetSubcommands] using hi
  exact ⟨Uniform.of_bit _ hbits, hbits _ (by decide)⟩

/-- One category either changes nothing or is added to the draft as a whole. -/
theorem describeCategory_cases (sha256 : Bytes → Digest) (t : Commands) (u : User) (additive : Bool)
    (d : Draft) (hitem : item ∈ aclCommandCategories) :
    describeCategory sha256 t u additive d item = d ∨
      describeCategory sha256 t u additive d item =
        ⟨t.commands.foldl (setCategoryBit item.2 additive) d.fakeuser,
          d.rules ++ [categoryRule additive item.1]⟩ := by
  unfold describeCategory
  dsimp only
  split_ifs
  · right
    rw [afterRule, aclSetUser_category d.fakeuser additive hitem]
  · exact .inl rfl

theorem describeCommand_fakeuser (u : User) (d : Draft) (cmd : RedisCommand) :
    (describeCommand u d cmd).fakeuser =
      if aclGetUserCommandBit u cmd.id ≠ aclGetUserCommandBit d.fakeuser cmd.id then
        aclSetUserCommandBit d.fakeuser cmd.id (aclGetUserCommandBit u cmd.id)
      else d.fakeuser := by
  rw [describeCommand, describeBit]
  split_ifs <;> rfl

variable (ht : t.Valid)
include ht

theorem Based.setBit (h : Based t u fake) (hcmd : cmd ∈ t.commands)
    (value : Bool) : Based t u (aclSetUserCommandBit fake cmd.id value) where
  uniform := h.uniform.setBit ht hcmd value
  future := by
    have hid := ht.id_lt hcmd
    rw [aclUserCanExecuteFutureCommands, aclGetUserCommandBit_setBit fake (by omega),
      if_neg (by omega)]
    exact h.future

theorem Based.category (h : Based t u fake) (category : Category) (value : Bool) :
    Based t u (t.commands.foldl (setCategoryBit category value) fake) := by
  suffices hsub : ∀ cmds ⊆ t.commands, ∀ fake, Based t u fake →
      Based t u (cmds.foldl (setCategoryBit category value) fake) from
    hsub _ (List.Subset.refl _) fake h
  intro cmds
  induction cmds with
  | nil => exact fun _ _ h => h
  | cons cmd cmds ih =>
    intro hsub fake h
    obtain ⟨hcmd, hcmds⟩ := cons_subset.mp hsub
    refine ih hcmds _ ?_
    rw [setCategoryBit]
    split_ifs
    · exact h
    · exact (h.setBit ht hcmd value).congr rfl
    · exact h

theorem Based.describeCategories (additive : Bool) (items : List (String × Category))
    (hitems : items ⊆ aclCommandCategories) (d : Draft) (h : Based t u d.fakeuser) :
    Based t u (items.foldl (describeCategory sha256 t u additive) d).fakeuser := by
  induction items generalizing d with
  | nil => exact h
  | cons item items ih =>
    obtain ⟨hitem, hrest⟩ := cons_subset.mp hitems
    apply ih hrest
    rcases describeCategory_cases sha256 t u additive d hitem with heq | heq
    · rw [heq]
      exact h
    · rw [heq]
      exact h.category ht item.2 additive

/-- A command that was looked at has the bit of the user, the others keep theirs. -/
theorem bit_describeCommand (u : User) (d : Draft) (hcmd : cmd ∈ t.commands) (i : Nat) :
    aclGetUserCommandBit (describeCommand u d cmd).fakeuser i =
      if i = cmd.id then aclGetUserCommandBit u i else aclGetUserCommandBit d.fakeuser i := by
  have hid := ht.id_lt hcmd
  rw [describeCommand_fakeuser, apply_ite (aclGetUserCommandBit · i),
    aclGetUserCommandBit_setBit d.fakeuser (by omega)]
  split_ifs with hne hi hi
  · rw [hi]
  · rfl
  · rw [hi, not_not.mp hne]
  · rfl

theorem Based.describeCommands (cmds : List RedisCommand) (hcmds : cmds ⊆ t.commands)
    (d : Draft) (h : Based t u d.fakeuser) :
    Based t u (cmds.foldl (describeCommand u) d).fakeuser := by
  induction cmds generalizing d with
  | nil => exact h
  | cons cmd cmds ih =>
    obtain ⟨hcmd, hrest⟩ := cons_subset.mp hcmds
    apply ih hrest
    rw [describeCommand_fakeuser]
    split_ifs
    · exact h.setBit ht hcmd _
    · exact h

theorem bit_describeCommands (cmds : List RedisCommand) (hcmds : cmds ⊆ t.commands)
    (d : Draft) (i : Nat) (h : aclGetUserCommandBit d.fakeuser i = aclGetUserCommandBit u i ∨
      ∃ cmd ∈ cmds, cmd.id = i) :
    aclGetUserCommandBit (cmds.foldl (describeCommand u) d).fakeuser i =
      aclGetUserCommandBit u i := by
  induction cmds generalizing d with
  | nil =>
    rcases h with h | ⟨_, hmem, _⟩
    · exact h
    · cases hmem
  | cons cmd cmds ih =>
    obtain ⟨hcmd, hrest⟩ := cons_subset.mp hcmds
    apply ih hrest
    rw [bit_describeCommand ht u d hcmd]
    by_cases hi : i = cmd.id
    · left
      rw [if_pos hi]
    · rcases h with h | ⟨cmd', hmem, hid⟩
      · left
        rw [if_neg hi, h]
      · rcases mem_cons.mp hmem with rfl | hmem
        · exact absurd hid.symm hi
        · exact .inr ⟨cmd', hmem, hid⟩

variable (sha256)

theorem draft_based (u : User) : Based t u (draftCommandRules sha256 t u).fakeuser ∧
      ∀ cmd ∈ t.commands, aclGetUserCommandBit (draftCommandRules sha256 t u).fakeuser cmd.id =
        aclGetUserCommandBit u cmd.id := by
  have hstart : Based t u
      (afterRule sha256 t fakeUser (firstRule !aclUserCanExecuteFutureCommands u)) := by
    rw [afterRule, aclSetUser_firstRule]
    exact Based.first u fakeUser
  constructor
  · exact Based.describeCommands ht _ (List.Subset.refl _) _
      (Based.describeCategories ht _ _ (List.Subset.refl _) _ hstart)
  · intro cmd hcmd
    exact bit_describeCommands ht _ (List.Subset.refl _) _ _ (.inr ⟨cmd, hcmd, rfl⟩)

/-- The bitmaps agree in the end if the bits that belong to no command are all alike. -/
theorem draft_bitmap (u : User) :
    (draftCommandRules sha256 t u).fakeuser.allowedCommands = u.allowedCommands ↔ Uniform t u := by
  obtain ⟨hbased, hbits⟩ := draft_based sha256 ht u
  constructor
  · intro heq
    exact hbased.uniform.congr heq.symm
  · intro huniform
    apply User.bitmap_ext
    intro i hi
    by_cases hcmd : ∃ cmd ∈ t.commands, cmd.id = i
    · obtain ⟨cmd, hcmd, rfl⟩ := hcmd
      exact hbits cmd hcmd
    · have hnone : ∀ cmd ∈ t.commands, cmd.id ≠ i := fun cmd hmem hid => hcmd ⟨cmd, hmem, hid⟩
      rw [hbased.uniform i hi hnone, huniform i hi hnone, hbased.future]

end Bitmap

section Emitted

/-- The rules one after the other, all of which have to be accepted. -/
def applyRules (sha256 : Bytes → Digest) (t : Commands) (u : User) (rules : List Bytes) :
    Except Errno User :=
  rules.foldlM (aclSetUser sha256 t) u

theorem applyRules_append {rules' : List Bytes} (h : applyRules sha256 t u rules = .ok v) :
    applyRules sha256 t u (rules ++ rules') = applyRules sha256 t v rules' := by
  rw [applyRules, foldlM_append]
  change (applyRules sha256 t u rules).bind _ = _
  rw [h]
  rfl

theorem applyRules_cons (rules : List Bytes) (h : aclSetUser sha256 t u rule = .ok v) :
    applyRules sha256 t u (rule :: rules) = applyRules sha256 t v rules := by
  change (aclSetUser sha256 t u rule).bind _ = _
  rw [h]
  rfl

theorem Changes.applyRules (ht : t.Valid)
    (h : applyRules sha256 t u rules = .ok v) : Changes t u v := by
  induction rules generalizing u with
  | nil =>
    cases h
    exact .refl
  | cons rule rules ih =>
    obtain ⟨u', hrule, hrest⟩ := Outcome.exists_of_bind_eq_ok h
    exact (Changes.aclSetUser ht hrule).trans (ih hrest)

theorem not_named_of_head {c' : UInt8} {tail : Bytes} {name : String} (hc : c ≠ 0)
    (hname : word name = c' :: tail) (hne : toLower c ≠ c') : named (c :: rest) name = false := by
  rw [named, isName, hname, cString, takeWhile_cons_of_pos (by simpa using hc), map_cons,
    decide_eq_false_iff_not]
  exact fun heq => hne (cons.inj heq).1

theorem aclSetUser_hash (u : User) {hash : Bytes} (h : aclCheckPasswordHash hash = true) :
    aclSetUser sha256 t u (35 :: hash) = .ok (addPassword u hash) := by
  rw [aclSetUser_operator (by decide) u (not_named_of_head (by decide) rfl (by decide))
    (not_named_of_head (by decide) rfl (by decide)) (not_named_of_head (by decide) rfl (by decide))]
  have hoperator : applyOperator sha256 t u (35 :: hash) =
      (givenHash sha256 false hash).map (addPassword u) := by simp [applyOperator]
  rw [hoperator, givenHash, if_neg (by decide), if_pos h]
  rfl

theorem zero_notMem_of_noSpaces (h : aclStringHasSpaces pattern = false) :
    (0 : UInt8) ∉ pattern := by
  intro hmem
  have := any_eq_false.mp h 0 hmem
  simp at this

theorem named_pattern (hspaces : aclStringHasSpaces pattern = false) (hstar : pattern ≠ [42]) :
    named (126 :: pattern) "~*" = false := by
  have hzero : (0 : UInt8) ∉ 126 :: pattern := by
    simpa using zero_notMem_of_noSpaces hspaces
  rw [named, isName, cString_eq_self hzero, decide_eq_false_iff_not]
  intro heq
  apply hstar
  have htail : pattern.map toLower = [42] := (cons.inj heq).2
  obtain ⟨c, rfl, hc⟩ := map_eq_singleton_iff.mp htail
  have hlower : ∀ c : UInt8, toLower c = 42 → c = 42 := by decide +kernel
  rw [hlower c hc]

theorem aclSetUser_pattern (u : User) (hspaces : aclStringHasSpaces pattern = false)
    (hstar : pattern ≠ [42]) : aclSetUser sha256 t u (126 :: pattern) = addPattern u pattern := by
  rw [aclSetUser_operator (by decide) u (named_pattern hspaces hstar)
    (not_named_of_head (by decide) rfl (by decide)) (not_named_of_head (by decide) rfl (by decide))]
  simp [applyOperator]

theorem applyRules_flags (h : Credentials u) :
    applyRules sha256 t aclCreateUser (flagRules u) =
      .ok { aclCreateUser with enabled := u.enabled, disabled := u.disabled, nopass := u.nopass } := by
  rw [flagRules, h.onOff]
  cases u.enabled <;> cases u.nopass <;> rfl

theorem applyRules_passwords (u : User) {hashes : List Bytes}
    (hcheck : ∀ hash ∈ hashes, aclCheckPasswordHash hash = true)
    (hnodup : (u.passwords ++ hashes).Nodup) :
    applyRules sha256 t u (hashes.map (35 :: ·)) =
      .ok { u with passwords := u.passwords ++ hashes, nopass := u.nopass && hashes.isEmpty } := by
  induction hashes generalizing u with
  | nil =>
    rw [append_nil, isEmpty_nil, Bool.and_true]
    rfl
  | cons hash hashes ih =>
    obtain ⟨hhash, hrest⟩ := forall_mem_cons.mp hcheck
    have hnew : hash ∉ u.passwords :=
      fun hmem => disjoint_of_nodup_append hnodup hmem mem_cons_self
    have hadd : addPassword u hash =
        { u with passwords := u.passwords ++ [hash], nopass := false } := by
      rw [addPassword, if_neg hnew]
    rw [map_cons, applyRules_cons _ (aclSetUser_hash u hhash), hadd,
      ih _ hrest (by simpa using hnodup)]
    simp

theorem applyRules_patterns (u : User) (hallkeys : u.allkeys = false) {patterns : List Bytes}
    (hvalid : ∀ pattern ∈ patterns, aclStringHasSpaces pattern = false ∧ pattern ≠ [42])
    (hnodup : (u.patterns ++ patterns).Nodup) :
    applyRules sha256 t u (patterns.map (126 :: ·)) =
      .ok { u with patterns := u.patterns ++ patterns } := by
  induction patterns generalizing u with
  | nil =>
    rw [append_nil]
    rfl
  | cons pattern patterns ih =>
    obtain ⟨⟨hspaces, hstar⟩, hrest⟩ := forall_mem_cons.mp hvalid
    have hnew : pattern ∉ u.patterns :=
      fun hmem => disjoint_of_nodup_append hnodup hmem mem_cons_self
    have hadd : aclSetUser sha256 t u (126 :: pattern) =
        .ok { u with patterns := u.patterns ++ [pattern] } := by
      rw [aclSetUser_pattern u hspaces hstar, addPattern, if_neg (by simp [hallkeys]),
        if_neg (by simp [hspaces]), if_neg hnew, ← hallkeys]
    rw [map_cons, applyRules_cons _ hadd,
      ih { u with patterns := u.patterns ++ [pattern] } hallkeys hrest (by simpa using hnodup)]
    simp

/-- Everything but the commands. -/
theorem applyRules_credentials (sha256 : Bytes → Digest) (t : Commands) (h : Credentials u) :
    ∃ w, applyRules sha256 t aclCreateUser
        (flagRules u ++ u.passwords.map (35 :: ·) ++ keyRules u) = .ok w ∧ SameCredentials u w := by
  have hnopass : (u.nopass && u.passwords.isEmpty) = u.nopass := by
    cases hno : u.nopass with
    | false => rfl
    | true => rw [h.nopass hno, isEmpty_nil, Bool.and_self]
  let flagged : User :=
    { aclCreateUser with enabled := u.enabled, disabled := u.disabled, nopass := u.nopass }
  let locked : User := { flagged with passwords := u.passwords }
  have hlocked : applyRules sha256 t flagged (u.passwords.map (35 :: ·)) = .ok locked := by
    rw [applyRules_passwords flagged h.hashes h.distinctPasswords]
    change Except.ok { flagged with
      passwords := u.passwords, nopass := u.nopass && u.passwords.isEmpty } = _
    rw [hnopass]
  refine ⟨{ locked with allkeys := u.allkeys, patterns := u.patterns }, ?_,
    ⟨rfl, rfl, rfl, rfl, rfl, rfl⟩⟩
  rw [append_assoc, applyRules_append (applyRules_flags h), applyRules_append hlocked,
    keyRules]
  cases hall : u.allkeys with
  | true =>
    rw [h.allkeys hall]
    rfl
  | false =>
    rw [if_neg (by decide), applyRules_patterns locked rfl h.noSpaces h.distinctPatterns]
    rfl

theorem ValidName.zero_notMem (h : ValidName name) : (0 : UInt8) ∉ name :=
  fun hmem => (h.2.2 0 hmem).1 rfl

theorem ValidName.lowerName (h : ValidName name) : lowerName name = name := by
  rw [Acl.lowerName, cString_eq_self h.zero_notMem]
  calc name.map toLower = name.map id := map_congr_left fun c hc => (h.2.2 c hc).2.2
    _ = name := map_id name

/-- A rule is about all commands only if its second character says that it is about a
category. -/
theorem not_named_all {d : UInt8} (hc : c ≠ 0) (hd : d ≠ 0) (hlower : toLower d ≠ 64)
    (rest : Bytes) :
    named (c :: d :: rest) "+@all" = false ∧ named (c :: d :: rest) "-@all" = false := by
  have hstring : (cString (c :: d :: rest)).map toLower =
      toLower c :: toLower d :: (cString rest).map toLower := by
    rw [cString, takeWhile_cons_of_pos (by simpa using hc),
      takeWhile_cons_of_pos (by simpa using hd)]
    rfl
  constructor
  all_goals
    rw [named, isName, hstring, decide_eq_false_iff_not]
    exact fun heq => hlower (cons.inj (cons.inj heq).2).1

/-- The first character of the name of a command. -/
theorem ValidName.exists_cons (h : ValidName name) :
    ∃ c rest, name = c :: rest ∧ c ≠ 0 ∧ c ≠ 64 ∧ toLower c ≠ 64 := by
  obtain ⟨c, rest, rfl⟩ := exists_cons_of_ne_nil h.1
  obtain ⟨hzero, -, hlower⟩ := h.2.2 c mem_cons_self
  have hsign : c ≠ 64 := by
    rintro rfl
    exact h.2.1 rfl
  exact ⟨c, rest, rfl, hzero, hsign, hlower.symm ▸ hsign⟩

variable (hcmd : cmd ∈ table.commands)
include hcmd

theorem aclLookupCommand_name : ∃ cmd', aclLookupCommand table.toCommands cmd.name = some cmd' := by
  refine Option.ne_none_iff_exists'.mp fun hnone => ?_
  have hother := find?_eq_none.mp hnone cmd hcmd
  simp [sameName] at hother

theorem setCommand_name (u : User) (value : Bool) :
    setCommand table.toCommands u cmd.name value = .ok (setWholeCommand u cmd.id value) := by
  obtain ⟨cmd', hlookup⟩ := aclLookupCommand_name hcmd
  rw [setCommand, hlookup, ← (table.valid.known cmd hcmd).2]

theorem aclSetUser_command (u : User) (value : Bool) :
    aclSetUser sha256 table.toCommands u (commandRule cmd value) =
      .ok (setWholeCommand u cmd.id value) := by
  have hvalid := table.names cmd hcmd
  obtain ⟨c, rest, hname, hzero, hsign, hlower⟩ := hvalid.exists_cons
  have hbar : (124 : UInt8) ∉ cString (43 :: cmd.name) := by
    intro hmem
    rcases mem_cons.mp ((takeWhile_sublist _).subset hmem) with heq | hmem
    · exact absurd heq (by decide)
    · exact (hvalid.2.2 124 hmem).2.1 rfl
  rw [← setCommand_name hcmd u value, commandRule]
  rw [hname] at hbar ⊢
  obtain ⟨hall, hno⟩ := not_named_all (c := if value then 43 else 45) (by cases value <;> decide)
    hzero hlower rest
  cases value with
  | true | false =>
    rw [aclSetUser_operator (by decide) u (not_named_of_head (by decide) rfl (by decide)) hall hno]
    simp [applyOperator, hsign, hbar]

omit hcmd in
theorem splitRule_append {name : Bytes} (hname : ValidName name) (hsub : (0 : UInt8) ∉ sub) :
    splitRule (name ++ 124 :: sub) = (name, sub) := by
  have hzero : (0 : UInt8) ∉ name ++ 124 :: sub := by simp [hname.zero_notMem, hsub]
  have hbar : ∀ c ∈ name, decide (c ≠ 124) = true := by
    intro c hc
    simpa using (hname.2.2 c hc).2.1
  rw [splitRule, cString_eq_self hzero, takeWhile_append_of_pos hbar,
    dropWhile_append_of_pos hbar]
  simp

theorem aclSetUser_subcommand (hbit : aclGetUserCommandBit u cmd.id = false) (hne : sub ≠ [])
    (hsub : (0 : UInt8) ∉ sub) :
    aclSetUser sha256 table.toCommands u (subcommandRule cmd sub) =
      .ok (aclSetUserCommandBit (aclAddAllowedSubcommand u cmd.id sub) cmd.id false) := by
  have hvalid := table.names cmd hcmd
  have hadd : addSubcommand table.toCommands u (cmd.name ++ 124 :: sub) =
      .ok (aclSetUserCommandBit (aclAddAllowedSubcommand u cmd.id sub) cmd.id false) := by
    obtain ⟨cmd', hlookup⟩ := aclLookupCommand_name hcmd
    rw [addSubcommand, splitRule_append hvalid hsub]
    dsimp only
    rw [hlookup, ← (table.valid.known cmd hcmd).2]
    dsimp only
    rw [if_neg hne, if_neg (by simp [hbit])]
  have hbar : (124 : UInt8) ∈ cString (43 :: (cmd.name ++ 124 :: sub)) := by
    rw [cString_eq_self (by simp [hvalid.zero_notMem, hsub])]
    simp
  obtain ⟨c, rest, hname, hzero, hsign, hlower⟩ := hvalid.exists_cons
  obtain ⟨hall, hno⟩ := not_named_all (c := 43) (by decide) hzero hlower (rest ++ 124 :: sub)
  rw [← hadd, subcommandRule]
  rw [hname] at hbar ⊢
  rw [cons_append, cons_append, aclSetUser_operator (by decide) u
    (not_named_of_head (by decide) rfl (by decide)) hall hno]
  rw [cons_append] at hbar
  simp [applyOperator, hsign, hbar]

end Emitted

section Rebuilt

theorem allowedCommands_setWhole_congr {u v : User} (h : v.allowedCommands = u.allowedCommands)
    (id : Nat) (value : Bool) :
    (setWholeCommand v id value).allowedCommands = (aclSetUserCommandBit u id value).allowedCommands := by
  rw [setWholeCommand, aclResetSubcommandsForCommand, aclSetUserCommandBit, aclSetUserCommandBit]
  split_ifs <;> simp [h]

/-- What a draft means for a user who gets its rules. -/
structure Builds (sha256 : Bytes → Digest) (t : Commands) (start : User) (d : Draft) (v : User) :
    Prop where
  applied : applyRules sha256 t start d.rules = .ok v
  bits : v.allowedCommands = d.fakeuser.allowedCommands
  same : SameCredentials start v

theorem Builds.bit (h : Builds sha256 t start d v) (i : Nat) :
    aclGetUserCommandBit v i = aclGetUserCommandBit d.fakeuser i := by
  rw [aclGetUserCommandBit, h.bits]
  rfl

theorem Builds.snoc (h : Builds sha256 t start d v) {v' : User}
    (hrule : aclSetUser sha256 t v rule = .ok v')
    (hbits : v'.allowedCommands = fake.allowedCommands) (hsame : SameCredentials v v') :
    Builds sha256 t start ⟨fake, d.rules ++ [rule]⟩ v' where
  applied := by
    rw [applyRules_append h.applied, applyRules_cons [] hrule]
    rfl
  bits := hbits
  same := h.same.trans hsame

theorem Builds.first (sha256 : Bytes → Digest) (t : Commands) (start : User) (additive : Bool) :
    ∃ v, Builds sha256 t start
        ⟨afterRule sha256 t fakeUser (firstRule additive), [firstRule additive]⟩ v ∧
      v.allowedSubcommands = fun _ => [] := by
  refine ⟨if additive then noCommands start else allCommands start, ⟨?_, ?_, ?_⟩, ?_⟩
  · rw [applyRules_cons [] (aclSetUser_firstRule start additive)]
    rfl
  · cases additive <;> rfl
  · cases additive <;> exact ⟨rfl, rfl, rfl, rfl, rfl, rfl⟩
  · cases additive <;> rfl

/-- The commands of a category change alike for two users with the same bitmap. -/
theorem foldl_setCategoryBit (category : Category) (value : Bool) (cmds : List RedisCommand)
    {u v : User} (hbits : v.allowedCommands = u.allowedCommands)
    (hsubs : v.allowedSubcommands = fun _ => []) :
    (cmds.foldl (setCategoryBit category value) v).allowedCommands =
        (cmds.foldl (setCategoryBit category value) u).allowedCommands ∧
      (cmds.foldl (setCategoryBit category value) v).allowedSubcommands = (fun _ => []) ∧
      SameCredentials v (cmds.foldl (setCategoryBit category value) v) := by
  induction cmds generalizing u v with
  | nil => exact ⟨hbits, hsubs, .refl v⟩
  | cons cmd cmds ih =>
    simp only [foldl_cons, setCategoryBit]
    split_ifs
    · exact ih hbits hsubs
    · have hsubs' : (setWholeCommand v cmd.id value).allowedSubcommands = fun _ => [] := by
        rw [allowedSubcommands_setWhole, hsubs]
        exact update_eq_self cmd.id fun _ => ([] : List Bytes)
      obtain ⟨hb, hs, hc⟩ := ih (u := setWholeCommand u cmd.id value)
        (allowedCommands_setWhole_congr hbits cmd.id value) hsubs'
      exact ⟨hb, hs, (SameCredentials.setWhole v cmd.id value).trans hc⟩
    · exact ih hbits hsubs

theorem Builds.categories (additive : Bool) (items : List (String × Category))
    (hitems : items ⊆ aclCommandCategories) (h : Builds sha256 t start d v)
    (hsubs : v.allowedSubcommands = fun _ => []) :
    ∃ v', Builds sha256 t start (items.foldl (describeCategory sha256 t u additive) d) v' ∧
      v'.allowedSubcommands = fun _ => [] := by
  induction items generalizing d v with
  | nil => exact ⟨v, h, hsubs⟩
  | cons item items ih =>
    obtain ⟨hitem, hrest⟩ := cons_subset.mp hitems
    rw [foldl_cons]
    rcases describeCategory_cases sha256 t u additive d hitem with heq | heq
    · rw [heq]
      exact ih hrest h hsubs
    · rw [heq]
      obtain ⟨hb, hs, hc⟩ := foldl_setCategoryBit item.2 additive t.commands h.bits hsubs
      exact ih hrest (h.snoc (aclSetUser_category v additive hitem) hb hc) hs

/-- Different commands have different identifiers. -/
theorem CommandTable.nodup_ids (table : CommandTable) :
    (table.commands.map RedisCommand.id).Nodup := by
  have hinj : ∀ a ∈ table.commands, ∀ b ∈ table.commands, a.id = b.id → a = b := by
    intro a ha b hb heq
    rw [table.valid.id_eq ha, table.valid.id_eq hb] at heq
    have hlower := (idxOf_inj (table.valid.known a ha).1).mp heq
    apply inj_on_of_nodup_map table.distinct ha hb
    rw [← (table.names a ha).lowerName, hlower, (table.names b hb).lowerName]
  exact List.Nodup.map_on hinj (List.Nodup.of_map _ table.distinct)

theorem commandAllowed_congr (hcmd : cmd ∈ table.commands) (hu : Permissions table.toCommands u)
    (hv : Permissions table.toCommands v) (hbits : v.allowedCommands = u.allowedCommands)
    (hsubs : v.allowedSubcommands cmd.id = u.allowedSubcommands cmd.id) (argv : List Bytes) :
    commandAllowed v cmd argv = commandAllowed u cmd argv := by
  have hid := table.valid.id_lt hcmd
  have hbit : aclGetUserCommandBit v cmd.id = aclGetUserCommandBit u cmd.id := by
    rw [aclGetUserCommandBit, hbits]
    rfl
  -- the flag for all commands only stands beside a full bitmap
  have hflag : ∀ w, Permissions table.toCommands w →
      (w.allcommands || aclGetUserCommandBit w cmd.id) = aclGetUserCommandBit w cmd.id := by
    intro w hw
    cases hall : w.allcommands with
    | false => rfl
    | true => rw [hw.allcommands hall cmd.id (by omega), Bool.or_self]
  have hallowed : ∀ w, Permissions table.toCommands w → commandAllowed w cmd argv =
      (aclGetUserCommandBit w cmd.id || cmd.isAuth ||
        (2 ≤ argv.length && (w.allowedSubcommands cmd.id).any (sameName (argv.getD 1 [])))) := by
    intro w hw
    rw [commandAllowed, Bool.or_right_comm w.allcommands, hflag w hw]
  rw [hallowed v hv, hallowed u hu, hbit, hsubs]

/-- Adding subcommands that are all different. -/
theorem applyRules_subcommands (sha256 : Bytes → Digest) (hcmd : cmd ∈ table.commands)
    (subs : List Bytes) (v : User) (hbit : aclGetUserCommandBit v cmd.id = false)
    (hnames : ∀ sub ∈ subs, sub ≠ [] ∧ (0 : UInt8) ∉ sub)
    (hdistinct : (v.allowedSubcommands cmd.id ++ subs).Pairwise fun a b => sameName a b = false) :
    ∃ v', applyRules sha256 table.toCommands v (subs.map (subcommandRule cmd)) = .ok v' ∧
      v'.allowedCommands = v.allowedCommands ∧ SameCredentials v v' ∧
      v'.allowedSubcommands =
        update v.allowedSubcommands cmd.id (v.allowedSubcommands cmd.id ++ subs) := by
  induction subs generalizing v with
  | nil =>
    refine ⟨v, rfl, rfl, .refl v, ?_⟩
    rw [append_nil, update_eq_self]
  | cons sub subs ih =>
    obtain ⟨⟨hne, hzero⟩, hrest⟩ := forall_mem_cons.mp hnames
    have hid := table.valid.id_lt hcmd
    have hnew : (v.allowedSubcommands cmd.id).any (sameName · sub) = false := by
      rw [any_eq_false]
      intro a ha
      simpa using (pairwise_append.mp hdistinct).2.2 a ha sub mem_cons_self
    let v₁ := aclSetUserCommandBit (aclAddAllowedSubcommand v cmd.id sub) cmd.id false
    have hsubs₁ : v₁.allowedSubcommands =
        update v.allowedSubcommands cmd.id (v.allowedSubcommands cmd.id ++ [sub]) := by
      rw [allowedSubcommands_setBit, allowedSubcommands_addSub, if_neg (by simp [hnew])]
    have hbits₁ : ∀ i, aclGetUserCommandBit v₁ i = aclGetUserCommandBit v i := by
      intro i
      rw [aclGetUserCommandBit_setBit _ (by omega), aclGetUserCommandBit_addSub]
      split_ifs with hi
      · rw [hi, hbit]
      · rfl
    obtain ⟨v', happlied, hbits, hsame, hsubs⟩ := ih v₁ ((hbits₁ cmd.id).trans hbit) hrest (by
      rw [hsubs₁, update_self]
      simpa using hdistinct)
    refine ⟨v', ?_, ?_, ?_, ?_⟩
    · rw [map_cons, applyRules_cons _ (aclSetUser_subcommand hcmd hbit hne hzero)]
      exact happlied
    · rw [hbits]
      exact User.bitmap_ext fun i _ => hbits₁ i
    · exact ((SameCredentials.addSub v cmd.id sub).trans (.setBit _ cmd.id false)).trans hsame
    · rw [hsubs, hsubs₁, update_self, update_idem, append_assoc]
      rfl

variable (h : Builds sha256 table.toCommands start d v)
include h

theorem Builds.commandBit (hcmd : cmd ∈ table.commands) (hsubs : v.allowedSubcommands cmd.id = []) :
    ∃ v', Builds sha256 table.toCommands start (describeBit u d cmd) v' ∧
      v'.allowedSubcommands = v.allowedSubcommands ∧
      aclGetUserCommandBit v' cmd.id = aclGetUserCommandBit u cmd.id := by
  have hid := table.valid.id_lt hcmd
  rw [describeBit]
  split_ifs with hne
  · refine ⟨_, h.snoc (aclSetUser_command hcmd v (aclGetUserCommandBit u cmd.id))
      (allowedCommands_setWhole_congr h.bits _ _) (.setWhole v _ _), ?_, ?_⟩
    · rw [allowedSubcommands_setWhole, ← hsubs, update_eq_self]
    · rw [aclGetUserCommandBit_setWhole v (by omega), if_pos rfl]
  · exact ⟨v, h, rfl, by rw [h.bit, not_not.mp hne]⟩

/-- A command gets its bit and its subcommands. -/
theorem Builds.command (hu : Permissions table.toCommands u) (hcmd : cmd ∈ table.commands)
    (hsubs : v.allowedSubcommands cmd.id = []) :
    ∃ v', Builds sha256 table.toCommands start (describeCommand u d cmd) v' ∧
      v'.allowedSubcommands =
        update v.allowedSubcommands cmd.id (u.allowedSubcommands cmd.id) := by
  obtain ⟨v₁, h₁, hsubs₁, hbit₁⟩ := h.commandBit (u := u) hcmd hsubs
  rw [describeCommand]
  cases hbit : aclGetUserCommandBit u cmd.id with
  | true =>
    refine ⟨v₁, h₁, ?_⟩
    rw [hsubs₁, (hu.subs cmd.id).whole hbit, ← hsubs, update_eq_self]
  | false =>
    obtain ⟨v', happlied, hbits, hsame, hsubs'⟩ := applyRules_subcommands sha256 hcmd
      (u.allowedSubcommands cmd.id) v₁ (hbit₁.trans hbit) (hu.subs cmd.id).names (by
        rw [hsubs₁, hsubs]
        exact (hu.subs cmd.id).distinct)
    refine ⟨v', ⟨?_, hbits.trans h₁.bits, h₁.same.trans hsame⟩, ?_⟩
    · rw [← happlied]
      exact applyRules_append h₁.applied
    · rw [hsubs', hsubs₁, hsubs]
      rfl

/-- The commands that were described have the subcommands of the user, the others none. -/
theorem Builds.commands (hu : Permissions table.toCommands u) (cmds : List RedisCommand)
    (hcmds : cmds ⊆ table.commands) (hnodup : (cmds.map RedisCommand.id).Nodup)
    (hsubs : ∀ cmd ∈ cmds, v.allowedSubcommands cmd.id = []) :
    ∃ v', Builds sha256 table.toCommands start (cmds.foldl (describeCommand u) d) v' ∧
      (∀ cmd ∈ cmds, v'.allowedSubcommands cmd.id = u.allowedSubcommands cmd.id) ∧
      ∀ i, i ∉ cmds.map RedisCommand.id → v'.allowedSubcommands i = v.allowedSubcommands i := by
  induction cmds generalizing d v with
  | nil => exact ⟨v, h, by simp, fun _ _ => rfl⟩
  | cons cmd cmds ih =>
    obtain ⟨hcmd, hrest⟩ := cons_subset.mp hcmds
    obtain ⟨hnew, hnodup⟩ := nodup_cons.mp hnodup
    obtain ⟨v₁, h₁, hsubs₁⟩ := h.command hu hcmd (hsubs cmd mem_cons_self)
    have hother : ∀ i, i ≠ cmd.id → v₁.allowedSubcommands i = v.allowedSubcommands i := by
      intro i hi
      rw [hsubs₁, update_of_ne hi]
    obtain ⟨v', h', hdone, hkept⟩ := ih h₁ hrest hnodup (by
      intro cmd' hmem
      rw [hother _ fun heq => hnew (heq ▸ mem_map_of_mem hmem)]
      exact hsubs cmd' (mem_cons_of_mem _ hmem))
    refine ⟨v', h', forall_mem_cons.mpr ⟨?_, hdone⟩, ?_⟩
    · rw [hkept cmd.id hnew, hsubs₁, update_self]
    · intro i hi
      rw [map_cons, mem_cons, not_or] at hi
      rw [hkept i hi.2, hother i hi.1]

end Rebuilt

section Roundtrip

/-- A user after any rules, of which some may have been rejected. -/
def userAfter (sha256 : Bytes → Digest) (t : Commands) (ops : List Bytes) : User :=
  ops.foldl (afterRule sha256 t) aclCreateUser

theorem changes_userAfter (ht : t.Valid) (ops : List Bytes) :
    Changes t aclCreateUser (userAfter sha256 t ops) := by
  rw [userAfter]
  induction ops using reverseRecOn with
  | nil => exact .refl
  | append_singleton ops op ih =>
    rw [foldl_append]
    exact ih.trans (Changes.afterRule ht _ op)

/-- The rules that describe a user are accepted one by one, and they make a user with the same
flags, passwords and patterns who may run the same commands. -/
theorem description_rebuilds_user (sha256 : Bytes → Digest) (table : CommandTable)
    (ops : List Bytes) :
    ∃ rules v,
      aclDescribeUserRules sha256 table.toCommands (userAfter sha256 table.toCommands ops) =
        some rules ∧
      applyRules sha256 table.toCommands aclCreateUser rules = .ok v ∧
      SameCredentials (userAfter sha256 table.toCommands ops) v ∧
      ∀ cmd ∈ table.commands, ∀ argv, aclCheckCommandPerm v cmd argv =
        aclCheckCommandPerm (userAfter sha256 table.toCommands ops) cmd argv := by
  let u := userAfter sha256 table.toCommands ops
  have hchanges : Changes table.toCommands aclCreateUser u := changes_userAfter table.valid ops
  have hcredentials := credentials_create.changes hchanges
  have hpermissions := (permissions_create _).changes table.valid hchanges
  have huniform := (uniform_create _).changes table.valid hchanges
  have hbitmap := (draft_bitmap sha256 table.valid u).mpr huniform
  obtain ⟨w, hw, hsame⟩ := applyRules_credentials sha256 table.toCommands hcredentials
  -- the rules for the commands give the bitmap and the subcommands
  obtain ⟨v₁, h₁, hsubs₁⟩ := Builds.first sha256 table.toCommands w
    (!aclUserCanExecuteFutureCommands u)
  obtain ⟨v₂, h₂, hsubs₂⟩ := h₁.categories (u := u) (!aclUserCanExecuteFutureCommands u)
    aclCommandCategories (List.Subset.refl _) hsubs₁
  obtain ⟨v, hbuilds, hsubs, -⟩ := h₂.commands hpermissions table.commands (List.Subset.refl _)
    table.nodup_ids (fun cmd _ => by rw [hsubs₂])
  have happlied := (applyRules_append hw).trans hbuilds.applied
  have hv := (permissions_create _).changes table.valid (Changes.applyRules table.valid happlied)
  have hsame' := hsame.trans hbuilds.same
  refine ⟨_, v, ?_, happlied, hsame', ?_⟩
  · rw [aclDescribeUserRules, aclDescribeUserCommandRules, if_pos hbitmap]
    rfl
  · intro cmd hcmd argv
    have hallowed := commandAllowed_congr hcmd hpermissions hv (hbuilds.bits.trans hbitmap)
      (hsubs cmd hcmd) argv
    unfold aclCheckCommandPerm keyAllowed
    rw [hallowed, hsame'.allkeys, hsame'.patterns]

end Roundtrip

end Redis.Acl
