import Redis.Acl.Basic

/-! What a rule can do to a user, and what holds of every user that rules have made. -/
namespace Redis.Acl

open ByteBuffer Util List
open Function (update update_apply update_of_ne)

variable {sha256 : Bytes → Digest} {t : Commands} {u u' : User}
variable {cmd : RedisCommand} {id : Nat} {name : Bytes}
variable {value : Bool} {hash op : Bytes} {l : List Bytes}

section Identifiers

variable (ht : t.Valid)
include ht

theorem Commands.Valid.idxOf_lt (hcmd : cmd ∈ t.commands) :
    t.ids.idxOf (lowerName cmd.name) < userCommandBitsCount - 1 := by
  have hlt := idxOf_lt_length_of_mem (ht.known cmd hcmd).1
  have hroom := ht.room
  omega

theorem Commands.Valid.id_eq (hcmd : cmd ∈ t.commands) :
    cmd.id = t.ids.idxOf (lowerName cmd.name) := by
  rw [(ht.known cmd hcmd).2, aclGetCommandID, if_pos (ht.idxOf_lt hcmd)]

/-- A command of the table never has the identifier that is kept for commands of the future. -/
theorem Commands.Valid.id_lt (hcmd : cmd ∈ t.commands) : cmd.id < userCommandBitsCount - 1 := by
  rw [ht.id_eq hcmd]
  exact ht.idxOf_lt hcmd

/-- A command that is found has the identifier of the name by which it was found. -/
theorem Commands.Valid.lookup (h : aclLookupCommand t name = some cmd) :
    cmd ∈ t.commands ∧ aclGetCommandID t.ids name = cmd.id := by
  have hcmd := mem_of_find?_eq_some h
  have hname : lowerName cmd.name = lowerName name := by
    simpa [sameName] using find?_some h
  refine ⟨hcmd, ?_⟩
  rw [(ht.known cmd hcmd).2, aclGetCommandID, aclGetCommandID, hname]

end Identifiers

section Bits

/-- Setting a bit changes that bit and no other. -/
@[simp] theorem aclGetUserCommandBit_setBit (u : User) (hid : id < userCommandBitsCount)
    (value : Bool) (i : Nat) :
    aclGetUserCommandBit (aclSetUserCommandBit u id value) i =
      if i = id then value else aclGetUserCommandBit u i := by
  rw [aclSetUserCommandBit, if_neg (by omega)]
  by_cases hi : i = id
  · subst hi
    cases value <;> simp [aclGetUserCommandBit, hid]
  · cases value <;> simp [aclGetUserCommandBit, hi, Ne.symm hi]
    intro hset
    exact BitVec.lt_of_getLsbD hset

theorem User.bitmap_ext {u u' : User}
    (h : ∀ i < userCommandBitsCount, aclGetUserCommandBit u i = aclGetUserCommandBit u' i) :
    u.allowedCommands = u'.allowedCommands :=
  BitVec.eq_of_getLsbD_eq h

@[simp] theorem aclGetUserCommandBit_setWhole (u : User) (hid : id < userCommandBitsCount)
    (value : Bool) (i : Nat) :
    aclGetUserCommandBit (setWholeCommand u id value) i =
      if i = id then value else aclGetUserCommandBit u i :=
  aclGetUserCommandBit_setBit u hid value i

@[simp] theorem allowedSubcommands_setBit (u : User) (id : Nat) (value : Bool) :
    (aclSetUserCommandBit u id value).allowedSubcommands = u.allowedSubcommands := by
  rw [aclSetUserCommandBit]
  split_ifs <;> rfl

@[simp] theorem allowedSubcommands_setWhole (u : User) (id : Nat) (value : Bool) :
    (setWholeCommand u id value).allowedSubcommands =
      update u.allowedSubcommands id [] := by
  simp [setWholeCommand, aclResetSubcommandsForCommand]

/-- Only clearing a bit takes the flag for all commands away. -/
theorem allcommands_setBit (hid : id < userCommandBitsCount)
    (h : (aclSetUserCommandBit u id value).allcommands = true) :
    value = true ∧ u.allcommands = true := by
  rw [aclSetUserCommandBit, if_neg (by omega)] at h
  cases value with
  | false => cases h
  | true => exact ⟨rfl, h⟩

end Bits

section Changes

/-- The fields that say nothing about commands. -/
structure SameCredentials (u u' : User) : Prop where
  enabled : u'.enabled = u.enabled
  disabled : u'.disabled = u.disabled
  allkeys : u'.allkeys = u.allkeys
  nopass : u'.nopass = u.nopass
  passwords : u'.passwords = u.passwords
  patterns : u'.patterns = u.patterns

theorem SameCredentials.refl (u : User) : SameCredentials u u := ⟨rfl, rfl, rfl, rfl, rfl, rfl⟩

theorem SameCredentials.trans {u'' : User} (h : SameCredentials u u') (h' : SameCredentials u' u'') :
    SameCredentials u u'' where
  enabled := h'.enabled.trans h.enabled
  disabled := h'.disabled.trans h.disabled
  allkeys := h'.allkeys.trans h.allkeys
  nopass := h'.nopass.trans h.nopass
  passwords := h'.passwords.trans h.passwords
  patterns := h'.patterns.trans h.patterns

theorem SameCredentials.setBit (u : User) (id : Nat) (value : Bool) :
    SameCredentials u (aclSetUserCommandBit u id value) := by
  rw [aclSetUserCommandBit]
  split_ifs <;> exact ⟨rfl, rfl, rfl, rfl, rfl, rfl⟩

/-- Rules about commands leave the flags, the passwords and the patterns alone. -/
theorem SameCredentials.setWhole (u : User) (id : Nat) (value : Bool) :
    SameCredentials u (setWholeCommand u id value) :=
  (SameCredentials.setBit u id value).trans ⟨rfl, rfl, rfl, rfl, rfl, rfl⟩

theorem SameCredentials.addSub (u : User) (id : Nat) (sub : Bytes) :
    SameCredentials u (aclAddAllowedSubcommand u id sub) := by
  rw [aclAddAllowedSubcommand]
  split_ifs <;> exact ⟨rfl, rfl, rfl, rfl, rfl, rfl⟩

/-- The single changes that rules are made of. -/
inductive Change (t : Commands) (u : User) : User → Prop
  | on : Change t u (setOn u)
  | off : Change t u (setOff u)
  | allKeys : Change t u (allKeys u)
  | resetKeys : Change t u (resetKeys u)
  | allCommands : Change t u (allCommands u)
  | noCommands : Change t u (noCommands u)
  | noPass : Change t u (noPass u)
  | resetPass : Change t u (resetPass u)
  | addPassword (hash : Bytes) (hcheck : aclCheckPasswordHash hash = true) :
      Change t u (addPassword u hash)
  | removePassword (hash : Bytes) : Change t u { u with passwords := u.passwords.erase hash }
  | addPattern (pattern : Bytes) (hspaces : aclStringHasSpaces pattern = false)
      (hstar : pattern ≠ [42]) (hallkeys : u.allkeys = false) :
      Change t u { u with
        patterns := if pattern ∈ u.patterns then u.patterns else u.patterns ++ [pattern]
        allkeys := false }
  | command (cmd : RedisCommand) (hcmd : cmd ∈ t.commands) (value : Bool) :
      Change t u (setWholeCommand u cmd.id value)
  | subcommand (cmd : RedisCommand) (hcmd : cmd ∈ t.commands) (sub : Bytes) (hne : sub ≠ [])
      (hzero : (0 : UInt8) ∉ sub) (hbit : aclGetUserCommandBit u cmd.id = false) :
      Change t u (aclSetUserCommandBit (aclAddAllowedSubcommand u cmd.id sub) cmd.id false)

abbrev Changes (t : Commands) : User → User → Prop := Relation.ReflTransGen (Change t)

theorem isHashChar_hexDigit {n : Nat} (h : n < 16) : isHashChar (hexDigit n) = true := by
  interval_cases n <;> decide

theorem length_aclHashPassword (sha256 : Bytes → Digest) (cleartext : Bytes) :
    (aclHashPassword sha256 cleartext).length = 64 := by
  simp [aclHashPassword, length_flatMap, (sha256 cleartext).property]

/-- The hash of a password is accepted as a hash. -/
theorem aclCheckPasswordHash_hash (cleartext : Bytes) :
    aclCheckPasswordHash (aclHashPassword sha256 cleartext) = true := by
  have hall : (aclHashPassword sha256 cleartext).all isHashChar = true := by
    rw [aclHashPassword, all_flatMap, all_eq_true]
    intro b _
    have hb := b.toNat_lt
    simp [isHashChar_hexDigit (show b.toNat / 16 < 16 by omega),
      isHashChar_hexDigit (show b.toNat % 16 < 16 by omega)]
  have hlength := length_aclHashPassword sha256 cleartext
  have hmod : ((64 : Nat) : Int).bmod (2 ^ 32) = 64 := by decide
  have htake : (aclHashPassword sha256 cleartext).take 64 = aclHashPassword sha256 cleartext :=
    take_of_length_le (by omega)
  unfold aclCheckPasswordHash
  rw [htake, hall, hlength, Bool.and_true]
  exact decide_eq_true hmod

theorem givenHash_ok {clear : Bool} {arg : Bytes} (h : givenHash sha256 clear arg = .ok hash) :
    aclCheckPasswordHash hash = true := by
  rw [givenHash] at h
  split_ifs at h with hclear hcheck
  · cases h
    exact aclCheckPasswordHash_hash arg
  · cases h
    exact hcheck

theorem Changes.removePassword (h : removePassword u hash = .ok u') :
    Changes t u u' := by
  rw [Acl.removePassword] at h
  split_ifs at h
  cases h
  exact .single (.removePassword hash)

/-- The pattern `*` cannot come from `addPattern`: the rule `~*` is read before it. -/
theorem Changes.addPattern {pattern : Bytes} (hstar : pattern ≠ [42])
    (h : addPattern u pattern = .ok u') : Changes t u u' := by
  rw [Acl.addPattern] at h
  cases hallkeys : u.allkeys with
  | true => simp [hallkeys] at h
  | false =>
    cases hspaces : aclStringHasSpaces pattern with
    | true => simp [hallkeys, hspaces] at h
    | false =>
      rw [hallkeys, hspaces] at h
      cases h
      exact .single (.addPattern pattern hspaces hstar hallkeys)

theorem Changes.setCommand (ht : t.Valid) (h : setCommand t u name value = .ok u') :
    Changes t u u' := by
  rw [Acl.setCommand] at h
  cases hlookup : aclLookupCommand t name with
  | none => simp [hlookup] at h
  | some cmd =>
    obtain ⟨hcmd, hid⟩ := ht.lookup hlookup
    rw [hlookup, hid] at h
    cases h
    exact .single (.command cmd hcmd value)

theorem zero_notMem_splitRule (name : Bytes) : (0 : UInt8) ∉ (splitRule name).2 := by
  intro h
  have hmem : (0 : UInt8) ∈ cString name :=
    (dropWhile_sublist _).subset (mem_of_mem_tail h)
  simpa using mem_takeWhile_imp hmem

theorem Changes.addSubcommand (ht : t.Valid) (h : addSubcommand t u name = .ok u') :
    Changes t u u' := by
  rw [Acl.addSubcommand] at h
  cases hlookup : aclLookupCommand t (splitRule name).1 with
  | none => simp [hlookup] at h
  | some cmd =>
    obtain ⟨hcmd, hid⟩ := ht.lookup hlookup
    simp only [hlookup, hid] at h
    split_ifs at h with hne hbit
    cases h
    exact .single (.subcommand cmd hcmd _ hne (zero_notMem_splitRule name) (by simpa using hbit))

/-- A rule about a category is one change for each of its commands. -/
theorem Changes.category (t : Commands) (category : Category) (value : Bool) (u : User) :
    Changes t u (t.commands.foldl (setCategoryBit category value) u) := by
  suffices h : ∀ cmds ⊆ t.commands, ∀ u,
      Changes t u (cmds.foldl (setCategoryBit category value) u) from h _ (List.Subset.refl _) u
  intro cmds
  induction cmds with
  | nil => exact fun _ u => .refl
  | cons cmd cmds ih =>
    intro hsub u
    obtain ⟨hcmd, hcmds⟩ := cons_subset.mp hsub
    refine .trans ?_ (ih hcmds _)
    rw [setCategoryBit]
    split_ifs
    · exact .refl
    · exact .single (.command cmd hcmd value)
    · exact .refl

theorem Changes.applyOperator (ht : t.Valid) (hstar : named op "~*" = false)
    (h : applyOperator sha256 t u op = .ok u') : Changes t u u' := by
  rw [Acl.applyOperator] at h
  split_ifs at h with hadd hdel hpattern hplus hbar hminus hcategory hreset
  · cases hgiven : givenHash sha256 (op.getD 0 0 = 62) (op.drop 1) with
    | error e =>
      rw [hgiven] at h
      cases h
    | ok hash =>
      rw [hgiven] at h
      cases h
      exact .single (.addPassword hash (givenHash_ok hgiven))
  · cases hgiven : givenHash sha256 (op.getD 0 0 = 60) (op.drop 1) with
    | error e =>
      rw [hgiven] at h
      cases h
    | ok hash =>
      rw [hgiven] at h
      exact Changes.removePassword h
  · refine Changes.addPattern ?_ h
    intro hpat
    cases op with
    | nil => simp at hpattern
    | cons c rest =>
      subst hpattern hpat
      exact absurd hstar (by decide)
  · exact Changes.addSubcommand ht h
  · exact Changes.setCommand ht h
  · exact Changes.setCommand ht h
  · rw [aclSetUserCommandBitsForCategory] at h
    cases hflag : aclGetCommandCategoryFlagByName (op.drop 2) with
    | none => simp [hflag] at h
    | some cflag =>
      simp only [hflag] at h
      cases h
      exact Changes.category t cflag _ u
  · cases h
    exact ((Relation.ReflTransGen.single .resetPass).tail .resetKeys).tail .off |>.tail .noCommands

/-- A rule that is accepted is made of such changes. -/
theorem Changes.aclSetUser (ht : t.Valid) (h : aclSetUser sha256 t u op = .ok u') :
    Changes t u u' := by
  rw [Acl.aclSetUser] at h
  split_ifs at h with hnil hon hoff hkeys hreset hall hno hnopass hresetpass
  · cases h
    exact .refl
  · cases h
    exact .single .on
  · cases h
    exact .single .off
  · cases h
    exact .single .allKeys
  · cases h
    exact .single .resetKeys
  · cases h
    exact .single .allCommands
  · cases h
    exact .single .noCommands
  · cases h
    exact .single .noPass
  · cases h
    exact .single .resetPass
  · exact Changes.applyOperator ht (by simpa using fun hstar => hkeys (.inr hstar)) h

theorem Changes.afterRule (ht : t.Valid) (u : User) (op : Bytes) :
    Changes t u (afterRule sha256 t u op) := by
  rw [Acl.afterRule]
  cases h : Acl.aclSetUser sha256 t u op with
  | ok u' => exact Changes.aclSetUser ht h
  | error e => exact .refl

/-- What every single change keeps holds after any number of them. -/
theorem Changes.keeps {P : User → Prop} (hchanges : Changes t u u') (h : P u)
    (hstep : ∀ {v v'}, P v → Change t v v' → P v') : P u' := by
  induction hchanges with
  | refl => exact h
  | tail _ hchange ih => exact hstep ih hchange

end Changes

section Credentials

/-- What holds of the fields that say nothing about commands. -/
structure Credentials (u : User) : Prop where
  onOff : u.disabled = !u.enabled
  nopass : u.nopass = true → u.passwords = []
  distinctPasswords : u.passwords.Nodup
  hashes : ∀ hash ∈ u.passwords, aclCheckPasswordHash hash = true
  allkeys : u.allkeys = true → u.patterns = []
  distinctPatterns : u.patterns.Nodup
  noSpaces : ∀ pattern ∈ u.patterns, aclStringHasSpaces pattern = false ∧ pattern ≠ [42]

theorem credentials_create : Credentials aclCreateUser where
  onOff := rfl
  nopass := fun _ => rfl
  distinctPasswords := .nil
  hashes := by simp [aclCreateUser]
  allkeys := fun _ => rfl
  distinctPatterns := .nil
  noSpaces := by simp [aclCreateUser]

theorem Credentials.congr (h : Credentials u) (hsame : SameCredentials u u') : Credentials u' where
  onOff := by rw [hsame.disabled, hsame.enabled, h.onOff]
  nopass := by
    rw [hsame.nopass, hsame.passwords]
    exact h.nopass
  distinctPasswords := hsame.passwords ▸ h.distinctPasswords
  hashes := hsame.passwords ▸ h.hashes
  allkeys := by
    rw [hsame.allkeys, hsame.patterns]
    exact h.allkeys
  distinctPatterns := hsame.patterns ▸ h.distinctPatterns
  noSpaces := hsame.patterns ▸ h.noSpaces

/-- A list that gets a new element at its end, unless it has it. -/
theorem nodup_insertLast (h : l.Nodup) (a : Bytes) :
    (if a ∈ l then l else l ++ [a]).Nodup := by
  split_ifs with ha
  · exact h
  · exact h.append (nodup_singleton a) (disjoint_singleton.mpr ha)

theorem forall_mem_insertLast {P : Bytes → Prop} (h : ∀ b ∈ l, P b) {a : Bytes}
    (ha : P a) : ∀ b ∈ (if a ∈ l then l else l ++ [a]), P b := by
  split_ifs
  · exact h
  · exact forall_mem_append.mpr ⟨h, forall_mem_singleton.mpr ha⟩

/-- Every single change keeps what holds of the passwords and the patterns. -/
theorem Credentials.change (h : Credentials u) (hchange : Change t u u') : Credentials u' := by
  cases hchange with
  | on | off => exact { h with onOff := rfl }
  | allKeys =>
    exact { h with allkeys := fun _ => rfl, distinctPatterns := .nil, noSpaces := by simp [allKeys] }
  | resetKeys =>
    exact { h with
      allkeys := fun _ => rfl, distinctPatterns := .nil, noSpaces := by simp [resetKeys] }
  | allCommands | noCommands => exact h.congr ⟨rfl, rfl, rfl, rfl, rfl, rfl⟩
  | noPass =>
    exact { h with nopass := fun _ => rfl, distinctPasswords := .nil, hashes := by simp [noPass] }
  | resetPass =>
    exact { h with nopass := fun _ => rfl, distinctPasswords := .nil, hashes := by simp [resetPass] }
  | addPassword hash hcheck =>
    exact { h with
      nopass := nofun
      distinctPasswords := nodup_insertLast h.distinctPasswords hash
      hashes := forall_mem_insertLast h.hashes hcheck }
  | removePassword hash =>
    exact { h with
      nopass := fun hno => by simp [h.nopass hno]
      distinctPasswords := h.distinctPasswords.erase hash
      hashes := fun b hb => h.hashes b (mem_of_mem_erase hb) }
  | addPattern pattern hspaces hstar hallkeys =>
    exact { h with
      allkeys := nofun
      distinctPatterns := nodup_insertLast h.distinctPatterns pattern
      noSpaces := forall_mem_insertLast h.noSpaces ⟨hspaces, hstar⟩ }
  | command cmd hcmd value => exact h.congr (.setWhole u cmd.id value)
  | subcommand cmd hcmd sub hne hzero hbit =>
    exact h.congr ((SameCredentials.addSub u cmd.id sub).trans (.setBit _ cmd.id false))

theorem Credentials.changes (h : Credentials u) (hchanges : Changes t u u') : Credentials u' :=
  hchanges.keeps h fun h => h.change

end Credentials

section Permissions

/-- The bits that belong to no command are equal to the reserved bit. -/
def Uniform (t : Commands) (u : User) : Prop :=
  ∀ i < userCommandBitsCount, (∀ cmd ∈ t.commands, cmd.id ≠ i) →
    aclGetUserCommandBit u i = aclUserCanExecuteFutureCommands u

/-- What holds of the subcommands of one identifier: the command is not allowed as a whole, it
exists, and the names are C strings that differ in more than case. -/
structure Subcommands (t : Commands) (i : Nat) (bit : Bool) (subs : List Bytes) : Prop where
  whole : bit = true → subs = []
  owned : subs ≠ [] → ∃ cmd ∈ t.commands, cmd.id = i
  names : ∀ sub ∈ subs, sub ≠ [] ∧ (0 : UInt8) ∉ sub
  distinct : subs.Pairwise fun a b => sameName a b = false

/-- What holds of the fields about commands. -/
structure Permissions (t : Commands) (u : User) : Prop where
  allcommands : u.allcommands = true → ∀ i < userCommandBitsCount, aclGetUserCommandBit u i = true
  subs : ∀ i, Subcommands t i (aclGetUserCommandBit u i) (u.allowedSubcommands i)

theorem uniform_create (t : Commands) : Uniform t aclCreateUser := by
  intro i _ _
  simp [aclGetUserCommandBit, aclUserCanExecuteFutureCommands, aclCreateUser]

theorem Subcommands.nil (t : Commands) (i : Nat) (bit : Bool) : Subcommands t i bit [] :=
  ⟨fun _ => rfl, absurd rfl, nofun, .nil⟩

theorem permissions_create (t : Commands) : Permissions t aclCreateUser :=
  ⟨nofun, fun _ => .nil ..⟩

theorem Permissions.congr (h : Permissions t u) (hall : u'.allcommands = u.allcommands)
    (hbits : u'.allowedCommands = u.allowedCommands)
    (hsubs : u'.allowedSubcommands = u.allowedSubcommands) : Permissions t u' := by
  have hbit : aclGetUserCommandBit u' = aclGetUserCommandBit u := by
    funext i
    rw [aclGetUserCommandBit, hbits]
    rfl
  constructor
  · rw [hall, hbit]
    exact h.allcommands
  · rw [hbit, hsubs]
    exact h.subs

theorem Permissions.allCommands (t : Commands) (u : User) : Permissions t (allCommands u) := by
  refine ⟨fun _ i hi => ?_, fun _ => .nil ..⟩
  simpa [aclGetUserCommandBit, Acl.allCommands, aclResetSubcommands] using hi

theorem Permissions.noCommands (t : Commands) (u : User) : Permissions t (noCommands u) :=
  ⟨nofun, fun _ => .nil ..⟩

/-- A command that is set as a whole, in either way, loses its subcommands. -/
theorem Permissions.setWhole (h : Permissions t u) (hid : id < userCommandBitsCount) (value : Bool) :
    Permissions t (setWholeCommand u id value) := by
  constructor
  · intro hall i hi
    obtain ⟨rfl, hold⟩ := allcommands_setBit hid hall
    rw [aclGetUserCommandBit_setWhole u hid]
    split_ifs
    · rfl
    · exact h.allcommands hold i hi
  · intro i
    rw [allowedSubcommands_setWhole, aclGetUserCommandBit_setWhole u hid, update_apply]
    split_ifs
    · exact .nil ..
    · exact h.subs i

/-- The subcommands of one command after one was added. -/
theorem allowedSubcommands_addSub (u : User) (id : Nat) (sub : Bytes) :
    (aclAddAllowedSubcommand u id sub).allowedSubcommands =
      if (u.allowedSubcommands id).any (sameName · sub) then u.allowedSubcommands
      else update u.allowedSubcommands id (u.allowedSubcommands id ++ [sub]) := by
  rw [aclAddAllowedSubcommand]
  split_ifs <;> rfl

theorem allowedCommands_addSub (u : User) (id : Nat) (sub : Bytes) :
    (aclAddAllowedSubcommand u id sub).allowedCommands = u.allowedCommands ∧
      (aclAddAllowedSubcommand u id sub).allcommands = u.allcommands := by
  rw [aclAddAllowedSubcommand]
  split_ifs <;> exact ⟨rfl, rfl⟩

theorem aclGetUserCommandBit_addSub (u : User) (id : Nat) (sub : Bytes) (i : Nat) :
    aclGetUserCommandBit (aclAddAllowedSubcommand u id sub) i = aclGetUserCommandBit u i := by
  rw [aclGetUserCommandBit, (allowedCommands_addSub u id sub).1]
  rfl

theorem Subcommands.add (h : Subcommands t cmd.id false l) (hcmd : cmd ∈ t.commands) {sub : Bytes}
    (hne : sub ≠ []) (hzero : (0 : UInt8) ∉ sub) (hany : l.any (sameName · sub) = false) :
    Subcommands t cmd.id false (l ++ [sub]) where
  whole := nofun
  owned := fun _ => ⟨cmd, hcmd, rfl⟩
  names := forall_mem_append.mpr ⟨h.names, forall_mem_singleton.mpr ⟨hne, hzero⟩⟩
  distinct := by
    refine pairwise_append.mpr ⟨h.distinct, pairwise_singleton _ _, ?_⟩
    intro a ha b hb
    rw [mem_singleton.mp hb]
    simpa using any_eq_false.mp hany a ha

/-- A subcommand is only added to a command that is not allowed as a whole. -/
theorem Permissions.addSub (h : Permissions t u) (hcmd : cmd ∈ t.commands) {sub : Bytes}
    (hne : sub ≠ []) (hzero : (0 : UInt8) ∉ sub) (hbit : aclGetUserCommandBit u cmd.id = false) :
    Permissions t (aclAddAllowedSubcommand u cmd.id sub) := by
  constructor
  · intro hall i hi
    rw [aclGetUserCommandBit_addSub]
    exact h.allcommands ((allowedCommands_addSub u cmd.id sub).2 ▸ hall) i hi
  · intro i
    rw [aclGetUserCommandBit_addSub, allowedSubcommands_addSub]
    split_ifs with hany
    · exact h.subs i
    · rw [update_apply]
      split_ifs with hi
      · subst hi
        have hsubs := h.subs cmd.id
        rw [hbit] at hsubs ⊢
        exact hsubs.add hcmd hne hzero (by simpa using hany)
      · exact h.subs i

/-- Clearing a bit that is not set takes at most the flag for all commands away. -/
theorem Permissions.clearBit (h : Permissions t u) (hid : id < userCommandBitsCount)
    (hbit : aclGetUserCommandBit u id = false) :
    Permissions t (aclSetUserCommandBit u id false) := by
  constructor
  · intro hall
    cases (allcommands_setBit hid hall).1
  · intro i
    rw [allowedSubcommands_setBit, aclGetUserCommandBit_setBit u hid]
    split_ifs with hi
    · rw [← hbit, ← hi]
      exact h.subs i
    · exact h.subs i

theorem Permissions.change (ht : t.Valid) (h : Permissions t u) (hchange : Change t u u') :
    Permissions t u' := by
  cases hchange with
  | on | off | allKeys | resetKeys => exact h.congr rfl rfl rfl
  | allCommands => exact Permissions.allCommands t u
  | noCommands => exact Permissions.noCommands t u
  | noPass | resetPass | addPassword hash hcheck | removePassword hash
  | addPattern pattern hspaces hstar hallkeys => exact h.congr rfl rfl rfl
  | command cmd hcmd value =>
    have hid := ht.id_lt hcmd
    exact h.setWhole (by omega) value
  | subcommand cmd hcmd sub hne hzero hbit =>
    have hid := ht.id_lt hcmd
    refine (h.addSub hcmd hne hzero hbit).clearBit (by omega) ?_
    rw [aclGetUserCommandBit_addSub, hbit]

theorem Permissions.changes (ht : t.Valid) (h : Permissions t u) (hchanges : Changes t u u') :
    Permissions t u' :=
  hchanges.keeps h fun h => h.change ht

theorem Uniform.congr (h : Uniform t u) (hbits : u'.allowedCommands = u.allowedCommands) :
    Uniform t u' := by
  unfold Uniform aclUserCanExecuteFutureCommands aclGetUserCommandBit
  rw [hbits]
  exact h

theorem Uniform.of_bit (value : Bool)
    (h : ∀ i < userCommandBitsCount, aclGetUserCommandBit u i = value) : Uniform t u := by
  intro i hi _
  rw [h i hi, aclUserCanExecuteFutureCommands, h _ (by decide)]

/-- Commands have bits of their own, so setting one leaves the bits of no command uniform. -/
theorem Uniform.setBit (ht : t.Valid) (h : Uniform t u) (hcmd : cmd ∈ t.commands) (value : Bool) :
    Uniform t (aclSetUserCommandBit u cmd.id value) := by
  have hid := ht.id_lt hcmd
  intro i hi hnone
  rw [aclUserCanExecuteFutureCommands, aclGetUserCommandBit_setBit u (by omega),
    aclGetUserCommandBit_setBit u (by omega), if_neg (hnone cmd hcmd).symm, if_neg (by omega)]
  exact h i hi hnone

theorem Uniform.change (ht : t.Valid) (h : Uniform t u) (hchange : Change t u u') :
    Uniform t u' := by
  cases hchange with
  | allCommands =>
    apply Uniform.of_bit true
    intro i hi
    simpa [aclGetUserCommandBit, allCommands, aclResetSubcommands] using hi
  | noCommands =>
    apply Uniform.of_bit false
    intro i _
    simp [aclGetUserCommandBit, noCommands, aclResetSubcommands]
  | command cmd hcmd value => exact (h.setBit ht hcmd value).congr rfl
  | subcommand cmd hcmd sub hne hzero hbit =>
    exact (h.congr (allowedCommands_addSub u cmd.id sub).1).setBit ht hcmd false
  | _ => exact h.congr rfl

theorem Uniform.changes (ht : t.Valid) (h : Uniform t u) (hchanges : Changes t u u') :
    Uniform t u' :=
  hchanges.keeps h fun h => h.change ht

end Permissions

end Redis.Acl
