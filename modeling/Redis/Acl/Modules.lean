import Redis.Acl.Description

/-! Modules add commands and take them away again, while the bits of the users stay. -/
namespace Redis.Acl

open ByteBuffer Util List Function

section Registration

/-- A name that had no identifier gets the next one. -/
def registerName (ids : List Bytes) (name : Bytes) : List Bytes :=
  if lowerName name ∈ ids then ids else ids ++ [lowerName name]

/-- `RM_CreateCommand`: a name that is in use is refused. The identifier of a name is kept
when its command goes away. No command is renamed here, so `server.commands`, where the source
looks the name up, and `server.orig_commands` hold the same names. -/
def createCommand (t : Commands) (owner name : Bytes) (firstkey lastkey keystep : Int) : Commands :=
  if (aclLookupCommand t name).isSome then t
  else
    { commands := t.commands ++
        [{ name := name, arity := -1, categories := [], getkeysProc := none, firstkey := firstkey,
           lastkey := lastkey, keystep := keystep, moduleName := some owner,
           id := aclGetCommandID t.ids name }]
      ids := registerName t.ids name }

def moduleUnregisterCommands (t : Commands) (owner : Bytes) : Commands :=
  { t with commands := t.commands.filter (·.moduleName ≠ some owner) }

/-- The command table and the users by their names. -/
structure World where
  table : Commands
  users : Bytes → User

inductive Event where
  | setUser (name op : Bytes)
  | createCommand (owner name : Bytes) (firstkey lastkey keystep : Int)
  | unregister (owner : Bytes)

variable (sha256 : Bytes → Digest)

def World.step (w : World) : Event → World
  | .setUser name op =>
    { w with users := Function.update w.users name (afterRule sha256 w.table (w.users name) op) }
  | .createCommand owner name firstkey lastkey keystep =>
    { w with table := Acl.createCommand w.table owner name firstkey lastkey keystep }
  | .unregister owner => { w with table := moduleUnregisterCommands w.table owner }

/-- A server that starts with its own commands. -/
def World.initial (table : CommandTable) : World := ⟨table.toCommands, fun _ => aclCreateUser⟩

def World.run (w : World) (events : List Event) : World := events.foldl (World.step sha256) w

/-- A module whose commands go away has none that a user was granted or denied by itself. -/
def Event.Safe (w : World) : Event → Prop
  | .unregister owner => ∀ name, ∀ cmd ∈ w.table.commands, cmd.moduleName = some owner →
      aclGetUserCommandBit (w.users name) cmd.id = aclUserCanExecuteFutureCommands (w.users name)
  | _ => True

def SafeRun (w : World) : List Event → Prop
  | [] => True
  | e :: events => e.Safe w ∧ SafeRun (w.step sha256 e) events

end Registration

section Invariant

variable {sha256 : Bytes → Digest} {t : Commands} {w : World}

theorem prefix_registerName (ids : List Bytes) (name : Bytes) : ids <+: registerName ids name := by
  rw [registerName]
  split_ifs
  · exact prefix_refl _
  · exact prefix_append _ _

theorem ids_createCommand (t : Commands) (owner name : Bytes) (firstkey lastkey keystep : Int) :
    t.ids <+: (createCommand t owner name firstkey lastkey keystep).ids := by
  rw [createCommand]
  split_ifs
  · exact prefix_refl _
  · exact prefix_registerName t.ids name

theorem mem_registerName (ids : List Bytes) (name : Bytes) :
    lowerName name ∈ registerName ids name := by
  rw [registerName]
  split_ifs with hmem
  · exact hmem
  · exact mem_append_right _ (mem_singleton_self _)

theorem Commands.Valid.createCommand (ht : t.Valid) {owner name : Bytes}
    {firstkey lastkey keystep : Int}
    (hroom : (createCommand t owner name firstkey lastkey keystep).ids.length <
      userCommandBitsCount) :
    (createCommand t owner name firstkey lastkey keystep).Valid := by
  refine ⟨?_, hroom⟩
  clear hroom
  rw [Acl.createCommand]
  split_ifs with hbusy
  · exact ht.known
  · dsimp only
    rw [forall_mem_append]
    constructor
    · intro cmd hcmd
      obtain ⟨hmem, hid⟩ := ht.known cmd hcmd
      obtain ⟨more, hids⟩ := prefix_registerName t.ids name
      rw [← hids, hid, aclGetCommandID, aclGetCommandID, idxOf_append_of_mem hmem]
      exact ⟨mem_append_left _ hmem, rfl⟩
    · rw [forall_mem_singleton]
      refine ⟨mem_registerName t.ids name, ?_⟩
      rw [registerName]
      split_ifs with hmem
      · rfl
      · rw [aclGetCommandID, aclGetCommandID, idxOf_append_of_notMem hmem, idxOf_of_notMem hmem,
          idxOf_cons_self]
        rfl

theorem Commands.Valid.unregister (ht : t.Valid) (owner : Bytes) :
    (moduleUnregisterCommands t owner).Valid :=
  ⟨fun cmd hcmd => ht.known cmd (mem_of_mem_filter hcmd), ht.room⟩

/-- No user has a bit of its own for a command that is not there. -/
structure World.Inv (w : World) : Prop where
  valid : w.table.Valid
  uniform : ∀ name, Uniform w.table (w.users name)

theorem Uniform.createCommand {u : User} (h : Uniform t u) (owner name : Bytes)
    (firstkey lastkey keystep : Int) :
    Uniform (createCommand t owner name firstkey lastkey keystep) u := by
  intro i hi hnone
  apply h i hi
  intro cmd hcmd
  apply hnone
  rw [Acl.createCommand]
  split_ifs
  · exact hcmd
  · exact mem_append_left _ hcmd

theorem Uniform.unregister {u : User} {owner : Bytes} (h : Uniform t u)
    (hsafe : ∀ cmd ∈ t.commands, cmd.moduleName = some owner →
      aclGetUserCommandBit u cmd.id = aclUserCanExecuteFutureCommands u) :
    Uniform (moduleUnregisterCommands t owner) u := by
  intro i hi hnone
  by_cases hcmd : ∃ cmd ∈ t.commands, cmd.id = i
  · obtain ⟨cmd, hcmd, rfl⟩ := hcmd
    apply hsafe cmd hcmd
    by_contra hother
    exact hnone cmd (mem_filter.mpr ⟨hcmd, by simpa using hother⟩) rfl
  · exact h i hi fun cmd hmem hid => hcmd ⟨cmd, hmem, hid⟩

theorem World.Inv.step (h : w.Inv) {e : Event} (hsafe : e.Safe w)
    (hroom : (w.step sha256 e).table.ids.length < userCommandBitsCount) : (w.step sha256 e).Inv := by
  cases e with
  | setUser name op =>
    refine ⟨h.valid, ?_⟩
    intro other
    change Uniform w.table (update w.users name _ other)
    by_cases hother : other = name
    · rw [hother, update_self]
      exact (h.uniform name).changes h.valid (Changes.afterRule h.valid _ op)
    · rw [update_of_ne hother]
      exact h.uniform other
  | createCommand owner name firstkey lastkey keystep =>
    exact ⟨h.valid.createCommand hroom, fun user => (h.uniform user).createCommand _ _ _ _ _⟩
  | unregister owner =>
    exact ⟨h.valid.unregister owner, fun user => (h.uniform user).unregister (hsafe user)⟩

theorem ids_step (w : World) (e : Event) : w.table.ids <+: (w.step sha256 e).table.ids := by
  cases e with
  | setUser name op => exact prefix_refl _
  | createCommand owner name firstkey lastkey keystep => exact ids_createCommand _ _ _ _ _ _
  | unregister owner => exact prefix_refl _

theorem ids_run (sha256 : Bytes → Digest) (w : World) (events : List Event) :
    w.table.ids <+: (w.run sha256 events).table.ids := by
  induction events generalizing w with
  | nil => exact prefix_refl _
  | cons e events ih => exact (ids_step w e).trans (ih (w.step sha256 e))

theorem World.Inv.run (h : w.Inv) {events : List Event} (hsafe : SafeRun sha256 w events)
    (hroom : (w.run sha256 events).table.ids.length < userCommandBitsCount) :
    (w.run sha256 events).Inv := by
  induction events generalizing w with
  | nil => exact h
  | cons e events ih =>
    have hstep := (ids_run sha256 (w.step sha256 e) events).length_le
    exact ih (h.step hsafe.1 (lt_of_le_of_lt hstep hroom)) hsafe.2 hroom

theorem World.Inv.initial (table : CommandTable) : (World.initial table).Inv :=
  ⟨table.valid, fun _ => uniform_create _⟩

end Invariant

section Panic

/-- A description does not panic as long as no module takes away a command that some user
was granted or denied by itself. -/
theorem description_survives_modules (sha256 : Bytes → Digest) (table : CommandTable)
    (events : List Event) (hsafe : SafeRun sha256 (World.initial table) events)
    (hroom : ((World.initial table).run sha256 events).table.ids.length < userCommandBitsCount)
    (name : Bytes) :
    (aclDescribeUserCommandRules sha256 ((World.initial table).run sha256 events).table
      (((World.initial table).run sha256 events).users name)).isSome = true := by
  have hinv := (World.Inv.initial table).run hsafe hroom
  rw [aclDescribeUserCommandRules, if_pos ((draft_bitmap sha256 hinv.valid _).mpr (hinv.uniform name))]
  rfl

/-- A server with the one command `GET`, and a hash function that does not matter. -/
def smallTable : CommandTable where
  commands := [⟨word "get", 2, [.read, .string, .fast], none, 1, 1, 1, none, 0⟩]
  ids := [word "get"]
  valid := ⟨by decide +kernel, by decide⟩
  names := by decide +kernel
  distinct := by decide

def zeroDigest : Bytes → Digest := fun _ => ⟨List.replicate 32 0, rfl⟩

/-- A module comes and goes, and between the two a user gets a rule. -/
def moduleVisit (op : Bytes) : List Event :=
  [.createCommand (word "m") (word "m.x") 0 0 0, .setUser (word "alice") op, .unregister (word "m")]

/-- A user was granted a command of the server while the module was there. -/
theorem description_survives_modules_granted :
    aclGetUserCommandBit (((World.initial smallTable).run zeroDigest
        (moduleVisit (word "+get"))).users (word "alice")) 0 = true ∧
      (aclDescribeUserCommandRules zeroDigest
        ((World.initial smallTable).run zeroDigest (moduleVisit (word "+get"))).table
        (((World.initial smallTable).run zeroDigest (moduleVisit (word "+get"))).users
          (word "alice"))).isSome = true := by
  have hsafe : SafeRun zeroDigest (World.initial smallTable) (moduleVisit (word "+get")) := by
    refine ⟨trivial, trivial, ?_, trivial⟩
    intro name
    by_cases hname : name = word "alice"
    · rw [hname]
      decide +kernel
    · intro cmd _ _
      simp only [World.step, World.initial, Function.update_of_ne hname]
      simp [aclGetUserCommandBit, aclUserCanExecuteFutureCommands, aclCreateUser]
  exact ⟨by decide +kernel,
    description_survives_modules zeroDigest smallTable _ hsafe (by decide +kernel) _⟩

/-- A user was granted a command of a module that is gone. -/
theorem granted_command_unregistered :
    ((World.initial smallTable).run zeroDigest (moduleVisit (word "+m.x"))).table.ids.length <
        userCommandBitsCount ∧
      aclDescribeUserCommandRules zeroDigest
        ((World.initial smallTable).run zeroDigest (moduleVisit (word "+m.x"))).table
        (((World.initial smallTable).run zeroDigest (moduleVisit (word "+m.x"))).users
          (word "alice")) = none := by
  decide +kernel

end Panic

end Redis.Acl
