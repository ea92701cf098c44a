import Redis.Tracking.Messages

/-! Which changes of a key a client hears of. A client is told of a change by somebody else,
unless it uses `NOLOOP` and its own change of the same key is in the way. -/
namespace Redis.Tracking

open ByteBuffer Option Function

variable {c : ClientId} {key : Bytes}

inductive Event where
  | enable (c : ClientId) (bcast noloop : Bool) (prefixes : List Bytes)
  | read (c : ClientId) (keys : List Bytes)
  | change (author : Option ClientId) (key : Bytes)
  | evict (key : Bytes)
  | broadcast
  deriving DecidableEq

def Event.apply (s : State) : Event → State
  | .enable c bcast noloop prefixes => enableTracking s c bcast noloop prefixes
  | .read c keys => rememberRead s c keys
  | .change author key => trackingInvalidateKey s author key
  | .evict key => trackingInvalidateKeyRaw s none key false
  | .broadcast => trackingBroadcastInvalidationMessages s

/-- A client with tracking in the default mode reads a key. -/
def Event.Reads (s : State) (c : ClientId) (key : Bytes) : Event → Prop
  | .read c' keys => c' = c ∧ key ∈ keys ∧ (s.clients c).tracking = true ∧
      (s.clients c).bcast = false
  | _ => False

instance (s : State) (c : ClientId) (key : Bytes) (e : Event) : Decidable (e.Reads s c key) := by
  cases e <;> unfold Event.Reads <;> infer_instance

/-- A state together with what happened before it: whether a client has read a key since it
was last sent an invalidation of it, and whether it has changed the key itself since it last
read it. -/
structure World where
  state : State
  cached : ClientId → Bytes → Bool
  changed : ClientId → Bytes → Bool

def World.step (w : World) (e : Event) : World where
  state := e.apply w.state
  cached c key :=
    if Names (w.state.newMessages (e.apply w.state)) c key then false
    else decide (e.Reads w.state c key) || w.cached c key
  changed c key :=
    if e.Reads w.state c key then false
    else decide (e = .change (some c) key) || w.changed c key

/-- Nobody has enabled tracking yet. -/
def World.start (resp3 : ClientId → Bool) : World where
  state :=
    { clients := fun c => ⟨false, false, false, resp3 c, []⟩
      allocated := false
      trackingTable := fun _ => none
      prefixTable := SortedMap.empty
      trackingClients := 0
      sent := [] }
  cached _ _ := false
  changed _ _ := false

/-- A client enables tracking once. -/
def Event.Once (s : State) : Event → Prop
  | .enable c _ _ _ => (s.clients c).tracking = false
  | _ => True

/-- One world follows another by some events of a kind. -/
inductive Follows (kind : Event → Prop) (w : World) : World → Prop
  | refl : Follows kind w w
  | step {w' : World} {e : Event} (before : Follows kind w w') (ok : kind e)
      (once : e.Once w'.state) : Follows kind w (w'.step e)

/-- The first to change a key in the current cycle, as it is remembered for a prefix. -/
def State.author (s : State) (p key : Bytes) : Option (Option ClientId) :=
  (s.prefixTable.find p).bind fun bs => bs.keys.find key

/-- The prefixes of a client are those that have it in their lists. -/
def State.Listed (s : State) : Prop :=
  ∀ c p, p ∈ (s.clients c).prefixes ↔ ∃ bs, s.prefixTable.find p = some bs ∧ c ∈ bs.clients

/-- A key is only remembered for the prefixes it has. -/
def State.Matching (s : State) : Prop := ∀ p key, s.author p key ≠ none → p <+: key

/-- What the registration of a client for some prefixes leaves as it is. -/
structure Registers (c : ClientId) (s s' : State) : Prop where
  flags : (s'.clients c).tracking = (s.clients c).tracking ∧
    (s'.clients c).bcast = (s.clients c).bcast ∧ (s'.clients c).resp3 = (s.clients c).resp3
  others : ∀ id, id ≠ c → s'.clients id = s.clients id
  table : s'.trackingTable = s.trackingTable
  sent : s'.sent = s.sent
  allocated : s'.allocated = s.allocated
  counted : s'.trackingClients = s.trackingClients
  listed : s.Listed → s'.Listed
  author : ∀ p key, s'.author p key = s.author p key

section Registration

variable {c : ClientId} {s s' s'' : State}

theorem Registers.refl (c : ClientId) (s : State) : Registers c s s :=
  ⟨⟨rfl, rfl, rfl⟩, fun _ _ => rfl, rfl, rfl, rfl, rfl, id, fun _ _ => rfl⟩

theorem Registers.trans (h : Registers c s s') (h' : Registers c s' s'') : Registers c s s'' where
  flags := ⟨h'.flags.1.trans h.flags.1, h'.flags.2.1.trans h.flags.2.1,
    h'.flags.2.2.trans h.flags.2.2⟩
  others id hid := (h'.others id hid).trans (h.others id hid)
  table := h'.table.trans h.table
  sent := h'.sent.trans h.sent
  allocated := h'.allocated.trans h.allocated
  counted := h'.counted.trans h.counted
  listed hlisted := h'.listed (h.listed hlisted)
  author p key := (h'.author p key).trans (h.author p key)

theorem enableBcast_registers (s : State) (c : ClientId) (p : Bytes) :
    Registers c s (enableBcastTrackingForPrefix s c p) := by
  unfold enableBcastTrackingForPrefix
  dsimp only
  split_ifs with hmem
  · exact Registers.refl c s
  · refine ⟨by simp, fun id hid => by simp [hid], rfl, rfl, rfl, rfl, ?_, ?_⟩
    · intro hlisted id q
      simp only [SortedMap.find_insert, update_apply]
      rcases eq_or_ne q p with rfl | hq
      · rcases eq_or_ne id c with rfl | hid
        · simp
        · rw [if_neg hid, hlisted id q]
          cases hfind : s.prefixTable.find q with
          | none | some bs => simp [hid]
      · rw [if_neg hq, ← hlisted]
        rcases eq_or_ne id c with rfl | hid
        · simp [hq]
        · rw [if_neg hid]
    · intro q key
      simp only [State.author, SortedMap.find_insert]
      rcases eq_or_ne q p with rfl | hq
      · rw [if_pos rfl]
        cases hfind : s.prefixTable.find q with
        | none | some bs => rfl
      · rw [if_neg hq]

theorem enableAll_registers (s : State) (c : ClientId) (prefixes : List Bytes) :
    Registers c s (prefixes.foldl (enableBcastTrackingForPrefix · c) s) := by
  induction prefixes generalizing s with
  | nil => exact Registers.refl c s
  | cons p prefixes ih => exact (enableBcast_registers s c p).trans (ih _)

theorem enableTracking_registers (s : State) (c : ClientId) (bcast noloop : Bool)
    (prefixes : List Bytes) :
    Registers c (setTracking s c bcast noloop) (enableTracking s c bcast noloop prefixes) := by
  unfold enableTracking
  split_ifs
  · exact enableAll_registers _ c _
  · exact enableAll_registers _ c _
  · exact Registers.refl c _

end Registration

/-- What holds of the flags of the clients. -/
structure State.Flagged (s : State) : Prop where
  unallocated : s.allocated = false → ∀ c, (s.clients c).tracking = false
  counted : ∀ c, (s.clients c).tracking = true → 0 < s.trackingClients
  mode : ∀ c, (s.clients c).bcast = true → (s.clients c).tracking = true
  prefixed : ∀ c p, p ∈ (s.clients c).prefixes → (s.clients c).bcast = true

/-- What holds in every world that is reached. -/
structure World.Inv (w : World) : Prop extends w.state.Flagged where
  untracked : ∀ c, (w.state.clients c).tracking = false → ∀ key,
    c ∉ w.state.tracked key ∧ w.cached c key = false
  table : ∀ c key, (w.state.clients c).tracking = true → (w.state.clients c).bcast = false →
    (w.state.clients c).resp3 = true →
      (c ∈ w.state.tracked key ↔ w.cached c key = true ∧
        ¬ ((w.state.clients c).noloop = true ∧ w.changed c key = true))
  listed : w.state.Listed
  matching : w.state.Matching

section Steps

variable {w : World}

variable (h : w.Inv)
include h

theorem World.Inv.allocated (hc : (w.state.clients c).tracking = true) :
    w.state.allocated = true := by
  by_contra hnot
  rw [h.unallocated (Bool.eq_false_of_not_eq_true hnot) c] at hc
  cases hc

/-- An event that changes nothing. -/
theorem World.Inv.still {e : Event} (hsame : e.apply w.state = w.state)
    (hreads : ∀ c k, ¬ e.Reads w.state c k)
    (hchange : ∀ c k, (w.state.clients c).tracking = true → e ≠ .change (some c) k) :
    (w.step e).Inv := by
  have hquiet : w.state.newMessages w.state = [] := by simp [State.newMessages]
  have hcached : ∀ c k, (w.step e).cached c k = w.cached c k := by
    intro c k
    simp [World.step, hsame, hquiet, hreads, Names]
  have hstate : (w.step e).state = w.state := hsame
  refine ⟨?_, ?_, ?_, ?_, ?_⟩ <;> rw [hstate]
  · exact h.toFlagged
  · intro c hc k
    rw [hcached]
    exact h.untracked c hc k
  · intro c k hc hbcast hresp
    have hchanged : (w.step e).changed c k = w.changed c k := by
      simp [World.step, hreads, hchange c k hc]
    rw [hcached, hchanged]
    exact h.table c k hc hbcast hresp
  · exact h.listed
  · exact h.matching

omit h in
/-- What is remembered for a prefix after a change: the first author stays. -/
theorem author_rememberedIn (s : State) (author : Option ClientId) (key p k : Bytes) :
    ((rememberedIn s.prefixTable author key).find p).bind (fun bs => bs.keys.find k) =
      if p <+: key ∧ k = key ∧ s.prefixTable.find p ≠ none then
        some ((s.author p key).getD author)
      else s.author p k := by
  rw [find_rememberedIn, State.author, State.author]
  cases hfind : s.prefixTable.find p with
  | none => simp
  | some bs =>
    simp only [map_some, bind_some, ne_eq, reduceCtorEq, not_false_eq_true,
      and_true]
    by_cases hp : p <+: key
    · rw [if_pos hp, BcastState.rememberKey]
      cases hold : bs.keys.find key with
      | none =>
        simp only [isSome_none, Bool.false_eq_true, if_false, SortedMap.find_insert, hp,
          true_and, getD_none]
      | some a =>
        simp only [isSome_some, if_true, hp, true_and, getD_some]
        split_ifs with hk
        · rw [hk, hold]
        · rfl
    · simp [hp]

omit h in
theorem rememberKey_clients (bs : BcastState) (author : Option ClientId) (key : Bytes) :
    (bs.rememberKey author key).clients = bs.clients := by
  rw [BcastState.rememberKey]
  split_ifs <;> rfl

/-- The invalidation of a key, by a change or an eviction. -/
theorem World.Inv.invalidate {e : Event} {author : Option ClientId} {bcast : Bool}
    (he : e.apply w.state = trackingInvalidateKeyRaw w.state author key bcast)
    (hreads : ∀ c k, ¬ e.Reads w.state c k)
    (hchange : ∀ c k, e = .change (some c) k ↔ author = some c ∧ k = key) : (w.step e).Inv := by
  cases halloc : w.state.allocated with
  | false =>
    have hnone := h.unallocated halloc
    have hsame : e.apply w.state = w.state := by
      rw [he, trackingInvalidateKeyRaw, halloc]
      rfl
    refine h.still hsame hreads fun c k hc => ?_
    rw [hnone c] at hc
    cases hc
  | true =>
    have heq := he.trans (trackingInvalidateKeyRaw_eq w.state halloc author key bcast)
    have hnew : w.state.newMessages (e.apply w.state) =
        (w.state.tracked key).flatMap (invalidation author key w.state.clients) :=
      newMessages_append _ (by rw [heq])
    have hcached : ∀ c k, (w.step e).cached c k = true ↔ w.cached c k = true ∧
        ¬ (k = key ∧ c ∈ w.state.tracked key ∧ (w.state.clients c).tracking = true ∧
          (w.state.clients c).bcast = false ∧ (w.state.clients c).resp3 = true ∧
          ¬ ((w.state.clients c).noloop = true ∧ author = some c)) := by
      intro c k
      simp only [World.step, hnew, names_invalidations, hreads, decide_false, Bool.false_or]
      split_ifs with hsent
      · simp only [false_iff]
        exact fun hand => hand.2 hsent
      · exact ⟨fun hc => ⟨hc, hsent⟩, And.left⟩
    have hchanged : ∀ c k, (w.step e).changed c k = true ↔
        (author = some c ∧ k = key) ∨ w.changed c k = true := by
      intro c k
      simp [World.step, hreads, hchange]
    have hclients : (w.step e).state.clients = w.state.clients := by
      rw [World.step, heq]
    have htracked : ∀ k, (w.step e).state.tracked k =
        if k = key then [] else w.state.tracked k := by
      intro k
      simp only [World.step, heq, State.tracked, update_apply]
      split_ifs <;> rfl
    refine ⟨?_, ?_, ?_, ?_, ?_⟩
    · rw [World.step, heq]
      exact { h.toFlagged with }
    · intro c hc k
      rw [hclients] at hc
      obtain ⟨hmem, hold⟩ := h.untracked c hc k
      rw [htracked, ← Bool.not_eq_true, hcached, hold]
      refine ⟨?_, by simp⟩
      split_ifs
      · simp
      · exact hmem
    · intro c k htracking hbcast hresp
      rw [hclients] at htracking hbcast hresp ⊢
      have hold := h.table c k htracking hbcast hresp
      rw [htracked, hcached, hchanged]
      rcases eq_or_ne k key with rfl | hk
      · rw [if_pos rfl, hold]
        tauto
      · rw [if_neg hk, hold]
        simp [hk]
    · intro c p
      rw [hclients, h.listed c p, World.step, heq]
      cases bcast with
      | false => rfl
      | true =>
        simp only [if_true, find_rememberedIn]
        cases w.state.prefixTable.find p with
        | none => simp
        | some bs =>
          simp only [map_some, some.injEq, exists_eq_left']
          split_ifs
          · rw [rememberKey_clients]
          · rfl
    · intro p k hauthor
      rw [World.step, heq] at hauthor
      cases bcast with
      | false => exact h.matching p k hauthor
      | true =>
        rw [State.author] at hauthor
        rw [if_pos rfl, author_rememberedIn] at hauthor
        split_ifs at hauthor with hp
        · exact hp.2.1 ▸ hp.1
        · exact h.matching p k hauthor

omit h in
theorem rememberRead_spec (s : State) (c : ClientId) (keys : List Bytes) :
    (∃ table, rememberRead s c keys = { s with trackingTable := table }) ∧
      ∀ id key, id ∈ (rememberRead s c keys).tracked key ↔
        id ∈ s.tracked key ∨ (Event.read c keys).Reads s id key := by
  rw [rememberRead]
  split_ifs with hmode
  · refine ⟨trackingRememberKeys_frame s c keys, fun id key => ?_⟩
    rw [tracked_rememberKeys]
    simp only [Bool.not_eq_true'] at hmode
    constructor
    · rintro (hid | ⟨rfl, hkey⟩)
      · exact .inl hid
      · exact .inr ⟨rfl, hkey, hmode⟩
    · rintro (hid | ⟨rfl, hkey, _⟩)
      · exact .inl hid
      · exact .inr ⟨rfl, hkey⟩
  · refine ⟨⟨s.trackingTable, rfl⟩, fun id key => ?_⟩
    constructor
    · exact .inl
    · rintro (hid | ⟨rfl, _, htracking, hbcast⟩)
      · exact hid
      · exact absurd ⟨htracking, by simp [hbcast]⟩ hmode

theorem World.Inv.read (c : ClientId) (keys : List Bytes) : (w.step (.read c keys)).Inv := by
  obtain ⟨⟨table, heq⟩, htracked⟩ := rememberRead_spec w.state c keys
  have hstate : (w.step (.read c keys)).state = { w.state with trackingTable := table } := heq
  have hmem : ∀ id key, id ∈ (w.step (.read c keys)).state.tracked key ↔
      id ∈ w.state.tracked key ∨ (Event.read c keys).Reads w.state id key := htracked
  have hcached : ∀ id key, (w.step (.read c keys)).cached id key = true ↔
      (Event.read c keys).Reads w.state id key ∨ w.cached id key = true := by
    intro id key
    have hquiet : w.state.newMessages ((Event.read c keys).apply w.state) = [] :=
      newMessages_append [] (by rw [Event.apply, heq, List.append_nil])
    simp [World.step, hquiet, Names]
  have hchanged : ∀ id key, (w.step (.read c keys)).changed id key = true ↔
      ¬ (Event.read c keys).Reads w.state id key ∧ w.changed id key = true := by
    intro id key
    simp [World.step]
  have hclients : (w.step (.read c keys)).state.clients = w.state.clients := by rw [hstate]
  refine ⟨?_, ?_, ?_, ?_, ?_⟩
  · rw [hstate]
    exact { h.toFlagged with }
  · intro id hid key
    rw [hclients] at hid
    have hnot : ¬ (Event.read c keys).Reads w.state id key := by
      rintro ⟨_, _, htracking, _⟩
      rw [hid] at htracking
      cases htracking
    rw [hmem, ← Bool.not_eq_true, hcached]
    simpa [hnot] using h.untracked id hid key
  · intro id key htracking hbcast hresp
    rw [hclients] at htracking hbcast hresp ⊢
    rw [hmem, hcached, hchanged, h.table id key htracking hbcast hresp]
    tauto
  · rw [hstate]
    exact h.listed
  · rw [hstate]
    exact h.matching

theorem World.Inv.enable (bcast noloop : Bool) (prefixes : List Bytes)
    (honce : (w.state.clients c).tracking = false) :
    (w.step (.enable c bcast noloop prefixes)).Inv := by
  have hreg := enableTracking_registers w.state c bcast noloop prefixes
  have hreads : ∀ id key, ¬ (Event.enable c bcast noloop prefixes).Reads w.state id key :=
    fun _ _ => id
  have hcached : (w.step (.enable c bcast noloop prefixes)).cached = w.cached := by
    have hquiet : w.state.newMessages ((Event.enable c bcast noloop prefixes).apply w.state) = [] :=
      newMessages_append [] (by rw [List.append_nil]; exact hreg.sent)
    funext id key
    simp [World.step, hquiet, Names, hreads]
  have hchanged : (w.step (.enable c bcast noloop prefixes)).changed = w.changed := by
    funext id key
    simp [World.step, hreads]
  -- Without `BCAST` no prefix is entered.
  have hquiet : bcast = false → ((enableTracking w.state c bcast noloop prefixes).clients c).prefixes =
      (w.state.clients c).prefixes := by
    rintro rfl
    simp [enableTracking, setTracking]
  change Registers c _ (w.step (.enable c bcast noloop prefixes)).state at hreg
  change _ → ((w.step (.enable c bcast noloop prefixes)).state.clients c).prefixes = _ at hquiet
  generalize w.step (.enable c bcast noloop prefixes) = w' at *
  have hothers : ∀ id, id ≠ c → w'.state.clients id = w.state.clients id := by
    intro id hid
    rw [hreg.others id hid]
    exact update_of_ne hid _ _
  have htracking : (w'.state.clients c).tracking = true := by
    rw [hreg.flags.1]
    simp [setTracking]
  have htracked : ∀ key, w'.state.tracked key = w.state.tracked key := by
    intro key
    rw [State.tracked, hreg.table]
    rfl
  refine ⟨⟨?_, ?_, ?_, ?_⟩, ?_, ?_, ?_, ?_⟩
  · intro halloc
    rw [hreg.allocated] at halloc
    cases halloc
  · intro id _
    rw [hreg.counted]
    simp [setTracking, honce]
  · intro id hid
    by_cases hc : id = c
    · exact hc ▸ htracking
    · rw [hothers id hc] at hid ⊢
      exact h.mode id hid
  · intro id p hp
    rcases eq_or_ne id c with rfl | hc
    · cases bcast with
      | true =>
        rw [hreg.flags.2.1]
        simp [setTracking]
      | false =>
        -- There was no prefix before either.
        have hmode := h.mode id (h.prefixed id p (hquiet rfl ▸ hp))
        rw [honce] at hmode
        cases hmode
    · rw [hothers id hc] at hp ⊢
      exact h.prefixed id p hp
  · intro id hid key
    have hc : id ≠ c := by
      rintro rfl
      rw [htracking] at hid
      cases hid
    rw [hothers id hc] at hid
    rw [htracked, hcached]
    exact h.untracked id hid key
  · intro id key hid hbcast hresp
    rw [htracked, hcached, hchanged]
    rcases eq_or_ne id c with rfl | hc
    · obtain ⟨hmem, hnot⟩ := h.untracked id honce key
      simp [hmem, hnot]
    · rw [hothers id hc] at hid hbcast hresp ⊢
      exact h.table id key hid hbcast hresp
  · refine hreg.listed fun id p => ?_
    rw [setTracking, ← h.listed id p]
    rcases eq_or_ne id c with rfl | hc
    · simp
    · simp [hc]
  · intro p key hauthor
    rw [hreg.author] at hauthor
    exact h.matching p key hauthor

/-- A broadcast only names keys to the clients that have prefixes. -/
theorem World.Inv.broadcast_names {k : Bytes} :
    Names (w.state.prefixTable.entries.flatMap (prefixReplies w.state.clients)) c k ↔
      (w.state.clients c).resp3 = true ∧ ∃ p ∈ (w.state.clients c).prefixes, ∃ a,
        w.state.author p k = some a ∧ ((w.state.clients c).noloop = true → a ≠ some c) := by
  rw [names_broadcast]
  refine and_congr_right fun _ => ?_
  constructor
  · rintro ⟨p, bs, a, hfind, hc, ha, hloop⟩
    exact ⟨p, (h.listed c p).mpr ⟨bs, hfind, hc⟩, a, by rw [State.author, hfind]; exact ha, hloop⟩
  · rintro ⟨p, hp, a, ha, hloop⟩
    obtain ⟨bs, hfind, hc⟩ := (h.listed c p).mp hp
    rw [State.author, hfind] at ha
    exact ⟨p, bs, a, hfind, hc, ha, hloop⟩

theorem World.Inv.broadcast : (w.step .broadcast).Inv := by
  by_cases hidle : w.state.allocated = false ∨ w.state.trackingClients = 0
  · have hsame : Event.broadcast.apply w.state = w.state := by
      rw [Event.apply, trackingBroadcastInvalidationMessages, if_pos (by simpa using hidle)]
    exact h.still hsame (fun _ _ => id) (fun _ _ _ => by simp)
  · rw [not_or, Bool.not_eq_false] at hidle
    have heq : (w.step .broadcast).state = _ :=
      trackingBroadcast_eq w.state hidle.1 (pos_of_ne_zero hidle.2)
    have hreads : ∀ c k, ¬ Event.broadcast.Reads w.state c k := fun _ _ => id
    have hcached : ∀ c k, (w.step .broadcast).cached c k = true ↔ w.cached c k = true ∧
        ¬ Names (w.state.prefixTable.entries.flatMap (prefixReplies w.state.clients)) c k := by
      intro c k
      have hnew : w.state.newMessages (Event.broadcast.apply w.state) =
          w.state.prefixTable.entries.flatMap (prefixReplies w.state.clients) :=
        newMessages_append _ (congrArg State.sent heq)
      simp [World.step, hnew, hreads, and_comm]
    have hclients : (w.step .broadcast).state.clients = w.state.clients := by rw [heq]
    have htracked : (w.step .broadcast).state.tracked = w.state.tracked := by
      funext key
      rw [heq]
      rfl
    refine ⟨?_, ?_, ?_, ?_, ?_⟩
    · rw [heq]
      exact { h.toFlagged with }
    · intro c hc k
      rw [hclients] at hc
      obtain ⟨hmem, hold⟩ := h.untracked c hc k
      rw [htracked, ← Bool.not_eq_true, hcached, hold]
      exact ⟨hmem, by simp⟩
    · intro c k htracking hbcast hresp
      rw [hclients] at htracking hbcast hresp ⊢
      have hunnamed :
          ¬ Names (w.state.prefixTable.entries.flatMap (prefixReplies w.state.clients)) c k := by
        rw [h.broadcast_names]
        rintro ⟨_, p, hp, _⟩
        rw [h.prefixed c p hp] at hbcast
        cases hbcast
      have hchanged : (w.step .broadcast).changed c k = w.changed c k := by
        simp [World.step, hreads]
      rw [htracked, hcached, hchanged, h.table c k htracking hbcast hresp]
      simp [hunnamed]
    · intro c p
      rw [hclients, h.listed c p, heq]
      simp only [SortedMap.find_mapValues]
      cases w.state.prefixTable.find p <;> simp
    · intro p k hauthor
      rw [heq] at hauthor
      simp only [State.author, SortedMap.find_mapValues] at hauthor
      cases hfind : w.state.prefixTable.find p <;> simp [hfind] at hauthor

theorem World.Inv.step (e : Event) (honce : e.Once w.state) : (w.step e).Inv := by
  cases e with
  | enable c bcast noloop prefixes => exact h.enable bcast noloop prefixes honce
  | read c keys => exact h.read c keys
  | change author key =>
    refine h.invalidate rfl (fun _ _ => id) fun c k => ?_
    simp [and_comm, eq_comm]
  | evict key => exact h.invalidate rfl (fun _ _ => id) fun c k => by simp
  | broadcast => exact h.broadcast

end Steps

section Runs

variable {w w' : World} {kind : Event → Prop}

theorem Follows.inv (hrun : Follows kind w w') (h : w.Inv) : w'.Inv := by
  induction hrun with
  | refl => exact h
  | step before _ once ih => exact ih.step _ once

/-- Nobody touches the flags and prefixes of a client that has enabled tracking. -/
theorem clients_apply (s : State) (e : Event) (honce : e.Once s)
    (hc : (s.clients c).tracking = true) : (e.apply s).clients c = s.clients c := by
  have hraw : ∀ author key bcast,
      (trackingInvalidateKeyRaw s author key bcast).clients = s.clients := by
    intro author key bcast
    cases halloc : s.allocated with
    | false => simp [trackingInvalidateKeyRaw, halloc]
    | true => rw [trackingInvalidateKeyRaw_eq s halloc]
  cases e with
  | enable id bcast noloop prefixes =>
    have hne : c ≠ id := by
      rintro rfl
      rw [Event.Once, hc] at honce
      cases honce
    rw [Event.apply, (enableTracking_registers s id bcast noloop prefixes).others c hne]
    exact update_of_ne hne _ _
  | read id keys =>
    obtain ⟨⟨table, heq⟩, _⟩ := rememberRead_spec s id keys
    rw [Event.apply, heq]
  | change author key => exact congrFun (hraw author key true) c
  | evict key => exact congrFun (hraw none key false) c
  | broadcast =>
    rw [Event.apply]
    by_cases hidle : s.allocated = false ∨ s.trackingClients = 0
    · rw [trackingBroadcastInvalidationMessages, if_pos (by simpa using hidle)]
    · rw [not_or, Bool.not_eq_false] at hidle
      rw [trackingBroadcast_eq s hidle.1 (pos_of_ne_zero hidle.2)]

/-- The first author of a change is remembered until the next broadcast. -/
theorem author_apply (s : State) (e : Event) (he : e ≠ .broadcast) {p key : Bytes}
    {a : Option ClientId} (ha : s.author p key = some a) : (e.apply s).author p key = some a := by
  have hraw : ∀ author k bcast,
      (trackingInvalidateKeyRaw s author k bcast).author p key = some a := by
    intro author k bcast
    cases halloc : s.allocated with
    | false =>
      rw [trackingInvalidateKeyRaw, halloc]
      exact ha
    | true =>
      rw [trackingInvalidateKeyRaw_eq s halloc, State.author]
      cases bcast with
      | false => exact ha
      | true =>
        rw [if_pos rfl, author_rememberedIn]
        split_ifs with hp
        · rw [← hp.2.1, ha, getD_some]
        · exact ha
  cases e with
  | enable id bcast noloop prefixes =>
    rw [Event.apply, (enableTracking_registers s id bcast noloop prefixes).author]
    exact ha
  | read id keys =>
    obtain ⟨⟨table, heq⟩, _⟩ := rememberRead_spec s id keys
    rw [Event.apply, heq]
    exact ha
  | change author k => exact hraw author k true
  | evict k => exact hraw none k false
  | broadcast => exact absurd rfl he

theorem Follows.clients (hrun : Follows kind w w') (hc : (w.state.clients c).tracking = true) :
    w'.state.clients c = w.state.clients c := by
  induction hrun with
  | refl => rfl
  | step before _ once ih =>
    rw [← ih] at hc ⊢
    exact clients_apply _ _ once hc

theorem Follows.author (hrun : Follows (· ≠ .broadcast) w w') {p key : Bytes}
    {a : Option ClientId} (ha : w.state.author p key = some a) :
    w'.state.author p key = some a := by
  induction hrun with
  | refl => exact ha
  | step before hkind _ ih => exact author_apply _ _ hkind ih

end Runs

/-- The world after some events. -/
def World.run (w : World) (events : List Event) : World := events.foldl World.step w

end Redis.Tracking
