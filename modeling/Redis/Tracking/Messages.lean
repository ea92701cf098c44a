import Redis.Tracking.Basic

/-! The invalidation messages that are sent when a key changes and when the changes of a cycle
are broadcast: who is sent one, and which keys it names. -/
namespace Redis.Tracking

open ByteBuffer List Function

variable {id : ClientId} {keys : SortedMap Bytes (Option ClientId)} {α : Type}

/-- Some message names the key to the client. -/
def Names (messages : List (ClientId × List Bytes)) (c : ClientId) (key : Bytes) : Prop :=
  ∃ m ∈ messages, m.1 = c ∧ key ∈ m.2

instance (messages : List (ClientId × List Bytes)) (c : ClientId) (key : Bytes) :
    Decidable (Names messages c key) := inferInstanceAs (Decidable (∃ m ∈ messages, _))

/-- The messages that were sent on the way from one state to another. -/
def State.newMessages (s s' : State) : List (ClientId × List Bytes) := s'.sent.drop s.sent.length

/-- The clients that may have a key. -/
def State.tracked (s : State) (key : Bytes) : List ClientId := (s.trackingTable key).getD []

section Sending

/-- A function that only sends, and what it sends depends only on the clients. -/
def Sends {α : Type} (f : State → α → State)
    (g : (ClientId → Client) → α → List (ClientId × List Bytes)) : Prop :=
  ∀ s a, f s a = { s with sent := s.sent ++ g s.clients a }

theorem Sends.foldl {f : State → α → State}
    {g : (ClientId → Client) → α → List (ClientId × List Bytes)} (h : Sends f g) (s : State)
    (l : List α) : l.foldl f s = { s with sent := s.sent ++ l.flatMap (g s.clients) } := by
  induction l generalizing s with
  | nil => simp
  | cons a l ih =>
    rw [foldl_cons, h, ih]
    simp

/-- The message to a client, if it can be sent one. -/
def messageTo (clients : ClientId → Client) (c : ClientId) (keys : List Bytes) :
    List (ClientId × List Bytes) :=
  if (clients c).resp3 then [(c, keys)] else []

theorem sendTrackingMessage_eq (s : State) (c : ClientId) (keys : List Bytes) :
    sendTrackingMessage s c keys = { s with sent := s.sent ++ messageTo s.clients c keys } := by
  rw [sendTrackingMessage, messageTo]
  split_ifs
  · rfl
  · simp

/-- The invalidation that a client is sent when a key changes, if it may have the key. -/
def invalidation (author : Option ClientId) (key : Bytes) (clients : ClientId → Client)
    (id : ClientId) : List (ClientId × List Bytes) :=
  if !(clients id).tracking ∨ (clients id).bcast then []
  else if (clients id).noloop ∧ author = some id then []
  else messageTo clients id [key]

theorem sends_invalidateFor (author : Option ClientId) (key : Bytes) :
    Sends (invalidateFor author key) (invalidation author key) := by
  intro s id
  unfold invalidateFor invalidation
  dsimp only
  split_ifs
  · simp
  · simp
  · exact sendTrackingMessage_eq s id [key]

/-- The reply about the changed keys of a prefix. -/
def broadcastReply (keys : SortedMap Bytes (Option ClientId)) (clients : ClientId → Client)
    (c : ClientId) : List (ClientId × List Bytes) :=
  match trackingBuildBroadcastReply (if (clients c).noloop then some c else none) keys with
  | none => []
  | some names => messageTo clients c names

theorem sends_broadcastTo (keys : SortedMap Bytes (Option ClientId)) :
    Sends (broadcastTo keys) (broadcastReply keys) := by
  intro s c
  unfold broadcastTo broadcastReply
  split_ifs with hnoloop
  · cases trackingBuildBroadcastReply (some c) keys with
    | none => simp
    | some names => exact sendTrackingMessage_eq s c names
  · cases trackingBuildBroadcastReply none keys with
    | none => simp
    | some names => exact sendTrackingMessage_eq s c names

/-- The replies to all clients of a prefix. -/
def prefixReplies (clients : ClientId → Client) (e : Bytes × BcastState) :
    List (ClientId × List Bytes) :=
  if e.2.keys.entries = [] then [] else e.2.clients.flatMap (broadcastReply e.2.keys clients)

theorem sends_broadcastPrefix : Sends broadcastPrefix prefixReplies := by
  intro s e
  unfold broadcastPrefix prefixReplies
  split_ifs
  · simp
  · exact (sends_broadcastTo e.2.keys).foldl s e.2.clients

variable {clients : ClientId → Client} {c : ClientId} {k : Bytes}

theorem names_messageTo {keys : List Bytes} :
    Names (messageTo clients id keys) c k ↔ id = c ∧ (clients c).resp3 = true ∧ k ∈ keys := by
  rw [messageTo]
  split_ifs with hresp
  · simp only [Names, mem_singleton, exists_eq_left]
    constructor
    · rintro ⟨rfl, hk⟩
      exact ⟨rfl, hresp, hk⟩
    · rintro ⟨rfl, _, hk⟩
      exact ⟨rfl, hk⟩
  · simp only [Names, not_mem_nil, false_and, exists_false, false_iff]
    rintro ⟨rfl, hresp', _⟩
    exact hresp hresp'

theorem names_flatMap {l : List α} {g : α → List (ClientId × List Bytes)} :
    Names (l.flatMap g) c k ↔ ∃ a ∈ l, Names (g a) c k := by
  simp only [Names, mem_flatMap]
  constructor
  · rintro ⟨m, ⟨a, ha, hm⟩, hname⟩
    exact ⟨a, ha, m, hm, hname⟩
  · rintro ⟨a, ha, m, hm, hname⟩
    exact ⟨m, ⟨a, ha, hm⟩, hname⟩

theorem names_invalidations {author : Option ClientId} {key : Bytes} {ids : List ClientId} :
    Names (ids.flatMap (invalidation author key clients)) c k ↔
      k = key ∧ c ∈ ids ∧ (clients c).tracking = true ∧ (clients c).bcast = false ∧
        (clients c).resp3 = true ∧ ¬ ((clients c).noloop = true ∧ author = some c) := by
  have hone : ∀ id, Names (invalidation author key clients id) c k ↔
      id = c ∧ k = key ∧ (clients c).tracking = true ∧ (clients c).bcast = false ∧
        (clients c).resp3 = true ∧ ¬ ((clients c).noloop = true ∧ author = some c) := by
    intro id
    rw [invalidation]
    split_ifs with hmode hloop
    · simp only [Names, not_mem_nil, false_and, exists_false, false_iff]
      rintro ⟨rfl, _, htracking, hbcast, _⟩
      simp [htracking, hbcast] at hmode
    · simp only [Names, not_mem_nil, false_and, exists_false, false_iff]
      rintro ⟨rfl, _, _, _, _, hnot⟩
      exact hnot hloop
    · rw [names_messageTo, mem_singleton]
      constructor
      · rintro ⟨rfl, hresp, hk⟩
        simp only [not_or, Bool.not_eq_true', Bool.not_eq_false, Bool.not_eq_true] at hmode
        exact ⟨rfl, hk, hmode.1, hmode.2, hresp, hloop⟩
      · rintro ⟨rfl, hk, _, _, hresp, _⟩
        exact ⟨rfl, hresp, hk⟩
  simp only [names_flatMap, hone]
  constructor
  · rintro ⟨id, hid, rfl, hk, hrest⟩
    exact ⟨hk, hid, hrest⟩
  · rintro ⟨hk, hid, hrest⟩
    exact ⟨c, hid, rfl, hk, hrest⟩

/-- The names in the reply: what a client without `NOLOOP` is sent, and what one with it is. -/
theorem mem_buildBroadcastReply {x : Option ClientId} :
    (∃ names, trackingBuildBroadcastReply x keys = some names ∧ k ∈ names) ↔
      ∃ a, keys.find k = some a ∧ ∀ y, x = some y → a ≠ some y := by
  cases x with
  | none =>
    simp only [trackingBuildBroadcastReply, Option.some.injEq, exists_eq_left', mem_map,
      reduceCtorEq, false_imp_iff, implies_true, and_true, SortedMap.find_eq_some]
    constructor
    · rintro ⟨⟨k', a⟩, he, rfl⟩
      exact ⟨a, he⟩
    · rintro ⟨a, he⟩
      exact ⟨(k, a), he, rfl⟩
  | some y =>
    have hmem : k ∈ (keys.entries.filter fun e => e.2 ≠ some y).map Prod.fst ↔
        ∃ a, keys.find k = some a ∧ a ≠ some y := by
      simp only [mem_map, mem_filter, decide_eq_true_eq, SortedMap.find_eq_some]
      constructor
      · rintro ⟨⟨k', a⟩, ⟨he, hne⟩, rfl⟩
        exact ⟨a, he, hne⟩
      · rintro ⟨a, he, hne⟩
        exact ⟨(k, a), ⟨he, hne⟩, rfl⟩
    simp only [Option.some.injEq, forall_eq', ← hmem, trackingBuildBroadcastReply]
    split_ifs with hnil
    · rw [hnil]
      simp
    · simp

/-- The key is in the message if its change is not the client's own one. -/
theorem names_broadcastReply :
    Names (broadcastReply keys clients id) c k ↔ id = c ∧ (clients c).resp3 = true ∧
      ∃ a, keys.find k = some a ∧ ((clients c).noloop = true → a ≠ some c) := by
  have hnames : Names (broadcastReply keys clients id) c k ↔ id = c ∧ (clients c).resp3 = true ∧
      ∃ names, trackingBuildBroadcastReply (if (clients c).noloop then some c else none) keys =
        some names ∧ k ∈ names := by
    unfold broadcastReply
    cases hreply : trackingBuildBroadcastReply (if (clients id).noloop then some id else none)
        keys with
    | none =>
      simp only [Names, not_mem_nil, false_and, exists_false, false_iff]
      rintro ⟨rfl, _, names, hsome, _⟩
      rw [hreply] at hsome
      cases hsome
    | some names =>
      rw [names_messageTo]
      constructor
      · rintro ⟨rfl, hresp, hk⟩
        exact ⟨rfl, hresp, names, hreply, hk⟩
      · rintro ⟨rfl, hresp, names', hsome, hk⟩
        rw [hreply] at hsome
        exact ⟨rfl, hresp, Option.some.inj hsome ▸ hk⟩
  rw [hnames, mem_buildBroadcastReply]
  cases (clients c).noloop <;> simp

theorem names_broadcast {table : SortedMap Bytes BcastState} :
    Names (table.entries.flatMap (prefixReplies clients)) c k ↔ (clients c).resp3 = true ∧
      ∃ p bs a, table.find p = some bs ∧ c ∈ bs.clients ∧ bs.keys.find k = some a ∧
        ((clients c).noloop = true → a ≠ some c) := by
  have hprefix : ∀ e : Bytes × BcastState, Names (prefixReplies clients e) c k ↔
      c ∈ e.2.clients ∧ (clients c).resp3 = true ∧
        ∃ a, e.2.keys.find k = some a ∧ ((clients c).noloop = true → a ≠ some c) := by
    rintro ⟨p, bs⟩
    rw [prefixReplies]
    split_ifs with hnil
    · simp only [Names, not_mem_nil, false_and, exists_false, false_iff]
      rintro ⟨_, _, a, hfind, _⟩
      rw [SortedMap.find_eq_some, hnil] at hfind
      cases hfind
    · simp only [names_flatMap, names_broadcastReply]
      constructor
      · rintro ⟨id, hid, rfl, hrest⟩
        exact ⟨hid, hrest⟩
      · rintro ⟨hc, hrest⟩
        exact ⟨c, hc, rfl, hrest⟩
  simp only [names_flatMap, hprefix]
  constructor
  · rintro ⟨⟨p, bs⟩, he, hc, hresp, a, hrest⟩
    exact ⟨hresp, p, bs, a, table.find_eq_some.mpr he, hc, hrest⟩
  · rintro ⟨hresp, p, bs, a, he, hc, hrest⟩
    exact ⟨(p, bs), table.find_eq_some.mp he, hc, hresp, a, hrest⟩

end Sending

section Effects

variable (s : State)

theorem newMessages_append (l : List (ClientId × List Bytes)) {s s' : State}
    (h : s'.sent = s.sent ++ l) : s.newMessages s' = l := by
  rw [State.newMessages, h, drop_left]

/-- The table of prefixes after a key was remembered for the next broadcast. -/
def rememberedIn (table : SortedMap Bytes BcastState) (author : Option ClientId) (key : Bytes) :
    SortedMap Bytes BcastState :=
  table.mapValues fun p bs =>
    if p.length > key.length then bs
    else if p ≠ [] ∧ key.take p.length ≠ p then bs
    else bs.rememberKey author key

theorem find_rememberedIn (table : SortedMap Bytes BcastState) (author : Option ClientId)
    (key p : Bytes) :
    (rememberedIn table author key).find p =
      (table.find p).map fun bs => if p <+: key then bs.rememberKey author key else bs := by
  have hmatch : (¬ p.length > key.length ∧ ¬ (p ≠ [] ∧ key.take p.length ≠ p)) ↔ p <+: key := by
    rw [prefix_iff_eq_take]
    constructor
    · rintro ⟨_, hbytes⟩
      by_cases hp : p = []
      · simp [hp]
      · exact (not_not.mp (fun hne => hbytes ⟨hp, hne⟩)).symm
    · intro heq
      have hlen := congrArg List.length heq
      rw [length_take] at hlen
      exact ⟨by omega, fun hand => hand.2 heq.symm⟩
  rw [rememberedIn, SortedMap.find_mapValues]
  congr 1
  funext bs
  by_cases hp : p <+: key
  · obtain ⟨hlen, hbytes⟩ := hmatch.mpr hp
    rw [if_neg hlen, if_neg hbytes, if_pos hp]
  · split_ifs with hlen hbytes
    · rfl
    · rfl
    · exact absurd (hmatch.mp ⟨hlen, hbytes⟩) hp

theorem trackingInvalidateKeyRaw_eq (halloc : s.allocated = true) (author : Option ClientId)
    (key : Bytes) (bcast : Bool) :
    trackingInvalidateKeyRaw s author key bcast =
      { s with
        sent := s.sent ++ (s.tracked key).flatMap (invalidation author key s.clients)
        trackingTable := update s.trackingTable key none
        prefixTable :=
          if bcast then rememberedIn s.prefixTable author key else s.prefixTable } := by
  have hempty : s.prefixTable.entries = [] →
      rememberedIn s.prefixTable author key = s.prefixTable := by
    intro hnil
    cases hp : s.prefixTable with
    | mk entries sorted =>
      rw [hp] at hnil
      subst hnil
      rfl
  have hremember : (if bcast = true ∧ s.prefixTable.entries ≠ [] then
      trackingRememberKeyToBroadcast s author key else s) =
      { s with prefixTable :=
        if bcast then rememberedIn s.prefixTable author key else s.prefixTable } := by
    cases bcast with
    | false => rfl
    | true =>
      by_cases hnil : s.prefixTable.entries = []
      · simp [hnil, hempty]
      · simp [hnil, trackingRememberKeyToBroadcast, rememberedIn]
  unfold trackingInvalidateKeyRaw
  simp only [halloc, Bool.not_true, Bool.false_eq_true, if_false, hremember, State.tracked]
  cases hids : s.trackingTable key with
  | none =>
    have hsame : update s.trackingTable key none = s.trackingTable := by
      rw [← hids, update_eq_self]
    simp [hsame]
  | some ids => simp [(sends_invalidateFor author key).foldl]

theorem trackingBroadcast_eq (halloc : s.allocated = true) (hcount : 0 < s.trackingClients) :
    trackingBroadcastInvalidationMessages s =
      { s with
        sent := s.sent ++ s.prefixTable.entries.flatMap (prefixReplies s.clients)
        prefixTable :=
          s.prefixTable.mapValues fun _ bs => { bs with keys := SortedMap.empty } } := by
  unfold trackingBroadcastInvalidationMessages
  rw [if_neg (by simp [halloc, ne_of_gt hcount])]
  simp [sends_broadcastPrefix.foldl]

theorem tracked_rememberKeys (c : ClientId) (keys : List Bytes) (key : Bytes) (id : ClientId) :
    id ∈ (trackingRememberKeys s c keys).tracked key ↔
      id ∈ s.tracked key ∨ (id = c ∧ key ∈ keys) := by
  induction keys generalizing s with
  | nil => simp [trackingRememberKeys]
  | cons k keys ih =>
    have hstep : ∀ key, id ∈ (trackingRememberKey c s k).tracked key ↔
        id ∈ s.tracked key ∨ (id = c ∧ key = k) := by
      intro key
      simp only [State.tracked, trackingRememberKey, update_apply]
      by_cases hk : key = k
      · subst hk
        rw [if_pos rfl, Option.getD_some]
        split_ifs with hc
        · constructor
          · exact .inl
          · rintro (hid | ⟨rfl, _⟩)
            · exact hid
            · exact hc
        · simp
      · simp [hk]
    have hih := ih (trackingRememberKey c s k)
    rw [trackingRememberKeys] at hih ⊢
    rw [foldl_cons, hih, hstep, mem_cons]
    tauto

theorem trackingRememberKeys_frame (c : ClientId) (keys : List Bytes) :
    ∃ table, trackingRememberKeys s c keys = { s with trackingTable := table } := by
  induction keys generalizing s with
  | nil => exact ⟨s.trackingTable, rfl⟩
  | cons k keys ih =>
    obtain ⟨table, htable⟩ := ih (trackingRememberKey c s k)
    exact ⟨table, htable⟩

end Effects

end Redis.Tracking
