import Redis.Blocking.Timeouts

/-! The timeout table mirrors the deadlines of the blocked clients along every run, and a call
of `handleBlockedClientsTimeout` unblocks the clients that are due. -/
namespace Redis.Blocking

open ByteBuffer RadixTree Function List Option

variable {d : Nat}

section Keys

/-- The numbers are compared like their bytes in big endian order. -/
theorem leBytes_reverse_lt {n a b : Nat} (hab : a < b) (hb : b < 256 ^ n) (s t : Bytes) :
    (leBytes n a).reverse ++ s < (leBytes n b).reverse ++ t := by
  induction n generalizing a b s t with
  | zero => omega
  | succ n ih =>
    simp only [leBytes, reverse_cons, append_assoc]
    have hhigh : b / 256 < 256 ^ n := Nat.div_lt_of_lt_mul (by rwa [pow_succ, mul_comm] at hb)
    rcases lt_or_ge (a / 256) (b / 256) with hlt | hge
    · exact ih hlt hhigh _ _
    · have hsame : a / 256 = b / 256 := by omega
      have hlow : UInt8.ofNat a < UInt8.ofNat b := by
        rw [UInt8.lt_iff_toNat_lt, UInt8.toNat_ofNat', UInt8.toNat_ofNat']
        omega
      rw [hsame]
      refine append_left_lt ?_
      exact cons_lt_cons_iff.mpr (.inl hlow)

/-- The key of a deadline that is not negative. -/
def timeoutKey (deadline : Nat) (c : ClientPtr) : Bytes :=
  (leBytes 8 deadline).reverse ++ leBytes 8 c.toNat

theorem timeoutKey_short (d : Nat) (c : ClientPtr) :
    (timeoutKey d c).length < raxNodeMaxSize := by
  simp [timeoutKey, raxNodeMaxSize]

/-- Keys are in the order of their deadlines, whatever the clients. -/
theorem timeoutKey_lt {d e : Nat} (h : d < e) (he : e < 2 ^ 64) (c c' : ClientPtr) :
    timeoutKey d c < timeoutKey e c' :=
  leBytes_reverse_lt h (by omega) _ _

/-- The wrapped sum has the key of the sum. -/
theorem encodeTimeoutKey_eq {t : Int} (h : t = (d : Int).bmod (2 ^ 64)) (hd : d < 2 ^ 64)
    (c : ClientPtr) : encodeTimeoutKey t c = timeoutKey d c := by
  have hmod : (t % 2 ^ 64).toNat = d := by
    have hemod : (d : Int).bmod (2 ^ 64) % (2 ^ 64 : Nat) = d % (2 ^ 64 : Nat) := Int.bmod_emod
    omega
  rw [encodeTimeoutKey, hmod, timeoutKey]

/-- Both halves of a key are read back, if the deadline fits in 64 bits. -/
theorem decodeTimeoutKey_timeoutKey (hd : d < 2 ^ 64) (c : ClientPtr) :
    decodeTimeoutKey (timeoutKey d c) = (d, c) := by
  have htake : (timeoutKey d c).take 8 = (leBytes 8 d).reverse :=
    take_left' (by simp)
  have hdrop : (timeoutKey d c).drop 8 = leBytes 8 c.toNat :=
    drop_left' (by simp)
  have hdeadline := readLE_leBytes_of_lt (n := 8) (show d < 256 ^ 8 by omega) []
  have hclient := readLE_leBytes_of_lt (n := 8) (show c.toNat < 256 ^ 8 from c.toNat_lt) []
  rw [append_nil] at hdeadline hclient
  rw [decodeTimeoutKey, htake, hdrop, reverse_reverse, hdeadline, hclient, UInt64.ofNat_toNat]

theorem timeoutKey_injective {d e : Nat} (hd : d < 2 ^ 64) (he : e < 2 ^ 64) {c c' : ClientPtr}
    (h : timeoutKey d c = timeoutKey e c') : d = e ∧ c = c' := by
  have hdecode := congrArg decodeTimeoutKey h
  rw [decodeTimeoutKey_timeoutKey hd, decodeTimeoutKey_timeoutKey he] at hdecode
  exact Prod.mk.inj hdecode

end Keys

/-- When the clients are due. -/
abbrev Deadlines := ClientPtr → Option Nat

variable {D : Deadlines} {s s' : Server} {c : ClientPtr} {client : Client}

namespace Deadlines

def Key (D : Deadlines) (key : Bytes) : Prop := ∃ c d, D c = some d ∧ key = timeoutKey d c

open Classical in
/-- The map that the table should represent. -/
noncomputable def table (D : Deadlines) (key : Bytes) : Option (Option Unit) :=
  if D.Key key then some none else none

def Ok (D : Deadlines) : Prop := ∀ c d, D c = some d → 0 < d ∧ d < 2 ^ 64

section Table

theorem table_ne_none {key : Bytes} : D.table key ≠ none ↔ D.Key key := by
  unfold table
  split_ifs with h <;> simp [h]

theorem Ok.update (h : D.Ok) (c : ClientPtr) {o : Option Nat}
    (ho : ∀ d, o = some d → 0 < d ∧ d < 2 ^ 64) :
    Ok (update D c o) := by
  intro c' d' hc'
  rw [update_apply] at hc'
  split_ifs at hc'
  · exact ho d' hc'
  · exact h c' d' hc'

/-- A client without a deadline gets one: its key is added, and no other key changes. -/
theorem table_insert (hc : D c = none) (d : Nat) :
    table (update D c (some d)) =
      update D.table (timeoutKey d c) (some none) := by
  have hkey : ∀ key, Key (update D c (some d)) key ↔
      key = timeoutKey d c ∨ D.Key key := by
    intro key
    constructor
    · rintro ⟨c', d', hc', rfl⟩
      rw [update_apply] at hc'
      split_ifs at hc' with heq
      · cases hc'
        exact .inl (by rw [heq])
      · exact .inr ⟨c', d', hc', rfl⟩
    · rintro (rfl | ⟨c', d', hc', rfl⟩)
      · exact ⟨c, d, update_self .., rfl⟩
      · refine ⟨c', d', ?_, rfl⟩
        rw [update_of_ne (by rintro rfl; rw [hc] at hc'; cases hc'), hc']
  funext key
  rw [update_apply, table, hkey, table]
  split_ifs <;> simp_all

/-- The key of a deadline goes with it, as no other client has this key. -/
theorem table_erase (h : D.Ok) (hc : D c = some d) :
    table (update D c none) = update D.table (timeoutKey d c) none := by
  have hkey : ∀ key, Key (update D c none) key ↔
      key ≠ timeoutKey d c ∧ D.Key key := by
    intro key
    constructor
    · rintro ⟨c', d', hc', rfl⟩
      rw [update_apply] at hc'
      split_ifs at hc' with heq
      refine ⟨fun hsame => heq ?_, c', d', hc', rfl⟩
      exact (timeoutKey_injective (h c' d' hc').2 (h c d hc).2 hsame).2
    · rintro ⟨hne, c', d', hc', rfl⟩
      refine ⟨c', d', ?_, rfl⟩
      rw [update_of_ne, hc']
      rintro rfl
      rw [hc] at hc'
      exact hne (by rw [some.inj hc'])
  funext key
  rw [update_apply, table, hkey, table]
  split_ifs <;> simp_all

end Table

end Deadlines

/-- A client knows whether it is in the table, and where. -/
def Knows (client : Option Client) : Option Nat → Prop
  | none => ∀ client', client = some client' → client'.inTimeoutTable = false
  | some d => ∃ client', client = some client' ∧ client'.blocked = true ∧
      client'.inTimeoutTable = true ∧ client'.timeout = (d : Int).bmod (2 ^ 64)

/-- The server holds a set of deadlines: the table has their keys, and every client knows. -/
structure Tracks (s : Server) (D : Deadlines) : Prop where
  ok : D.Ok
  represents : Represents s.clientsTimeoutTable D.table
  client : ∀ c, Knows (s.clients c) (D c)

/-- What unblocking does to a client. -/
def Client.unblocked (client : Client) : Client :=
  { client with blocked := false, inTimeoutTable := false }

section Steps

variable (h : Tracks s D)
include h

/-- One client changes, and its deadline. -/
theorem Tracks.client_update {client : Option Client} {o : Option Nat} (hc : Knows client o)
    (c' : ClientPtr) : Knows (update s.clients c client c') (update D c o c') := by
  simp only [update_apply]
  split_ifs
  · exact hc
  · exact h.client c'

/-- A client that is unblocked leaves the table. -/
theorem Tracks.leave (hd : D c = some d) (client : Client) :
    Tracks ⟨update s.clients c (some client.unblocked),
      (raxRemove s.clientsTimeoutTable (timeoutKey d c)).1⟩ (update D c none) := by
  refine ⟨h.ok.update c (by simp), ?_, h.client_update ?_⟩
  · rw [Deadlines.table_erase h.ok hd]
    exact (raxRemove_refines h.represents).1
  · rintro client' ⟨⟩
    rfl

/-- A client without a deadline may change while it stays out of the table. -/
theorem Tracks.change (hD : D c = none) {client : Option Client} (hclient : Knows client none) :
    Tracks ⟨update s.clients c client, s.clientsTimeoutTable⟩ D := by
  refine ⟨h.ok, h.represents, fun c' => ?_⟩
  have hknows := h.client_update (c := c) hclient c'
  rwa [← hD, update_eq_self] at hknows

/-- A client that is unblocked has no deadline afterwards, whether it had one before or not. -/
theorem Tracks.unblockClient (hc : s.clients c = some client) :
    Tracks (unblockClient s c client) (update D c none) ∧
      (Blocking.unblockClient s c client).clients =
        update s.clients c (some client.unblocked) := by
  cases hD : D c with
  | none =>
    have hknows := h.client c
    rw [hD] at hknows
    have hflag := hknows client hc
    have hsame : update D c none = D := by rw [← hD, update_eq_self]
    have heq : Blocking.unblockClient s c client =
        ⟨update s.clients c (some client.unblocked), s.clientsTimeoutTable⟩ := by
      simp [Blocking.unblockClient, removeClientFromTimeoutTable, hflag, Server.setClient,
        Client.unblocked]
    rw [heq, hsame]
    exact ⟨h.change hD (by rintro client' ⟨⟩; rfl), rfl⟩
  | some d =>
    obtain ⟨client', hc', -, hflag, htimeout⟩ : Knows _ (some d) := hD ▸ h.client c
    obtain rfl : client = client' := some.inj (hc.symm.trans hc')
    have heq : Blocking.unblockClient s c client =
        ⟨update s.clients c (some client.unblocked),
          (raxRemove s.clientsTimeoutTable (timeoutKey d c)).1⟩ := by
      simp [Blocking.unblockClient, removeClientFromTimeoutTable, hflag, Server.setClient,
        Client.unblocked, encodeTimeoutKey_eq htimeout (h.ok c d hD).2]
    rw [heq]
    exact ⟨h.leave hD client, rfl⟩

/-- A client that blocks with a timeout enters the table. -/
theorem Tracks.enter (hD : D c = none) (hpos : 0 < d) (hlt : d < 2 ^ 64) (client : Client)
    (hblocked : client.blocked = true) (htimeout : client.timeout = (d : Int).bmod (2 ^ 64)) :
    Tracks (addClientToTimeoutTable s c client) (update D c (some d)) ∧
      (addClientToTimeoutTable s c client).clients =
        update s.clients c (some { client with inTimeoutTable := true }) := by
  have hzero : client.timeout ≠ 0 := by
    intro hzero
    have hemod : (d : Int).bmod (2 ^ 64) % (2 ^ 64 : Nat) = d % (2 ^ 64 : Nat) := Int.bmod_emod
    omega
  have hnew : D.table (timeoutKey d c) = none := by
    by_contra hkey
    obtain ⟨c', d', hc', heq⟩ := Deadlines.table_ne_none.mp hkey
    obtain ⟨-, rfl⟩ := timeoutKey_injective hlt (h.ok c' d' hc').2 heq
    rw [hD] at hc'
    cases hc'
  obtain ⟨htable, hadded⟩ := raxStep_refines h.represents
    (show RaxOp.Short (.tryInsert (timeoutKey d c) none) from timeoutKey_short d c)
  simp only [raxStep, mapStep, hnew, isNone_none, if_true] at htable hadded
  have heq : addClientToTimeoutTable s c client =
      ⟨update s.clients c (some { client with inTimeoutTable := true }),
        (raxTryInsert s.clientsTimeoutTable (timeoutKey d c) none).1⟩ := by
    simp [addClientToTimeoutTable, hzero, encodeTimeoutKey_eq htimeout hlt, Server.setClient,
      hadded]
  rw [heq]
  refine ⟨⟨h.ok.update c ?_, ?_, h.client_update ⟨_, rfl, hblocked, rfl, htimeout⟩⟩, rfl⟩
  · rintro d' ⟨⟩
    exact ⟨hpos, hlt⟩
  · rw [Deadlines.table_insert hD]
    exact htable

/-- The deadline of a client that blocks. -/
def deadlineOf (since : Nat × Nat) : Option Nat :=
  if 0 < since.2 then some (since.1 + since.2) else none

/-- A client blocks, with a timeout or without. The `long long` of its deadline may wrap around, but
its key is that of the sum. -/
theorem Tracks.blockClient (hD : D c = none) (hc : s.clients c = some client)
    (tval now : Fin (2 ^ 63)) :
    Tracks (blockClient s c { client with timeout := getTimeout tval now })
        (update D c (deadlineOf (now, tval))) ∧
      ∃ client', client'.blocked = true ∧
        (Blocking.blockClient s c { client with timeout := getTimeout tval now }).clients =
          update s.clients c (some client') := by
  rcases Nat.eq_zero_or_pos tval.val with hzero | hpos
  · have hsame : update D c (deadlineOf (now, tval)) = D := by
      rw [deadlineOf, if_neg (by omega), ← hD, update_eq_self]
    have heq : Blocking.blockClient s c { client with timeout := getTimeout tval now } =
        ⟨update s.clients c (some { client with blocked := true, timeout := 0 }),
          s.clientsTimeoutTable⟩ := by
      simp [Blocking.blockClient, addClientToTimeoutTable, getTimeout, hzero, Server.setClient]
    rw [heq, hsame]
    have hknows := h.client c
    rw [hD] at hknows
    refine ⟨h.change hD ?_, _, rfl, rfl⟩
    rintro client' ⟨⟩
    exact hknows client hc
  · rw [deadlineOf, if_pos hpos]
    obtain ⟨htracks, hclients⟩ := h.enter hD (d := now + tval) (by omega) (by omega)
      { client with blocked := true, timeout := getTimeout tval now } rfl
      (by rw [getTimeout, if_pos hpos, add_comm])
    exact ⟨htracks, _, rfl, hclients⟩

end Steps

section Loop

/-- The table is asked for its first key: one with the earliest deadline, if there is any. -/
theorem Tracks.first (h : Tracks s D) (it : Iterator Unit) :
    let found := raxNext s.clientsTimeoutTable (raxSeek s.clientsTimeoutTable it .first [])
    (found.2 = false ∧ ∀ c, D c = none) ∨
      ∃ c d, found.2 = true ∧ found.1.cur.key = timeoutKey d c ∧ D c = some d ∧
        ∀ c' d', D c' = some d' → d ≤ d' := by
  have hyields := raxNext_yields h.represents.inv _ _ (raxSeek_first_pending h.represents.inv it [])
  have hkeys : ∀ key, D.Key key ↔ s.clientsTimeoutTable.head.Key key := fun key =>
    Deadlines.table_ne_none.symm.trans (h.represents.key_iff key).symm
  have hsorted := h.represents.inv.wf.sorted
  cases hl : s.clientsTimeoutTable.head.entries with
  | nil =>
    rw [hl] at hyields
    refine .inl ⟨hyields.1, fun c => ?_⟩
    cases hc : D c with
    | none => rfl
    | some d =>
      obtain ⟨v, hv⟩ := (hkeys _).mp ⟨c, d, hc, rfl⟩
      rw [hl] at hv
      cases hv
  | cons e rest =>
    rw [hl] at hyields hsorted
    obtain ⟨hmore, -, hentry, -⟩ := hyields
    obtain ⟨c, d, hc, hkey⟩ := (hkeys e.1).mpr ⟨e.2, hl ▸ mem_cons_self ..⟩
    refine .inr ⟨c, d, hmore, ?_, hc, fun c' d' hc' => ?_⟩
    · rw [← hkey, ← hentry]
    · by_contra hlt
      obtain ⟨v, hv⟩ := (hkeys _).mp ⟨c', d', hc', rfl⟩
      have hless := timeoutKey_lt (Nat.lt_of_not_le hlt) (h.ok c d hc).2 c' c
      rw [hl] at hv
      rcases mem_cons.mp hv with heq | hmem
      · rw [← hkey, ← heq] at hless
        exact List.lt_irrefl _ hless
      · have hgreater := (pairwise_cons.mp hsorted).1 _ hmem
        rw [← hkey] at hless
        exact List.lt_irrefl _ (List.lt_trans hless hgreater)

/-- The table has one key less, which bounds the rounds of the loop. -/
theorem Tracks.numele_lt (h : Tracks s D) (hc : D c = some d) (h' : Tracks s' (update D c none)) :
    s'.clientsTimeoutTable.numele < s.clientsTimeoutTable.numele := by
  rw [h.represents.numele_eq.2, h'.represents.numele_eq.2, Deadlines.table_erase h.ok hc]
  refine Set.ncard_lt_ncard ?_ h.represents.numele_eq.1
  refine Set.ssubset_iff_of_subset ?_ |>.mpr ⟨timeoutKey d c, ?_, by simp⟩
  · intro key hkey
    simp only [Set.mem_ofPred_eq, update_apply] at hkey ⊢
    split_ifs at hkey
    · exact absurd rfl hkey
    · exact hkey
  · exact Deadlines.table_ne_none.mpr ⟨c, d, hc, rfl⟩

/-- A call at time `now` unblocks the clients that are due, each once, and nothing else. -/
structure TimesOut (now : Nat) (s : Server) (D : Deadlines) (s' : Server) (out : List ClientPtr) :
    Prop where
  tracks : Tracks s' fun c => if c ∈ out then none else D c
  nodup : out.Nodup
  due : ∀ c, c ∈ out ↔ ∃ d, D c = some d ∧ d < now
  clients : ∀ c, s'.clients c =
    if c ∈ out then (s.clients c).map Client.unblocked else s.clients c

theorem TimesOut.nil {now : Nat} (h : Tracks s D) (hnone : ∀ c d, D c = some d → now ≤ d) :
    TimesOut now s D s [] := by
  refine ⟨by simpa using h, nodup_nil, fun c => ?_, fun c => by simp⟩
  simp only [not_mem_nil, false_iff, not_exists, not_and]
  intro d hd hlt
  have hle := hnone c d hd
  omega

/-- The first client is due, and the rest of the call does what is left to do. -/
theorem TimesOut.cons {now : Nat} {s₁ : Server} {out : List ClientPtr} (hD : D c = some d)
    (hdue : d < now) (hc : s.clients c = some client)
    (hs₁ : s₁.clients = update s.clients c (some client.unblocked))
    (h : TimesOut now s₁ (update D c none) s' out) : TimesOut now s D s' (c :: out) := by
  have hnot : c ∉ out := fun hmem => by
    obtain ⟨d', hd', -⟩ := (h.due c).mp hmem
    rw [update_self] at hd'
    cases hd'
  refine ⟨?_, nodup_cons.mpr ⟨hnot, h.nodup⟩, fun c' => ?_, fun c' => ?_⟩
  · have hmap : (fun c' => if c' ∈ c :: out then none else D c') =
        fun c' => if c' ∈ out then none else update D c none c' := by
      funext c'
      by_cases heq : c' = c <;> simp [heq, hnot]
    rw [hmap]
    exact h.tracks
  · rw [mem_cons, h.due]
    by_cases heq : c' = c
    · simp [heq, hD, hdue]
    · simp [heq]
  · rw [h.clients, hs₁]
    by_cases heq : c' = c
    · simp [heq, hnot, hc]
    · simp [heq]

/-- The loop ends if it has more rounds than the table has keys, since every round removes one. -/
theorem timeoutLoop_spec (now : Fin (2 ^ 63)) (rounds : Nat) (h : Tracks s D)
    (hrounds : s.clientsTimeoutTable.numele < rounds) (it : Iterator Unit) (done : List ClientPtr) :
    ∃ s' out, timeoutLoop now rounds s (raxSeek s.clientsTimeoutTable it .first []) done =
      some (s', done ++ out) ∧ TimesOut now s D s' out := by
  induction rounds generalizing s D it done with
  | zero => omega
  | succ rounds ih =>
    rcases hfound : raxNext s.clientsTimeoutTable
      (raxSeek s.clientsTimeoutTable it .first []) with ⟨it', more⟩
    have hfirst := h.first it
    simp only [hfound] at hfirst
    simp only [timeoutLoop, hfound]
    rcases hfirst with ⟨rfl, hnone⟩ | ⟨c, d, rfl, hkey, hD, hmin⟩
    · refine ⟨s, [], by simp, .nil h fun c d hd => ?_⟩
      rw [hnone] at hd
      cases hd
    obtain ⟨hpos, hlt⟩ := h.ok c d hD
    simp only [hkey, decodeTimeoutKey_timeoutKey hlt, Bool.not_true, Bool.false_eq_true, if_false]
    by_cases hdue : d ≥ now.val
    · refine ⟨s, [], by simp [hdue], .nil h fun c' d' hd' => ?_⟩
      exact hdue.trans (hmin c' d' hd')
    obtain ⟨client, hc, hblocked, -, htimeout⟩ : Knows _ (some d) := hD ▸ h.client c
    have hsigned : client.timeout = d := by
      rw [htimeout]
      exact Int.bmod_eq_of_le (by omega) (by omega)
    -- The flag is cleared first, so that `unblockClient` leaves the table alone.
    have hcheck : checkBlockedClientTimeout s c { client with inTimeoutTable := false } now.val =
        (s.setClient c client.unblocked, true) := by
      have hcond : client.blocked = true ∧ client.timeout ≠ 0 ∧ client.timeout < now.val :=
        ⟨hblocked, by omega, by omega⟩
      simp [checkBlockedClientTimeout, hcond, unblockClient, removeClientFromTimeoutTable,
        Client.unblocked]
    have hleave := h.leave hD client
    obtain ⟨s', out, hloop, hout⟩ := ih hleave
      (lt_of_lt_of_le (h.numele_lt hD hleave) (Nat.le_of_lt_succ hrounds)) it' (done ++ [c])
    refine ⟨s', c :: out, ?_, .cons hD (Nat.lt_of_not_le hdue) hc rfl hout⟩
    simpa [hdue, hc, hcheck, Server.setClient] using hloop

theorem Tracks.handleBlockedClientsTimeout (h : Tracks s D) (now : Fin (2 ^ 63)) :
    ∃ s' out, handleBlockedClientsTimeout s now = some (s', out) ∧ TimesOut now s D s' out := by
  rw [Blocking.handleBlockedClientsTimeout]
  split_ifs with hempty
  · refine ⟨s, [], rfl, .nil h fun c d hd => ?_⟩
    rw [h.represents.numele_eq.2, Set.ncard_eq_zero h.represents.numele_eq.1] at hempty
    have hkey : timeoutKey d c ∈ {key | D.table key ≠ none} :=
      Deadlines.table_ne_none.mpr ⟨c, d, hd, rfl⟩
    rw [hempty] at hkey
    cases hkey
  · exact timeoutLoop_spec now _ h (Nat.lt_succ_self _) raxStart []

end Loop

section Run

theorem deadlineOf_eq_some {since : Option (Nat × Nat)} :
    since.bind deadlineOf = some d ↔ ∃ b t, since = some (b, t) ∧ 0 < t ∧ b + t = d := by
  cases since with
  | none => simp
  | some p =>
    obtain ⟨b, t⟩ := p
    simp only [bind_some, deadlineOf, some.injEq, Prod.mk.injEq]
    split_ifs with ht
    · constructor
      · rintro ⟨⟩
        exact ⟨b, t, ⟨rfl, rfl⟩, ht, rfl⟩
      · rintro ⟨b', t', ⟨rfl, rfl⟩, -, hd⟩
        rw [hd]
    · constructor
      · rintro ⟨⟩
      · rintro ⟨b', t', ⟨rfl, rfl⟩, hpos, -⟩
        exact absurd hpos ht

namespace World

def deadlines (w : World) : Deadlines := fun c => (w.since c).bind deadlineOf

/-- The table holds the deadlines of the blocked clients. -/
structure Sound (w : World) : Prop where
  tracks : Tracks w.server w.deadlines
  blocked : ∀ c, (w.since c).isSome ↔ ∃ client, w.server.clients c = some client ∧
    client.blocked = true

theorem sound_initial : initial.Sound := by
  have htable : initial.deadlines.table = fun _ => none := by
    funext key
    by_contra hkey
    obtain ⟨c, d, hc, -⟩ := Deadlines.table_ne_none.mp hkey
    cases hc
  refine ⟨⟨?_, ?_, ?_⟩, ?_⟩
  · rintro c d ⟨⟩
  · rw [htable]
    exact represents_raxNew
  · rintro c client ⟨⟩
  · simp [initial]

variable {w : World}

section

variable (h : w.Sound)
include h

theorem Sound.not_blocked
    (hc : ∀ client, w.server.clients c = some client → client.blocked = false) :
    w.since c = none ∧ w.deadlines c = none := by
  have hsince : w.since c = none := by
    rw [← not_isSome_iff_eq_none, h.blocked]
    rintro ⟨client, hclient, hblocked⟩
    rw [hc client hclient] at hblocked
    cases hblocked
  exact ⟨hsince, by rw [deadlines, hsince]; rfl⟩

/-- A step that concerns one client. -/
theorem Sound.change {server : Server} {client : Option Client} (since : Option (Nat × Nat))
    (htracks : Tracks server (update w.deadlines c (since.bind deadlineOf)))
    (hclients : server.clients = update w.server.clients c client)
    (hsince : since.isSome ↔ ∃ client', client = some client' ∧ client'.blocked = true) :
    Sound ⟨server, update w.since c since⟩ := by
  refine ⟨?_, fun c' => ?_⟩
  · have hD : deadlines ⟨server, update w.since c since⟩ =
        update w.deadlines c (since.bind deadlineOf) := by
      funext c'
      by_cases heq : c' = c <;> simp [deadlines, heq]
    rw [hD]
    exact htracks
  · simp only [hclients, update_apply]
    split_ifs with heq
    · exact hsince
    · exact h.blocked c'

theorem Sound.handle (now : Fin (2 ^ 63)) :
    ∃ w' out, w.step (.handle now) = some (w', out) ∧ w'.Sound ∧
      TimesOut now w.server w.deadlines w'.server out := by
  obtain ⟨server, out, hhandle, hout⟩ := h.tracks.handleBlockedClientsTimeout now
  refine ⟨_, out, by rw [World.step, hhandle]; rfl, ⟨?_, fun c => ?_⟩, hout⟩
  · have hD : deadlines ⟨server, fun c => if c ∈ out then none else w.since c⟩ =
        fun c => if c ∈ out then none else w.deadlines c := by
      funext c
      by_cases hc : c ∈ out <;> simp [deadlines, hc]
    rw [hD]
    exact hout.tracks
  · dsimp only
    rw [hout.clients]
    split_ifs with hc
    · simp [Client.unblocked]
    · exact h.blocked c

/-- Every event goes through, and the table stays in step with the clients. -/
theorem Sound.step (e : Event) : ∃ w' out, w.step e = some (w', out) ∧ w'.Sound := by
  cases e with
  | connect c =>
    rw [World.step]
    split_ifs with hc
    · exact ⟨w, [], rfl, h⟩
    obtain ⟨hsince, hD⟩ := h.not_blocked (c := c) fun client hclient => by simp [hclient] at hc
    have hknows : Knows (some ⟨false, false, 0⟩) none := by
      rintro client' ⟨⟩
      rfl
    have htracks := h.tracks.change hD hknows
    have hsame : w.since = update w.since c none := by
      rw [← hsince, update_eq_self]
    refine ⟨_, [], rfl, ?_⟩
    rw [hsame]
    refine h.change none ?_ rfl (by simp)
    rwa [bind_none, ← hD, update_eq_self]
  | block c tval now =>
    rw [World.step]
    cases hc : w.server.clients c with
    | none => exact ⟨w, [], rfl, h⟩
    | some client =>
      cases hblocked : client.blocked with
      | true => exact ⟨w, [], by simp [hblocked], h⟩
      | false =>
        obtain ⟨-, hD⟩ := h.not_blocked (c := c) (by simp [hc, hblocked])
        obtain ⟨htracks, client', hblocked', hclients⟩ :=
          h.tracks.blockClient hD hc tval now
        refine ⟨_, [], by simp only [hblocked, Bool.false_eq_true, if_false]; rfl, ?_⟩
        exact h.change _ htracks hclients (by simp [hblocked'])
  | unblock c =>
    rw [World.step]
    cases hc : w.server.clients c with
    | none => exact ⟨w, [], rfl, h⟩
    | some client =>
      dsimp only
      split_ifs with hblocked
      · obtain ⟨htracks, hclients⟩ := h.tracks.unblockClient hc
        exact ⟨_, [], rfl, h.change none htracks hclients (by simp [Client.unblocked])⟩
      · exact ⟨w, [], rfl, h⟩
  | free c =>
    rw [World.step]
    cases hc : w.server.clients c with
    | none => exact ⟨w, [], rfl, h⟩
    | some client =>
      have hafter : ∃ server, (if client.blocked then unblockClient w.server c client
          else w.server) = server ∧ Tracks server (update w.deadlines c none) ∧
          update server.clients c none = update w.server.clients c none := by
        split_ifs with hblocked
        · obtain ⟨htracks, hclients⟩ := h.tracks.unblockClient hc
          exact ⟨_, rfl, htracks, by rw [hclients, update_idem]⟩
        · obtain ⟨-, hD⟩ := h.not_blocked (c := c) (by simpa [hc] using hblocked)
          exact ⟨_, rfl, by rw [← hD, update_eq_self]; exact h.tracks, rfl⟩
      obtain ⟨server, hserver, htracks, hclients⟩ := hafter
      dsimp only
      rw [hserver]
      refine ⟨_, [], rfl, h.change none ?_ hclients (by simp)⟩
      exact htracks.change (update_self ..) (by simp [Knows])
  | handle now =>
    obtain ⟨w', out, hstep, hsound, -⟩ := h.handle now
    exact ⟨w', out, hstep, hsound⟩

theorem Sound.run (events : List Event) : ∃ w', w.run events = some w' ∧ w'.Sound := by
  induction events generalizing w with
  | nil => exact ⟨w, rfl, h⟩
  | cons e events ih =>
    obtain ⟨w₁, out, hstep, hsound⟩ := h.step e
    obtain ⟨w', hrun, hsound'⟩ := ih hsound
    exact ⟨w', by rw [World.run, hstep]; exact hrun, hsound'⟩

/-- The keys of the table that name a client. -/
theorem Sound.keys_of (c : ClientPtr) (key : Bytes) :
    ((raxFind w.server.clientsTimeoutTable key).isSome ∧ (decodeTimeoutKey key).2 = c) ↔
      ∃ b t, w.since c = some (b, t) ∧ 0 < t ∧ key = encodeTimeoutKey (b + t : Nat) c := by
  have hencode : ∀ {d : Nat}, w.deadlines c = some d →
      encodeTimeoutKey d c = timeoutKey d c := fun {d} hd => by
    rw [encodeTimeoutKey, timeoutKey, Int.emod_eq_of_lt (by omega)
      (by exact_mod_cast (h.tracks.ok c d hd).2), Int.toNat_natCast]
  rw [h.tracks.represents.raxFind_eq, ← ne_none_iff_isSome, Deadlines.table_ne_none]
  constructor
  · rintro ⟨⟨c', d, hd, rfl⟩, hc⟩
    rw [decodeTimeoutKey_timeoutKey (h.tracks.ok c' d hd).2] at hc
    obtain rfl : c' = c := hc
    obtain ⟨b, t, hsince, ht, rfl⟩ := deadlineOf_eq_some.mp hd
    exact ⟨b, t, hsince, ht, (hencode hd).symm⟩
  · rintro ⟨b, t, hsince, ht, rfl⟩
    have hd : w.deadlines c = some (b + t) := deadlineOf_eq_some.mpr ⟨b, t, hsince, ht, rfl⟩
    rw [hencode hd, decodeTimeoutKey_timeoutKey (h.tracks.ok c _ hd).2]
    exact ⟨⟨c, _, hd, rfl⟩, rfl⟩

end

end World

/-- In every run the table holds one key for each client that is blocked with a timeout, and no
other; and a call at any time unblocks exactly the clients whose time is over, each once. -/
theorem blocked_clients_time_out_when_due (events : List Event) :
    ∃ w, World.initial.run events = some w ∧
      (∀ c, (w.since c).isSome ↔
        ∃ client, w.server.clients c = some client ∧ client.blocked = true) ∧
      (∀ c key, ((raxFind w.server.clientsTimeoutTable key).isSome ∧
          (decodeTimeoutKey key).2 = c) ↔
        ∃ b t, w.since c = some (b, t) ∧ 0 < t ∧ key = encodeTimeoutKey (b + t : Nat) c) ∧
      ∀ now, ∃ w' out, w.step (.handle now) = some (w', out) ∧ out.Nodup ∧
        (∀ c, c ∈ out ↔ ∃ b t, w.since c = some (b, t) ∧ 0 < t ∧ b + t < now.val) ∧
        ∀ c, w'.server.clients c =
          if c ∈ out then (w.server.clients c).map Client.unblocked else w.server.clients c := by
  obtain ⟨w, hrun, hsound⟩ := World.sound_initial.run events
  refine ⟨w, hrun, hsound.blocked, hsound.keys_of, fun now => ?_⟩
  obtain ⟨w', out, hstep, -, hout⟩ := hsound.handle now
  refine ⟨w', out, hstep, hout.nodup, fun c => (hout.due c).trans ?_, hout.clients⟩
  constructor
  · rintro ⟨d, hd, hlt⟩
    obtain ⟨b, t, hsince, ht, rfl⟩ := deadlineOf_eq_some.mp hd
    exact ⟨b, t, hsince, ht, hlt⟩
  · rintro ⟨b, t, hsince, ht, hlt⟩
    exact ⟨b + t, deadlineOf_eq_some.mpr ⟨b, t, hsince, ht, rfl⟩, hlt⟩

end Run

end Redis.Blocking
