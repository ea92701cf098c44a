import Redis.Library.RingBuffer
import Redis.Networking.InputParsing

/-! The replication backlog of `replication.c`, and the partial resynchronisation that is
served from it. Offsets count the bytes of the replication stream from one on. -/
namespace Redis.Replication

open ByteBuffer Util Resp List Option RingBuffer

/-- The fields of the server that replication uses; no backlog is a `NULL` pointer. -/
structure Server where
  replBacklog : Option Bytes
  replBacklogSize : Nat
  replBacklogHistlen : Nat
  replBacklogIdx : Nat
  replBacklogOff : Int
  masterReplOffset : Int
  replid : Bytes
  replid2 : Bytes
  secondReplidOffset : Int

variable {base : Int} {stream : Bytes} {s : Server}

/-- Memory that was allocated holds whatever it held. -/
def zmalloc (memory : Nat → UInt8) (size : Nat) : Bytes := (List.range size).map memory

def createReplicationBacklog (memory : Nat → UInt8) (s : Server) : Server :=
  { s with
    replBacklog := some (zmalloc memory s.replBacklogSize)
    replBacklogHistlen := 0
    replBacklogIdx := 0
    replBacklogOff := s.masterReplOffset + 1 }

def configReplBacklogMinSize : Int := 1024 * 16

def resizeReplicationBacklog (memory : Nat → UInt8) (s : Server) (newsize : Int) : Server :=
  let newsize := if newsize < configReplBacklogMinSize then configReplBacklogMinSize else newsize
  if s.replBacklogSize = newsize then s
  else
    let s := { s with replBacklogSize := newsize.toNat }
    if s.replBacklog.isSome then createReplicationBacklog memory s else s

/-- The loop of `feedReplicationBacklog`: the buffer, the index and the history length. -/
def feedLoop (size : Nat) : Nat → Bytes → Nat → Nat → Bytes → Bytes × Nat × Nat
  | 0, buf, idx, histlen, _ => (buf, idx, histlen)
  | fuel + 1, buf, idx, histlen, p =>
    if p = [] then (buf, idx, histlen)
    else
      let thislen := if size - idx > p.length then p.length else size - idx
      let buf := store buf idx (p.take thislen)
      let idx := idx + thislen
      feedLoop size fuel buf (if idx = size then 0 else idx) (histlen + thislen) (p.drop thislen)

/-- Writing without a backlog is writing to `NULL`. -/
def feedReplicationBacklog (s : Server) (p : Bytes) : Option Server :=
  s.replBacklog.map fun buf =>
    let (buf, idx, histlen) :=
      feedLoop s.replBacklogSize p.length buf s.replBacklogIdx s.replBacklogHistlen p
    let histlen := if histlen > s.replBacklogSize then s.replBacklogSize else histlen
    let masterReplOffset := s.masterReplOffset + p.length
    { s with
      replBacklog := some buf
      replBacklogIdx := idx
      replBacklogHistlen := histlen
      masterReplOffset := masterReplOffset
      replBacklogOff := masterReplOffset - histlen + 1 }

/-- The loop of `addReplyReplicationBacklog`. -/
def replyLoop (buf : Bytes) (size : Int) : Nat → Int → Int → Bytes
  | 0, _, _ => []
  | fuel + 1, j, len =>
    if len = 0 then []
    else
      let thislen := if size - j < len then size - j else len
      (buf.drop j.toNat).take thislen.toNat ++ replyLoop buf size fuel 0 (len - thislen)

/-- The bytes that the replica is sent. -/
def addReplyReplicationBacklog (s : Server) (buf : Bytes) (offset : Int) : Bytes :=
  if s.replBacklogHistlen = 0 then []
  else
    let size : Int := s.replBacklogSize
    let skip := offset - s.replBacklogOff
    let j := (s.replBacklogIdx + (size - s.replBacklogHistlen)).tmod size
    let j := (j + skip).tmod size
    replyLoop buf size (s.replBacklogHistlen + 1) j (s.replBacklogHistlen - skip)

/-- What becomes of a `PSYNC`: a full resynchronisation, a lost connection, or the reply
line with the data behind it. -/
inductive Psync where
  | fullResync
  | connectionLost
  | resumed (line data : Bytes)
deriving DecidableEq, Repr

/-- `strcasecmp` finds no difference. -/
def sameReplid (a b : Bytes) : Bool :=
  (cString a).map toLower = (cString b).map toLower

/-- One of the IDs of the master; the second one is valid up to an offset. -/
def Server.idMatches (s : Server) (masterReplid : Bytes) (psyncOffset : Int) : Prop :=
  sameReplid masterReplid s.replid = true ∨
    sameReplid masterReplid s.replid2 = true ∧ psyncOffset ≤ s.secondReplidOffset

instance (s : Server) (masterReplid : Bytes) (psyncOffset : Int) :
    Decidable (s.idMatches masterReplid psyncOffset) :=
  inferInstanceAs (Decidable (_ ∨ _ ∧ _))

/-- The reply line, with the ID for a replica that knows `PSYNC2`. -/
def continueLine (s : Server) (psync2 : Bool) : Bytes :=
  let name : Bytes := [43, 67, 79, 78, 84, 73, 78, 85, 69]
  if psync2 then name ++ [32] ++ s.replid ++ crlf else name ++ crlf

/-- `written` says whether the reply line could be written to the socket. -/
def masterTryPartialResynchronization (s : Server) (masterReplid offset : Bytes)
    (psync2 written : Bool) : Psync :=
  match string2ll offset with
  | none => .fullResync
  | some psyncOffset =>
    if ¬s.idMatches masterReplid psyncOffset then .fullResync
    else
      match s.replBacklog with
      | none => .fullResync
      | some buf =>
        if psyncOffset < s.replBacklogOff ∨
            psyncOffset > s.replBacklogOff + s.replBacklogHistlen then .fullResync
        else if ¬written then .connectionLost
        else .resumed (continueLine s psync2) (addReplyReplicationBacklog s buf psyncOffset)

section Backlog

/-- The backlog ends with the last bytes of the stream; `base` bytes came before it. -/
structure Server.Holds (s : Server) (base : Int) (stream : Bytes) : Prop where
  buffer : ∃ buf, s.replBacklog = some buf ∧ buf.length = s.replBacklogSize ∧
    (RingBuffer.inOrder buf s.replBacklogIdx).drop (s.replBacklogSize - s.replBacklogHistlen) =
      stream.drop (stream.length - s.replBacklogHistlen)
  idx_lt : s.replBacklogIdx < s.replBacklogSize
  histlen_le : s.replBacklogHistlen ≤ s.replBacklogSize
  histlen_stream : s.replBacklogHistlen ≤ stream.length
  offset : s.masterReplOffset = base + stream.length
  first : s.replBacklogOff = s.masterReplOffset - s.replBacklogHistlen + 1

theorem zmalloc_length (memory : Nat → UInt8) (size : Nat) : (zmalloc memory size).length = size := by
  simp [zmalloc]

theorem createReplicationBacklog_holds (memory : Nat → UInt8) (hsize : 0 < s.replBacklogSize)
    (hoffset : s.masterReplOffset = base + stream.length) :
    (createReplicationBacklog memory s).Holds base stream := by
  refine ⟨⟨_, rfl, zmalloc_length _ _, ?_⟩, hsize, Nat.zero_le _, Nat.zero_le _, hoffset, ?_⟩
  · simp [createReplicationBacklog, zmalloc_length]
  · simp [createReplicationBacklog]

theorem Server.Holds.resize (h : s.Holds base stream) (memory : Nat → UInt8) (newsize : Int) :
    (resizeReplicationBacklog memory s newsize).Holds base stream := by
  obtain ⟨buf, hbuf, -⟩ := h.buffer
  rw [resizeReplicationBacklog]
  have hmin : 0 < if newsize < configReplBacklogMinSize then configReplBacklogMinSize else newsize := by
    rw [configReplBacklogMinSize]
    split_ifs <;> omega
  generalize (if newsize < configReplBacklogMinSize then configReplBacklogMinSize else newsize) =
    size at hmin
  split_ifs with hsame
  · exact h
  · simp only [hbuf, isSome_some, if_true]
    exact createReplicationBacklog_holds memory (by omega : 0 < size.toNat) h.offset

/-- The loop writes all of its bytes behind what is there. -/
theorem feedLoop_spec {size fuel : Nat} {p buf : Bytes} {idx : Nat} (histlen : Nat)
    (hbuf : buf.length = size) (hidx : idx < size) (hfuel : p.length ≤ fuel) :
    ∃ buf' idx', feedLoop size fuel buf idx histlen p = (buf', idx', histlen + p.length) ∧
      buf'.length = size ∧ idx' < size ∧
      inOrder buf' idx' = (inOrder buf idx ++ p).drop p.length := by
  induction fuel generalizing p buf idx histlen with
  | zero =>
    obtain rfl : p = [] := eq_nil_of_length_eq_zero (by omega)
    exact ⟨buf, idx, rfl, hbuf, hidx, by simp⟩
  | succ fuel ih =>
    rcases eq_or_ne p [] with rfl | hp
    · exact ⟨buf, idx, by rw [feedLoop, if_pos rfl]; rfl, hbuf, hidx, by simp⟩
    · have hpos := length_pos_of_ne_nil hp
      set thislen := if size - idx > p.length then p.length else size - idx with hthis
      have hle : thislen ≤ p.length ∧ idx + thislen ≤ size ∧ 0 < thislen := by
        rw [hthis]
        split_ifs <;> omega
      have hchunk : (p.take thislen).length = thislen := length_take_of_le hle.1
      have hfits : idx + (p.take thislen).length ≤ buf.length := by omega
      have hround : feedLoop size (fuel + 1) buf idx histlen p =
          feedLoop size fuel (write buf idx (p.take thislen))
            (if idx + thislen = size then 0 else idx + thislen) (histlen + thislen)
            (p.drop thislen) := by
        rw [feedLoop, if_neg hp]
        rfl
      have hlen := write_length hfits
      have hwrite := inOrder_write hfits
      rw [hchunk] at hwrite
      have hwrap := inOrder_wrap (write buf idx (p.take thislen))
        (idx + thislen)
      rw [hlen, hbuf] at hwrap
      obtain ⟨buf', idx', hloop, hbuf', hidx', horder⟩ := ih (p := p.drop thislen)
        (histlen + thislen) (hlen.trans hbuf)
        (show (if idx + thislen = size then 0 else idx + thislen) < size by split_ifs <;> omega)
        (by rw [length_drop]; omega)
      refine ⟨buf', idx', ?_, hbuf', hidx', ?_⟩
      · rw [hround, hloop, length_drop]
        congr 2
        omega
      · have hold : thislen ≤ (inOrder buf idx).length := by
          rw [inOrder_length]
          omega
        rw [horder, hwrap, hwrite, append_assoc, take_append_drop,
          ← drop_append_of_le_length hold, drop_drop, length_drop]
        congr 1
        omega

theorem Server.Holds.feed (h : s.Holds base stream) (p : Bytes) :
    ∃ s', feedReplicationBacklog s p = some s' ∧ s'.Holds base (stream ++ p) := by
  obtain ⟨buf, hbuf, hlen, hhist⟩ := h.buffer
  have hidx := h.idx_lt
  have hle := h.histlen_le
  have hstream := h.histlen_stream
  obtain ⟨buf', idx', hloop, hlen', hidx', horder⟩ :=
    feedLoop_spec s.replBacklogHistlen hlen hidx (le_refl p.length)
  rw [feedReplicationBacklog, hbuf, map_some]
  refine ⟨_, rfl, ?_⟩
  simp only [hloop]
  set histlen := if s.replBacklogHistlen + p.length > s.replBacklogSize then s.replBacklogSize
    else s.replBacklogHistlen + p.length with hhistlen
  have hbound : histlen ≤ s.replBacklogSize ∧ histlen ≤ s.replBacklogHistlen + p.length := by
    rw [hhistlen]
    split_ifs <;> omega
  refine ⟨⟨buf', rfl, hlen', ?_⟩, hidx', hbound.1, ?_, ?_, rfl⟩
  · -- both sides are the last bytes of the history with the new bytes behind it
    have hsplit : inOrder buf s.replBacklogIdx ++ p =
        (inOrder buf s.replBacklogIdx).take (s.replBacklogSize - s.replBacklogHistlen) ++
          (stream ++ p).drop (stream.length - s.replBacklogHistlen) := by
      rw [drop_append_of_le_length (by omega), ← hhist, ← append_assoc,
        take_append_drop]
    have hfront : ((inOrder buf s.replBacklogIdx).take
        (s.replBacklogSize - s.replBacklogHistlen)).length =
          s.replBacklogSize - s.replBacklogHistlen :=
      length_take_of_le (by rw [inOrder_length]; omega)
    dsimp only
    rw [horder, drop_drop, hsplit, drop_append, drop_of_length_le (by omega),
      nil_append, drop_drop, hfront, length_append]
    congr 1
    omega
  · dsimp only
    rw [length_append]
    omega
  · rw [h.offset, length_append]
    push_cast
    omega

/-- The bytes of the buffer from an index on, and around its end. -/
theorem replyLoop_eq {buf : Bytes} {j len fuel : Nat} (hj : j < buf.length) (hlen : len ≤ buf.length)
    (hfuel : len < fuel) :
    replyLoop buf buf.length fuel j len = (inOrder buf j).take len := by
  -- a second round starts at the beginning of the buffer and does not reach its end
  have hsecond : ∀ n fuel, n ≤ buf.length → n < fuel → replyLoop buf buf.length fuel 0 n = buf.take n := by
    intro n fuel hn hfuel
    obtain ⟨fuel, rfl⟩ := Nat.exists_eq_succ_of_ne_zero (by omega : fuel ≠ 0)
    rw [replyLoop]
    split_ifs with hzero
    · obtain rfl : n = 0 := by omega
      rfl
    · omega
    · cases fuel with
      | zero | succ fuel => simp [replyLoop]
  obtain ⟨fuel, rfl⟩ := Nat.exists_eq_succ_of_ne_zero (by omega : fuel ≠ 0)
  rw [replyLoop]
  split_ifs with hzero hwrap
  · obtain rfl : len = 0 := by omega
    rfl
  · have hrest : (len : Int) - ((buf.length : Int) - j) = (len - (buf.length - j) : Nat) := by omega
    have hthis : ((buf.length : Int) - j).toNat = buf.length - j := by omega
    dsimp only
    rw [hrest, hsecond _ _ (by omega) (by omega), hthis, Int.toNat_natCast,
      take_of_length_le (by rw [length_drop]), inOrder_take hj.le (by omega),
      min_eq_left (by omega)]
  · rw [inOrder, rotate_eq_drop_append_take hj.le,
      take_append_of_le_length (by rw [length_drop]; omega)]
    cases fuel with
    | zero | succ fuel => simp [replyLoop]

/-- The reply from an offset that the backlog has is the stream from there on. -/
theorem Server.Holds.addReplyReplicationBacklog_eq (h : s.Holds base stream) {buf : Bytes}
    (hbuf : s.replBacklog = some buf) {n : Nat} (hn : n ≤ s.replBacklogHistlen) :
    addReplyReplicationBacklog s buf (s.masterReplOffset - n + 1) =
      stream.drop (stream.length - n) := by
  obtain ⟨buf', hbuf', hlen, hhist⟩ := h.buffer
  obtain rfl : buf = buf' := some.inj (hbuf.symm.trans hbuf')
  have hle := h.histlen_le
  have hstream := h.histlen_stream
  have hfirst := h.first
  rw [addReplyReplicationBacklog]
  split_ifs with hzero
  · obtain rfl : n = 0 := by omega
    rw [Nat.sub_zero, drop_length]
  · set skip := s.replBacklogHistlen - n with hskip
    have hj : (((s.replBacklogIdx : Int) + ((s.replBacklogSize : Int) - s.replBacklogHistlen)).tmod
        s.replBacklogSize + (s.masterReplOffset - n + 1 - s.replBacklogOff)).tmod
          s.replBacklogSize =
        ((s.replBacklogIdx + (s.replBacklogSize - s.replBacklogHistlen + skip)) %
          buf.length : Nat) := by
      have hcast : (s.replBacklogIdx : Int) + ((s.replBacklogSize : Int) - s.replBacklogHistlen) =
          (s.replBacklogIdx + (s.replBacklogSize - s.replBacklogHistlen) : Nat) := by omega
      have hoff : s.masterReplOffset - n + 1 - s.replBacklogOff = (skip : Int) := by omega
      rw [hcast, hoff, ← Int.ofNat_tmod, ← Nat.cast_add, ← Int.ofNat_tmod, Nat.mod_add_mod, hlen,
        add_assoc]
    have hrest : (s.replBacklogHistlen : Int) - (s.masterReplOffset - n + 1 - s.replBacklogOff) =
        (n : Nat) := by omega
    have hpos : 0 < buf.length := by omega
    simp only [hj, hrest]
    rw [← hlen, replyLoop_eq (Nat.mod_lt _ hpos) (by omega) (by omega),
      inOrder_add (by omega) n (by omega), hlen, ← drop_drop, hhist,
      drop_drop, take_of_length_le (by rw [length_drop]; omega)]
    congr 1
    omega

end Backlog

section Runs

/-- What is done with the backlog once it is there. -/
inductive Call where
  | feed (p : Bytes)
  | resize (memory : Nat → UInt8) (newsize : Int)

def Call.bytes : Call → Bytes
  | .feed p => p
  | .resize _ _ => []

def Call.apply (s : Server) : Call → Option Server
  | .feed p => feedReplicationBacklog s p
  | .resize memory newsize => some (resizeReplicationBacklog memory s newsize)

theorem Server.Holds.run (h : s.Holds base stream) (calls : List Call) :
    ∃ s', calls.foldlM Call.apply s = some s' ∧
      s'.Holds base (stream ++ calls.flatMap Call.bytes) := by
  induction calls generalizing s stream with
  | nil => exact ⟨s, rfl, by simpa using h⟩
  | cons call calls ih =>
    have hcall : ∃ s', call.apply s = some s' ∧ s'.Holds base (stream ++ call.bytes) := by
      cases call with
      | feed p => exact h.feed p
      | resize memory newsize => exact ⟨_, rfl, by simpa [Call.bytes] using h.resize memory newsize⟩
    obtain ⟨s', happly, hholds⟩ := hcall
    obtain ⟨s'', hrun, hholds⟩ := ih hholds
    refine ⟨s'', ?_, by simpa using hholds⟩
    rw [foldlM_cons, happly]
    exact hrun

end Runs

section Replica

open Networking.Input

theorem Server.Holds.resumed (h : s.Holds base stream) {n : Nat} {id ask line data : Bytes}
    {psync2 : Bool} (hask : string2ll ask = some (base + n + 1))
    (hresumed : masterTryPartialResynchronization s id ask psync2 true = .resumed line data) :
    data = stream.drop n := by
  obtain ⟨buf, hbuf, -⟩ := h.buffer
  simp only [masterTryPartialResynchronization, hask, hbuf] at hresumed
  split_ifs at hresumed
  obtain ⟨-, rfl⟩ := Psync.resumed.inj hresumed
  have hfirst := h.first
  have hmaster := h.offset
  have hn : base + n + 1 = s.masterReplOffset - (stream.length - n : Nat) + 1 := by omega
  rw [hn, h.addReplyReplicationBacklog_eq hbuf (by omega)]
  congr 1
  omega

/-- A replica that asks for the stream behind its last command executes exactly the commands that
it missed, however they are cut into reads, and ends at the offset of the master. The commands
are such as a master link allows, which has no bound on their length, and none of them makes the
replica stop reading. -/
theorem resumed_replica_catches_up {σ : Type} (srv : Networking.Input.Server σ) (s₀ : Server)
    (memory : Nat → UInt8) (size : Nat) (calls : List Call) :
    ∃ s, calls.foldlM Call.apply
        (createReplicationBacklog memory { s₀ with replBacklogSize := size + 1 }) = some s ∧
      ∀ (old new : List (List Bytes)) (state : σ) (id ask line : Bytes) (psync2 : Bool)
        (reads : List Bytes), calls.flatMap Call.bytes = encodeAll (old ++ new) →
        (∀ cmd ∈ new, Sendable srv true cmd) →
        (∀ k, srv.halted ((new.take k).foldl srv.processCommand state) = false) →
        let offset := s₀.masterReplOffset + (encodeAll old).length
        string2ll ask = some (offset + 1) →
        masterTryPartialResynchronization s id ask psync2 true = .resumed line reads.flatten →
        let result := readAll srv (createClient true offset state) reads
        result.2.map Executed.argv = new ∧ result.1.state = new.foldl srv.processCommand state ∧
          result.1.readReploff = s.masterReplOffset := by
  have hcreated : (createReplicationBacklog memory { s₀ with replBacklogSize := size + 1 }).Holds
      s₀.masterReplOffset [] := createReplicationBacklog_holds memory (Nat.succ_pos size) (by simp)
  obtain ⟨s, hrun, h⟩ := hcreated.run calls
  refine ⟨s, hrun, ?_⟩
  intro old new state id ask line psync2 reads hfed hnew hlive offset hask hresumed
  rw [nil_append, hfed, encodeAll_append] at h
  have hreads : reads.flatten ++ [] = encodeAll new := by
    rw [append_nil, h.resumed hask hresumed, drop_left]
  have hstart : Awaits (createClient true offset state) new (encodeAll new) :=
    .request rfl rfl rfl (by simp [createClient])
  have hlisten : Listening srv (createClient true offset state) new (reads.flatten ++ [])
      (offset + (encodeAll new).length) :=
    ⟨fun _ => by rw [hreads]; rfl, Nat.zero_le _, hnew, ⟨_, hstart, hreads⟩, hlive⟩
  obtain ⟨left, hex⟩ := readAll_spec hlisten
    (by rintro cmd rest rfl; rw [hreads]; exact hstart.length_lt)
  obtain rfl : left = [] := by
    cases left with
    | nil => rfl
    | cons cmd rest => exact absurd (hex.missing cmd rest rfl) (Nat.not_lt_zero _)
  have hargv := hex.split.trans (append_nil _)
  refine ⟨hargv.symm, ?_, ?_⟩
  · rw [hargv]
    exact hex.state
  · have hoffset : offset = s₀.masterReplOffset + (encodeAll old).length := rfl
    have hread := hex.readReploff rfl
    rw [length_nil] at hread
    rw [h.offset, length_append]
    omega

/-- The master has sent `PING` and another command, and a backlog of twenty bytes holds the end of
them. The replica missed the second one, and its bytes arrive cut inside the argument. -/
theorem resumed_replica_catches_up_cut :
    ∃ s, [Call.feed [42, 49, 13, 10, 36, 52, 13, 10, 80, 73, 78, 71, 13, 10], .feed
        [42, 49, 13, 10, 36, 50, 13, 10, 13, 10, 13, 10]].foldlM Call.apply
        (createReplicationBacklog (fun _ => 0) ⟨none, 20, 0, 0, 0, 7, [97], [98], -1⟩) = some s ∧
      masterTryPartialResynchronization s [97] [50, 50] false true =
        .resumed [43, 67, 79, 78, 84, 73, 78, 85, 69, 13, 10]
          [42, 49, 13, 10, 36, 50, 13, 10, 13, 10, 13, 10] ∧
      let result := readAll countingServer (createClient true 21 1)
        [[42, 49, 13, 10, 36, 50, 13, 10, 13], [10, 13, 10]]
      result.2.map Executed.argv = [[[13, 10]]] ∧ result.1.state = 2 ∧
        result.1.readReploff = s.masterReplOffset := by
  obtain ⟨s, hrun, hcatch⟩ := resumed_replica_catches_up countingServer
    ⟨none, 20, 0, 0, 0, 7, [97], [98], -1⟩ (fun _ => 0) 19
    [.feed [42, 49, 13, 10, 36, 52, 13, 10, 80, 73, 78, 71, 13, 10],
      .feed [42, 49, 13, 10, 36, 50, 13, 10, 13, 10, 13, 10]]
  have hresumed : masterTryPartialResynchronization s [97] [50, 50] false true =
      .resumed [43, 67, 79, 78, 84, 73, 78, 85, 69, 13, 10]
        [42, 49, 13, 10, 36, 50, 13, 10, 13, 10, 13, 10] := by
    obtain rfl := some.inj hrun
    decide
  have hsendable : ∀ cmd ∈ [[[13, 10]]], Sendable countingServer true cmd := by
    simp [Sendable, Networking.Input.Server.bulkLimit]
  exact ⟨s, hrun, hresumed, hcatch [[[80, 73, 78, 71]]] [[[13, 10]]] 1 [97] [50, 50] _ false
    [[42, 49, 13, 10, 36, 50, 13, 10, 13], [10, 13, 10]] (by decide) hsendable (fun _ => rfl)
    (by decide) hresumed⟩

end Replica

end Redis.Replication
