import Redis.Networking.Output

/-! What a client receives, and what is still queued for it, is what was replied,
in the order of the replies. -/
namespace Redis.Networking

open ByteBuffer Simulation List

variable {reply : List Node} {id : Nat}
variable {b : Block} {d hdr : Bytes} {l : List Token}

/-- A byte of the output, or a place that is kept for a length. -/
inductive Token where
  | byte (b : UInt8)
  | hole (id : Nat)
deriving DecidableEq, Repr

def bytes (s : Bytes) : List Token := s.map .byte

/-- Put bytes in the place of a hole. -/
def substitute (id : Nat) (s : Bytes) (l : List Token) : List Token :=
  l.flatMap fun t => if t = .hole id then bytes s else [t]

def Node.tokens : Node → List Token
  | .placeholder id => [.hole id]
  | .block b => bytes b.buf

def Node.size : Node → Nat
  | .placeholder _ => 0
  | .block b => b.size

/-- The number of a placeholder. -/
def Node.number : Node → Option Nat
  | .placeholder id => some id
  | .block _ => none

def listTokens (reply : List Node) : List Token := reply.flatMap Node.tokens

def listSize (reply : List Node) : Nat := (reply.map Node.size).sum

/-- All that the buffers hold, with the part of the first one that is sent. -/
def Client.held (c : Client) : List Token := bytes c.buf ++ listTokens c.reply

/-- What is still to be sent. -/
def Client.queued (c : Client) : List Token := c.held.drop c.sentlen

structure Client.Ok (c : Client) : Prop where
  filled : ∀ b, .block b ∈ c.reply → b.buf ≠ []
  numbered : ∀ id, .placeholder id ∈ c.reply → id < c.deferred
  nodup : (c.reply.filterMap Node.number).Nodup
  size : c.replyBytes = listSize c.reply
  opened : c.closeAfterReply = false
  /-- The part that is sent is a proper part of the first buffer. -/
  sent : c.sentlen = 0 ∨ c.sentlen < c.buf.length ∨
    (c.buf = [] ∧ ∃ b rest, c.reply = .block b :: rest ∧ c.sentlen < b.buf.length)

theorem createClient_ok : createClient.Ok :=
  ⟨by simp [createClient], by simp [createClient], by simp [createClient], rfl, rfl, .inl rfl⟩

@[simp] theorem bytes_append (s t : Bytes) : bytes (s ++ t) = bytes s ++ bytes t := map_append

@[simp] theorem listTokens_cons (n : Node) (reply : List Node) :
    listTokens (n :: reply) = n.tokens ++ listTokens reply := flatMap_cons

@[simp] theorem listTokens_append (l m : List Node) :
    listTokens (l ++ m) = listTokens l ++ listTokens m := flatMap_append

@[simp] theorem listSize_cons (n : Node) (reply : List Node) :
    listSize (n :: reply) = n.size + listSize reply := by simp [listSize]

@[simp] theorem listSize_append (l m : List Node) :
    listSize (l ++ m) = listSize l + listSize m := by simp [listSize]

section Sent

variable {c : Client}

/-- The part that is sent is made of bytes. -/
theorem Client.Ok.sent_bytes (h : c.Ok) :
    ∃ s r, c.held = bytes s ++ r ∧ s.length = c.sentlen := by
  rcases h.sent with hzero | hbuf | ⟨hnil, b, rest, hreply, hlt⟩
  · exact ⟨[], c.held, rfl, hzero.symm⟩
  · refine ⟨c.buf.take c.sentlen, bytes (c.buf.drop c.sentlen) ++ listTokens c.reply, ?_, ?_⟩
    · rw [← append_assoc, ← bytes_append, take_append_drop]
      rfl
    · rw [length_take]
      omega
  · refine ⟨b.buf.take c.sentlen, bytes (b.buf.drop c.sentlen) ++ listTokens rest, ?_, ?_⟩
    · rw [Client.held, hnil, hreply, ← append_assoc, ← bytes_append, take_append_drop]
      rfl
    · rw [length_take]
      omega

theorem Client.Ok.sentlen_le (h : c.Ok) : c.sentlen ≤ c.held.length := by
  obtain ⟨s, r, hheld, hlen⟩ := h.sent_bytes
  rw [hheld, length_append, bytes, length_map]
  omega

end Sent

/-- What an operation on the list of blocks leaves: all blocks in use, and only
placeholders that were there. -/
structure Keeps (reply reply' : List Node) : Prop where
  filled : (∀ b, .block b ∈ reply → b.buf ≠ []) → ∀ b, .block b ∈ reply' → b.buf ≠ []
  numbers : (reply'.filterMap Node.number).Sublist (reply.filterMap Node.number)
  head : ∀ b rest, reply = .block b :: rest →
    ∃ b' rest', reply' = .block b' :: rest' ∧ b.buf.length ≤ b'.buf.length

theorem mem_numbers : id ∈ reply.filterMap Node.number ↔ .placeholder id ∈ reply := by
  rw [mem_filterMap]
  constructor
  · rintro ⟨n, hn, hid⟩
    cases n with
    | placeholder ln =>
      obtain rfl : ln = id := by simpa [Node.number] using hid
      exact hn
    | block b => cases hid
  · exact fun h => ⟨_, h, rfl⟩

theorem Keeps.refl (reply : List Node) : Keeps reply reply :=
  ⟨fun h => h, List.Sublist.refl _, fun b rest h => ⟨b, rest, h, le_refl _⟩⟩

theorem Keeps.cons (n : Node) {reply reply' : List Node} (h : Keeps reply reply') :
    Keeps (n :: reply) (n :: reply') := by
  refine ⟨?_, ?_, ?_⟩
  · intro hfilled b hb
    rcases mem_cons.mp hb with rfl | hb
    · exact hfilled b (mem_cons_self ..)
    · exact h.filled (fun x hx => hfilled x (mem_cons_of_mem _ hx)) b hb
  · cases n with
    | placeholder id => exact h.numbers.cons_cons id
    | block b => exact h.numbers
  · intro b rest heq
    obtain ⟨rfl, _⟩ := cons.inj heq
    exact ⟨b, reply', rfl, le_refl _⟩

/-- The first nodes are replaced by one block. -/
theorem Keeps.replaced (n : Node) (front : List Node)
    (hb : (∀ x, .block x ∈ n :: front → x.buf ≠ []) → b.buf ≠ [])
    (hhead : ∀ x, n = .block x → x.buf.length ≤ b.buf.length) (rest : List Node) :
    Keeps (n :: front ++ rest) (.block b :: rest) := by
  refine ⟨fun hfilled x hx => ?_, ?_, ?_⟩
  · rcases mem_cons.mp hx with heq | hx
    · rw [Node.block.inj heq]
      exact hb fun y hy => hfilled y (mem_append_left _ hy)
    · exact hfilled x (mem_append_right _ hx)
  · rw [filterMap_append]
    exact sublist_append_right _ _
  · rintro x rest' heq
    exact ⟨b, rest, rfl, hhead x (cons.inj heq).1⟩

/-- A block is replaced by one that holds at least as much. -/
theorem Keeps.grown {b' : Block} (h : b.buf.length ≤ b'.buf.length) (rest : List Node) :
    Keeps (.block b :: rest) (.block b' :: rest) :=
  .replaced (.block b) [] (fun hfilled => ne_nil_of_length_pos
    ((length_pos_of_ne_nil (hfilled b mem_cons_self)).trans_le h)) (by rintro x ⟨⟩; exact h) rest

section Tail

/-- What is copied into the last block and what is left over is the reply. -/
theorem fillTail_spec (reply : List Node) (s : Bytes) :
    Keeps reply (fillTail reply s).1 ∧ listSize (fillTail reply s).1 = listSize reply ∧
      listTokens (fillTail reply s).1 ++ bytes (fillTail reply s).2 =
        listTokens reply ++ bytes s := by
  induction reply with
  | nil => exact ⟨Keeps.refl _, rfl, rfl⟩
  | cons n reply ih =>
    cases reply with
    | nil =>
      cases n with
      | placeholder id => exact ⟨Keeps.refl _, rfl, rfl⟩
      | block b =>
        have hlen : b.buf.length ≤ (b.fill s).buf.length := by
          rw [Block.fill, length_append]
          exact Nat.le_add_right _ _
        refine ⟨Keeps.grown hlen [], rfl, ?_⟩
        have hsplit := congrArg bytes (take_append_drop (b.size - b.buf.length) s)
        rw [bytes_append] at hsplit
        simp [fillTail, Node.tokens, Block.fill, listTokens, hsplit]
    | cons m reply =>
      obtain ⟨hkeeps, hsize, htokens⟩ := ih
      have hstep : fillTail (n :: m :: reply) s =
          (n :: (fillTail (m :: reply) s).1, (fillTail (m :: reply) s).2) := by
        cases n <;> rfl
      rw [hstep]
      refine ⟨hkeeps.cons n, ?_, ?_⟩
      · rw [listSize_cons, hsize, ← listSize_cons]
      · rw [listTokens_cons, append_assoc, htokens, ← append_assoc, ← listTokens_cons]

theorem trimTail_spec (reply : List Node) (slack : Nat) :
    Keeps reply (trimTail reply slack).1 ∧
      (listSize (trimTail reply slack).1 : Int) = listSize reply + (trimTail reply slack).2 ∧
      listTokens (trimTail reply slack).1 = listTokens reply := by
  induction reply with
  | nil => exact ⟨Keeps.refl _, rfl, rfl⟩
  | cons n reply ih =>
    cases reply with
    | nil =>
      cases n with
      | placeholder id => exact ⟨Keeps.refl _, rfl, rfl⟩
      | block b =>
        have hlen : b.buf.length ≤
            (Block.new b.buf b.buf.length slack (le_refl _)).buf.length := le_refl _
        rw [trimTail]
        split_ifs
        · exact ⟨Keeps.grown hlen [], by simp [Node.size, listSize], rfl⟩
        · exact ⟨Keeps.refl _, by simp, rfl⟩
    | cons m reply =>
      obtain ⟨hkeeps, hsize, htokens⟩ := ih
      have hstep : trimTail (n :: m :: reply) slack =
          (n :: (trimTail (m :: reply) slack).1, (trimTail (m :: reply) slack).2) := by
        cases n <;> rfl
      rw [hstep]
      refine ⟨hkeeps.cons n, ?_, ?_⟩
      · rw [listSize_cons, listSize_cons n]
        omega
      · rw [listTokens_cons, htokens, ← listTokens_cons]

end Tail

section Fill

variable {id : Nat} {s : Bytes}

theorem substitute_append (l m : List Token) :
    substitute id s (l ++ m) = substitute id s l ++ substitute id s m := flatMap_append

theorem substitute_bytes (t : Bytes) : substitute id s (bytes t) = bytes t := by
  induction t with
  | nil => rfl
  | cons b t ih => exact congrArg (Token.byte b :: ·) ih

/-- Other placeholders stay. -/
theorem substitute_listTokens (h : id ∉ reply.filterMap Node.number) :
    substitute id s (listTokens reply) = listTokens reply := by
  induction reply with
  | nil => rfl
  | cons n reply ih =>
    rw [listTokens_cons, substitute_append]
    cases n with
    | placeholder ln =>
      have hne : ln ≠ id := by
        rintro rfl
        exact h (by simp [Node.number])
      rw [ih (fun hmem => h (by simp [Node.number] at hmem ⊢; exact .inr hmem))]
      simp [Node.tokens, substitute, hne]
    | block b =>
      rw [ih (fun hmem => h (by simpa [Node.number] using hmem))]
      simp [Node.tokens, substitute_bytes]

/-- The placeholder stands at the front of the list. -/
theorem setDeferred_head (id : Nat) (hhdr : hdr ≠ []) (slack : Nat) (rest : List Node) :
    let r := setDeferred id hdr slack (.placeholder id :: rest)
    Keeps (.placeholder id :: rest) r.1 ∧ (listSize r.1 : Int) = listSize rest + r.2 ∧
      listTokens r.1 = bytes hdr ++ listTokens rest := by
  have hplaced : Keeps (.placeholder id :: rest)
      (.block (Block.new hdr hdr.length slack (le_refl _)) :: rest) :=
    .replaced (.placeholder id) [] (fun _ => hhdr) nofun rest
  cases rest with
  | nil =>
    simp only [setDeferred, if_true]
    exact ⟨hplaced, by simp [Node.size, listSize], rfl⟩
  | cons n rest =>
    cases n with
    | placeholder ln =>
      simp only [setDeferred, if_true]
      exact ⟨hplaced, by simp [Node.size]; omega, rfl⟩
    | block next =>
      simp only [setDeferred, if_true]
      split_ifs with hroom
      · refine ⟨.replaced (.placeholder id) [.block next] (fun _ => ?_) nofun rest, ?_, ?_⟩
        · simp [Block.glue, hhdr]
        · simp [Node.size, Block.glue]
        · simp [Node.tokens, Block.glue]
      · exact ⟨hplaced, by simp [Node.size]; omega, rfl⟩

/-- Filling a placeholder puts the length in its place. -/
theorem setDeferred_spec (hhdr : hdr ≠ []) (slack : Nat)
    (hmem : .placeholder id ∈ reply) (hnodup : (reply.filterMap Node.number).Nodup) :
    let r := setDeferred id hdr slack reply
    Keeps reply r.1 ∧ (listSize r.1 : Int) = listSize reply + r.2 ∧
      listTokens r.1 = substitute id hdr (listTokens reply) := by
  induction reply with
  | nil => cases hmem
  | cons n reply ih =>
    have hlater : ∀ (hne : n ≠ .placeholder id), setDeferred id hdr slack (n :: reply) =
        (n :: (setDeferred id hdr slack reply).1, (setDeferred id hdr slack reply).2) →
        let r := setDeferred id hdr slack (n :: reply)
        Keeps (n :: reply) r.1 ∧ (listSize r.1 : Int) = listSize (n :: reply) + r.2 ∧
          listTokens r.1 = substitute id hdr (listTokens (n :: reply)) := by
      intro hne hstep
      have hin : .placeholder id ∈ reply := (mem_cons.mp hmem).resolve_left hne.symm
      have hsub : (reply.filterMap Node.number).Sublist ((n :: reply).filterMap Node.number) :=
        (sublist_cons_self n reply).filterMap _
      obtain ⟨hkeeps, hsize, htokens⟩ := ih hin (hnodup.sublist hsub)
      rw [hstep]
      refine ⟨hkeeps.cons n, ?_, ?_⟩
      · rw [listSize_cons, listSize_cons]
        omega
      · have hhere : substitute id hdr n.tokens = n.tokens := by
          cases n with
          | placeholder ln =>
            have hln : ln ≠ id := fun h => hne (by rw [h])
            simp [Node.tokens, substitute, hln]
          | block b => exact substitute_bytes b.buf
        rw [listTokens_cons, htokens, listTokens_cons, substitute_append, hhere]
    cases n with
    | placeholder ln =>
      by_cases hln : ln = id
      · subst hln
        obtain ⟨hkeeps, hsize, htokens⟩ := setDeferred_head ln hhdr slack reply
        have hnot : ln ∉ reply.filterMap Node.number := (nodup_cons.mp hnodup).1
        refine ⟨hkeeps, ?_, ?_⟩
        · simpa [Node.size] using hsize
        · rw [htokens, listTokens_cons, substitute_append, substitute_listTokens hnot]
          simp [Node.tokens, substitute]
      · exact hlater (by simpa using hln) (by simp [setDeferred, hln])
    | block b => exact hlater (by simp) rfl

end Fill

section Client

variable {c : Client}

variable (h : c.Ok)
include h

/-- The client after its list of blocks was changed. -/
theorem Client.Ok.update (hkeeps : Keeps c.reply reply) {replyBytes : Int}
    (hsize : replyBytes = listSize reply) : ({ c with reply, replyBytes } : Client).Ok := by
  refine ⟨hkeeps.filled h.filled, ?_, h.nodup.sublist hkeeps.numbers, hsize, h.opened, ?_⟩
  · intro id hid
    exact h.numbered id (mem_numbers.mp (hkeeps.numbers.mem (mem_numbers.mpr hid)))
  · rcases h.sent with hzero | hbuf | ⟨hnil, b, rest, hreply, hlt⟩
    · exact .inl hzero
    · exact .inr (.inl hbuf)
    · obtain ⟨b', rest', hreply', hle⟩ := hkeeps.head b rest hreply
      exact .inr (.inr ⟨hnil, b', rest', hreply', lt_of_lt_of_le hlt hle⟩)

/-- A node is added at the end. -/
theorem Client.Ok.push (n : Node) (hfilled : ∀ b, n = .block b → b.buf ≠ [])
    {deferred : Nat} (hle : c.deferred ≤ deferred)
    (hnumber : ∀ id, n = .placeholder id → c.deferred ≤ id ∧ id < deferred) :
    ({ c with reply := c.reply ++ [n], replyBytes := c.replyBytes + n.size, deferred } : Client).Ok := by
  refine ⟨?_, ?_, ?_, ?_, h.opened, ?_⟩
  · intro b hb
    rcases mem_append.mp hb with hb | hb
    · exact h.filled b hb
    · exact hfilled b (mem_singleton.mp hb).symm
  · intro id hid
    rcases mem_append.mp hid with hid | hid
    · exact lt_of_lt_of_le (h.numbered id hid) hle
    · exact (hnumber id (mem_singleton.mp hid).symm).2
  · rw [filterMap_append, nodup_append']
    refine ⟨h.nodup, ?_, ?_⟩
    · cases n with
      | placeholder ln => exact nodup_singleton ln
      | block b => exact nodup_nil
    · intro id hid hn
      cases n with
      | block b => cases hn
      | placeholder ln =>
        obtain rfl : id = ln := by simpa [Node.number] using hn
        have hlt := h.numbered id (mem_numbers.mp hid)
        have hge := (hnumber id rfl).1
        omega
  · rw [h.size, listSize_append]
    simp [listSize]
  · rcases h.sent with hzero | hbuf | ⟨hnil, b, rest, hreply, hlt⟩
    · exact .inl hzero
    · exact .inr (.inl hbuf)
    · exact .inr (.inr ⟨hnil, b, rest ++ [n], by simp [hreply], hlt⟩)

/-- More output does not touch what is already sent of the first buffer. -/
theorem Client.Ok.queued_append (c' : Client)
    (hheld : c'.held = c.held ++ l) (hsent : c'.sentlen = c.sentlen) :
    c'.queued = c.queued ++ l := by
  rw [Client.queued, hheld, hsent, drop_append_of_le_length h.sentlen_le]
  rfl

theorem addReplyProtoToList_spec (s : Bytes) (slack : Nat) : (addReplyProtoToList c s slack).Ok ∧
    (addReplyProtoToList c s slack).queued = c.queued ++ bytes s ∧
    (addReplyProtoToList c s slack).deferred = c.deferred := by
  obtain ⟨hkeeps, hsize, htokens⟩ := fillTail_spec c.reply s
  have hfill : ({ c with reply := (fillTail c.reply s).1 } : Client).Ok :=
    h.update hkeeps (by rw [h.size, hsize])
  rw [addReplyProtoToList, if_neg (by simp [h.opened])]
  simp only
  split_ifs with hrest
  · refine ⟨hfill, h.queued_append _ ?_ rfl, rfl⟩
    rw [hrest] at htokens
    rw [Client.held, Client.held, append_assoc, ← htokens]
    simp [bytes]
  · refine ⟨hfill.push (.block _) ?_ (le_refl _) (by simp), h.queued_append _ ?_ rfl, rfl⟩
    · intro b hb
      rw [← Node.block.inj hb]
      exact hrest
    · rw [Client.held, Client.held, append_assoc, ← htokens]
      simp [listTokens, Node.tokens, Block.new]

theorem addReplyProto_spec (s : Bytes) (slack : Nat) :
    (addReplyProto c s slack).Ok ∧ (addReplyProto c s slack).queued = c.queued ++ bytes s ∧
      (addReplyProto c s slack).deferred = c.deferred := by
  have hlist := addReplyProtoToList_spec h s slack
  rw [addReplyProto, addReplyToBuffer, if_neg (by simp [h.opened])]
  split_ifs with hreply hroom
  · exact hlist
  · exact hlist
  · rw [not_not] at hreply
    refine ⟨⟨h.filled, h.numbered, h.nodup, h.size, h.opened, ?_⟩, h.queued_append _ ?_ rfl, rfl⟩
    · rcases h.sent with hzero | hbuf | ⟨_, b, rest, hcons, _⟩
      · exact .inl hzero
      · right; left
        rw [length_append]
        exact lt_of_lt_of_le hbuf (Nat.le_add_right _ _)
      · rw [hreply] at hcons
        cases hcons
    · simp [Client.held, hreply, listTokens]

theorem addReplyDeferredLen_spec (slack : Nat) : (addReplyDeferredLen c slack).Ok ∧
    (addReplyDeferredLen c slack).queued = c.queued ++ [.hole c.deferred] ∧
    (addReplyDeferredLen c slack).deferred = c.deferred + 1 := by
  obtain ⟨hkeeps, hsize, htokens⟩ := trimTail_spec c.reply slack
  have htrim : (trimReplyUnusedTailSpace c slack).Ok := h.update hkeeps (by rw [h.size, hsize])
  have hpush := htrim.push (.placeholder c.deferred) (by simp) (Nat.le_succ c.deferred)
    (fun id hid => by
      obtain rfl := Node.placeholder.inj hid
      exact ⟨Nat.le_refl _, Nat.lt_succ_self _⟩)
  rw [Node.size, Nat.cast_zero, Int.add_zero] at hpush
  refine ⟨hpush, h.queued_append _ ?_ rfl, rfl⟩
  simp only [Client.held, addReplyDeferredLen, trimReplyUnusedTailSpace, listTokens_append, htokens,
    append_assoc]
  rfl

omit h in
theorem hole_mem_listTokens : .hole id ∈ listTokens reply ↔ .placeholder id ∈ reply := by
  rw [listTokens, mem_flatMap]
  constructor
  · rintro ⟨n, hn, hid⟩
    cases n with
    | placeholder ln =>
      obtain rfl : id = ln := by simpa [Node.tokens] using hid
      exact hn
    | block b => simp [Node.tokens, bytes] at hid
  · exact fun h => ⟨_, h, by simp [Node.tokens]⟩

theorem Client.Ok.hole_mem_queued : .hole id ∈ c.queued ↔ .placeholder id ∈ c.reply := by
  obtain ⟨s, r, hheld, hlen⟩ := h.sent_bytes
  have hbytes : ∀ t : Bytes, .hole id ∉ bytes t := by simp [bytes]
  have hqueued : c.queued = r := by
    rw [Client.queued, hheld, ← hlen]
    exact drop_left' (by simp [bytes])
  have hmem : .hole id ∈ c.held ↔ .hole id ∈ r := by
    rw [hheld, mem_append]
    exact or_iff_right (hbytes s)
  rw [hqueued, ← hmem, Client.held, mem_append, hole_mem_listTokens]
  exact or_iff_right (hbytes c.buf)

theorem setDeferredAggregateLen_spec (hid : .hole id ∈ c.queued) (length : Nat)
    (kind : UInt8) (slack : Nat) :
    let c' := setDeferredAggregateLen c id length kind slack
    c'.Ok ∧ c'.queued = substitute id (lenstr kind length) c.queued ∧ c'.deferred = c.deferred := by
  have hhdr : lenstr kind length ≠ [] := by simp [lenstr]
  obtain ⟨hkeeps, hsize, htokens⟩ :=
    setDeferred_spec hhdr slack (h.hole_mem_queued.mp hid) h.nodup
  refine ⟨h.update hkeeps (by rw [h.size, hsize]), ?_, rfl⟩
  obtain ⟨s, r, hheld, hlen⟩ := h.sent_bytes
  have hdrop : ∀ l : List Token, (bytes s ++ l).drop c.sentlen = l := by
    intro l
    exact drop_left' (by rw [bytes, length_map, hlen])
  have hheld' : (setDeferredAggregateLen c id length kind slack).held =
      substitute id (lenstr kind length) c.held := by
    simp only [Client.held, setDeferredAggregateLen, htokens, substitute_append, substitute_bytes]
  rw [Client.queued, hheld', hheld, substitute_append, substitute_bytes]
  show (bytes s ++ _).drop c.sentlen = _
  rw [hdrop, Client.queued, hheld, hdrop]

end Client

section Write

variable {c : Client}

/-- No length is missing. -/
def Client.Complete (c : Client) : Prop := ∀ id, .placeholder id ∉ c.reply

theorem skipUnused_eq (h : c.Ok) : skipUnused c = c := by
  have hdrop : dropUnused c.reply = (c.reply, 0) := by
    cases hreply : c.reply with
    | nil => rfl
    | cons n rest =>
      cases n with
      | placeholder id => rfl
      | block b =>
        have hb := h.filled b (by rw [hreply]; exact mem_cons_self ..)
        simp [dropUnused, hb]
  rw [skipUnused, hdrop]
  simp

/-- One write sends the front of what is queued. -/
structure Sends (c c' : Client) (chunk : Bytes) : Prop where
  ok : c'.Ok
  complete : c'.Complete
  queued : c.queued = bytes chunk ++ c'.queued
  deferred : c'.deferred = c.deferred

/-- What is queued, when the first buffer is partly sent. -/
theorem Client.queued_first (hheld : c.held = bytes d ++ l)
    (hle : c.sentlen ≤ d.length) : c.queued = bytes (d.drop c.sentlen) ++ l := by
  rw [Client.queued, hheld, drop_append_of_le_length (by rw [bytes, length_map]; exact hle),
    bytes, ← map_drop]
  rfl

/-- The bytes that are taken either end the buffer or leave some of it. -/
theorem taken_cases {k : Nat} (hk : k < d.length) (n : Nat) :
    (k + ((d.drop k).take n).length = d.length ∧ (d.drop k).take n = d.drop k) ∨
      (k + ((d.drop k).take n).length < d.length ∧
        d.drop k = (d.drop k).take n ++ d.drop (k + ((d.drop k).take n).length)) := by
  rcases lt_or_ge n (d.drop k).length with hlt | hge
  · right
    rw [length_take, min_eq_left (le_of_lt hlt)]
    rw [length_drop] at hlt
    refine ⟨by omega, ?_⟩
    rw [← drop_drop, take_append_drop]
  · left
    rw [take_of_length_le hge, length_drop]
    exact ⟨by omega, rfl⟩

theorem sendBuffer_sends (h : c.Ok) (hc : c.Complete) (hbuf : c.buf ≠ []) (n : Nat) :
    Sends c (sendBuffer c n).1 (sendBuffer c n).2 := by
  have hlt : c.sentlen < c.buf.length := by
    rcases h.sent with hzero | hlt | ⟨hnil, _⟩
    · rw [hzero]
      exact length_pos_of_ne_nil hbuf
    · exact hlt
    · exact absurd hnil hbuf
  have hqueued := c.queued_first rfl (le_of_lt hlt)
  rw [sendBuffer]
  rcases taken_cases hlt n with ⟨hall, hchunk⟩ | ⟨hless, hchunk⟩
  · rw [if_pos hall, hchunk]
    exact ⟨⟨h.filled, h.numbered, h.nodup, h.size, h.opened, .inl rfl⟩, hc, hqueued, rfl⟩
  · rw [if_neg (ne_of_lt hless)]
    refine ⟨⟨h.filled, h.numbered, h.nodup, h.size, h.opened, .inr (.inl hless)⟩, hc, ?_, rfl⟩
    rw [hqueued, Client.queued_first rfl (le_of_lt hless), hchunk, bytes_append,
      append_assoc, ← hchunk]

theorem sendBlock_sends (h : c.Ok) (hc : c.Complete) (hbuf : c.buf = []) {o : Block}
    {rest : List Node} (hreply : c.reply = .block o :: rest) (n : Nat) :
    ∃ c' chunk, sendBlock c o rest n = .ok (c', chunk) ∧ Sends c c' chunk := by
  have hlt : c.sentlen < o.buf.length := by
    have hpos := length_pos_of_ne_nil (h.filled o (by rw [hreply]; exact mem_cons_self ..))
    rcases h.sent with hzero | hlt | ⟨_, b, rest', hcons, hlt⟩
    · rwa [hzero]
    · rw [hbuf] at hlt
      cases hlt
    · rw [hreply] at hcons
      obtain ⟨heq, _⟩ := cons.inj hcons
      rwa [Node.block.inj heq]
  have hheld : c.held = bytes o.buf ++ listTokens rest := by
    rw [Client.held, hbuf, hreply]
    rfl
  have hqueued := c.queued_first hheld (le_of_lt hlt)
  have hsize := h.size
  rw [hreply, listSize_cons, Node.size] at hsize
  have hin : ∀ n' ∈ rest, n' ∈ c.reply := by
    intro n' hn'
    rw [hreply]
    exact mem_cons_of_mem _ hn'
  rw [sendBlock]
  rcases taken_cases hlt n with ⟨hall, hchunk⟩ | ⟨hless, hchunk⟩
  · have hassert : ¬ (rest = [] ∧ c.replyBytes - o.size ≠ 0) := by
      rintro ⟨rfl, hne⟩
      apply hne
      rw [hsize]
      simp [listSize]
    rw [if_pos hall, if_neg hassert, hchunk]
    have hnodup := h.nodup
    rw [hreply] at hnodup
    refine ⟨_, _, rfl, ⟨fun b hb => h.filled b (hin _ hb), fun id hid => h.numbered id (hin _ hid),
      hnodup, ?_, h.opened, .inl rfl⟩, fun id hid => hc id (hin _ hid), ?_, rfl⟩
    · push_cast
      omega
    · rw [hqueued, Client.queued, Client.held, hbuf]
      rfl
  · rw [if_neg (ne_of_lt hless)]
    refine ⟨_, _, rfl, ⟨h.filled, h.numbered, h.nodup, h.size, h.opened,
      .inr (.inr ⟨hbuf, o, rest, hreply, hless⟩)⟩, hc, ?_, rfl⟩
    have hnext : ∀ k, k < o.buf.length → ({ c with sentlen := k } : Client).queued =
        bytes (o.buf.drop k) ++ listTokens rest := fun k hk =>
      Client.queued_first (c := { c with sentlen := k }) hheld (le_of_lt hk)
    rw [hqueued, hnext _ hless, hchunk, bytes_append, append_assoc, ← hchunk]

theorem sendSome_sends (h : c.Ok) (hc : c.Complete) (hpending : clientHasPendingReplies c = true)
    (n : Nat) : ∃ c' chunk, sendSome c n = .ok (c', chunk) ∧ Sends c c' chunk := by
  rw [sendSome]
  split_ifs with hbuf
  · exact ⟨_, _, rfl, sendBuffer_sends h hc hbuf n⟩
  · rw [not_not] at hbuf
    cases hreply : c.reply with
    | nil => simp [clientHasPendingReplies, hbuf, hreply] at hpending
    | cons node rest =>
      cases node with
      | placeholder id => exact absurd (by rw [hreply]; exact mem_cons_self ..) (hc id)
      | block o => exact sendBlock_sends h hc hbuf hreply n

theorem Sends.refl (h : c.Ok) (hc : c.Complete) : Sends c c [] := ⟨h, hc, rfl, rfl⟩

theorem Sends.trans {c₁ c₂ c₃ : Client} {s t : Bytes} (h : Sends c₁ c₂ s) (h' : Sends c₂ c₃ t) :
    Sends c₁ c₃ (s ++ t) := by
  refine ⟨h'.ok, h'.complete, ?_, h'.deferred.trans h.deferred⟩
  rw [h.queued, h'.queued, bytes_append, append_assoc]

/-- However much the socket takes in each round, the loop sends the front of what
is queued. -/
theorem writeLoop_sends (limited : Bool) (results : List Int) (h : c.Ok) (hc : c.Complete)
    (totwritten : Nat) :
    ∃ c' sent, writeLoop limited results c totwritten = .ok (c', sent) ∧ Sends c c' sent := by
  induction results generalizing c totwritten with
  | nil =>
    rw [writeLoop, skipUnused_eq h]
    exact ⟨_, _, rfl, Sends.refl h hc⟩
  | cons nwritten results ih =>
    simp only [writeLoop, skipUnused_eq h]
    split_ifs with hpending hstop
    · exact ⟨_, _, rfl, Sends.refl h hc⟩
    · obtain ⟨c₁, chunk, hsend, hs⟩ := sendSome_sends h hc hpending nwritten.toNat
      rw [hsend]
      simp only [bind, Except.bind]
      split_ifs
      · exact ⟨_, _, rfl, hs⟩
      · obtain ⟨c₂, more, hloop, hmore⟩ := ih hs.ok hs.complete (totwritten + chunk.length)
        rw [hloop]
        exact ⟨_, _, rfl, hs.trans hmore⟩
    · exact ⟨_, _, rfl, Sends.refl h hc⟩

theorem writeToClient_sends (h : c.Ok) (hc : c.Complete) (limited : Bool) (results : List Int) :
    ∃ c' sent, writeToClient c limited results = .ok (c', sent) ∧ Sends c c' sent := by
  obtain ⟨c', sent, hloop, hs⟩ := writeLoop_sends limited results h hc 0
  rw [writeToClient, hloop]
  refine ⟨_, _, rfl, ?_⟩
  split_ifs with hpending
  · exact hs
  · -- nothing is left, so the offset is zero already
    have hempty : c'.buf = [] ∧ c'.reply = [] := by
      simpa [clientHasPendingReplies] using hpending
    have hzero : c'.sentlen = 0 := by
      rcases hs.ok.sent with hzero | hlt | ⟨_, b, rest, hcons, _⟩
      · exact hzero
      · rw [hempty.1] at hlt
        cases hlt
      · rw [hempty.2] at hcons
        cases hcons
    rwa [← hzero]

end Write

/-- What happens to the output of a client. -/
inductive OutputOp where
  | reply (s : Bytes) (slack : Nat)
  | defer (slack : Nat)
  | setLength (id length : Nat) (kind : UInt8) (slack : Nat)
  | write (limited : Bool) (results : List Int)

/-- The client, and all bytes it was sent. -/
structure Output where
  client : Client
  sent : Bytes

def outputStep (o : Except Fault Output) (op : OutputOp) : Except Fault Output × Unit :=
  (do
    let ⟨c, sent⟩ ← o
    match op with
    | .reply s slack => return ⟨addReplyProto c s slack, sent⟩
    | .defer slack => return ⟨addReplyDeferredLen c slack, sent⟩
    | .setLength id length kind slack =>
      return ⟨setDeferredAggregateLen c id length kind slack, sent⟩
    | .write limited results =>
      let (c, more) ← writeToClient c limited results
      return ⟨c, sent ++ more⟩, ())

/-- A length is set once, after its placeholder was added; the client is written to
when none is missing. -/
def OutputAllowed : Except Fault Output → OutputOp → Prop
  | .ok o, .setLength id _ _ _ => .hole id ∈ o.client.queued
  | .ok o, .write _ _ => ∀ id, .hole id ∉ o.client.queued
  | _, _ => True

/-- The replies in the order of the calls, and the number of placeholders. -/
def logStep (log : List Token × Nat) (op : OutputOp) : (List Token × Nat) × Unit :=
  (match op with
    | .reply s _ => (log.1 ++ bytes s, log.2)
    | .defer _ => (log.1 ++ [.hole log.2], log.2 + 1)
    | .setLength id length kind _ => (substitute id (lenstr kind length) log.1, log.2)
    | .write _ _ => log, ())

/-- Nothing failed, and what was sent with what is queued is the log. -/
def Delivers (o : Except Fault Output) (log : List Token × Nat) : Prop :=
  ∃ c sent, o = .ok ⟨c, sent⟩ ∧ c.Ok ∧ bytes sent ++ c.queued = log.1 ∧ c.deferred = log.2

theorem outputStep_delivers {o : Except Fault Output} {log : List Token × Nat} {op : OutputOp}
    (h : Delivers o log) (hop : OutputAllowed o op) :
    Delivers (outputStep o op).1 (logStep log op).1 := by
  obtain ⟨c, sent, rfl, hok, hlog, hdef⟩ := h
  cases op with
  | reply s slack =>
    obtain ⟨hok', hqueued, hdef'⟩ := addReplyProto_spec hok s slack
    refine ⟨_, _, rfl, hok', ?_, hdef'.trans hdef⟩
    rw [hqueued, ← append_assoc, hlog]
    rfl
  | defer slack =>
    obtain ⟨hok', hqueued, hdef'⟩ := addReplyDeferredLen_spec hok slack
    refine ⟨_, _, rfl, hok', ?_, ?_⟩
    · rw [hqueued, ← append_assoc, hlog, hdef]
      rfl
    · rw [hdef', hdef]
      rfl
  | setLength id length kind slack =>
    obtain ⟨hok', hqueued, hdef'⟩ := setDeferredAggregateLen_spec hok hop length kind slack
    refine ⟨_, _, rfl, hok', ?_, hdef'.trans hdef⟩
    rw [hqueued]
    show _ = substitute id (lenstr kind length) log.1
    rw [← hlog, substitute_append, substitute_bytes]
  | write limited results =>
    have hcomplete : c.Complete := fun id hid => hop id (hok.hole_mem_queued.mpr hid)
    obtain ⟨c', more, hwrite, hs⟩ := writeToClient_sends hok hcomplete limited results
    refine ⟨c', sent ++ more, ?_, hs.ok, ?_, hs.deferred.trans hdef⟩
    · simp [outputStep, hwrite, bind, Except.bind, pure, Except.pure]
    · rw [bytes_append, append_assoc, ← hs.queued, hlog]
      rfl

/-- In every run of replies, deferred lengths and writes, however much the socket
takes, no assertion fails, and the bytes that were sent followed by those that
are queued are the replies in the order of the calls, with every length that was
set in its place. -/
theorem client_receives_replies (ops : List OutputOp)
    (hops : RunOk outputStep OutputAllowed (.ok ⟨createClient, []⟩) ops) :
    ∃ c sent, (run outputStep (.ok ⟨createClient, []⟩) ops).1 = .ok ⟨c, sent⟩ ∧
      bytes sent ++ c.queued = (run logStep ([], 0) ops).1.1 ∧
      c.replyBytes = listSize c.reply := by
  have hinit : Delivers (.ok ⟨createClient, []⟩) ([], 0) :=
    ⟨_, _, rfl, createClient_ok, rfl, rfl⟩
  have hstep : ∀ o log op, Delivers o log → OutputAllowed o op →
      Delivers (outputStep o op).1 (logStep log op).1 ∧
        (outputStep o op).2 = (logStep log op).2 :=
    fun _ _ _ h hop => ⟨outputStep_delivers h hop, rfl⟩
  obtain ⟨⟨c, sent, hrun, hok, hlog, _⟩, _⟩ := run_simulates hstep hinit hops
  exact ⟨c, sent, hrun, hlog, hok.size⟩

/-- Two nested lengths, the outer one set first, and a write that stops inside. -/
def nestedReplies : List OutputOp :=
  [.defer 0, .defer 0, .reply [43, 79, 75, 13, 10] 0, .setLength 0 1 42 0, .setLength 1 1 42 0,
    .write true [6, 0]]

theorem nestedReplies_allowed :
    RunOk outputStep OutputAllowed (.ok ⟨createClient, []⟩) nestedReplies := by
  refine ⟨trivial, trivial, trivial, ?_, ?_, ?_, trivial⟩
  · show Token.hole 0 ∈ _
    decide
  · show Token.hole 1 ∈ _
    decide
  · intro id hid
    have hnone : ∀ t ∈ [Token.byte 42, .byte 49, .byte 13, .byte 10, .byte 42, .byte 49, .byte 13,
        .byte 10, .byte 43, .byte 79, .byte 75, .byte 13, .byte 10], t ≠ .hole id := by simp
    exact hnone _ hid rfl

theorem client_receives_replies_nested :
    ∃ c sent, (run outputStep (.ok ⟨createClient, []⟩) nestedReplies).1 = .ok ⟨c, sent⟩ ∧
      bytes sent ++ c.queued =
        bytes [42, 49, 13, 10, 42, 49, 13, 10, 43, 79, 75, 13, 10] ∧
      c.replyBytes = listSize c.reply := by
  have hlog : (run logStep ([], 0) nestedReplies).1.1 =
      bytes [42, 49, 13, 10, 42, 49, 13, 10, 43, 79, 75, 13, 10] := by decide
  have hrun := client_receives_replies nestedReplies nestedReplies_allowed
  rwa [hlog] at hrun

end Redis.Networking
