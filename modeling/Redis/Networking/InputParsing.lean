import Redis.Networking.Input

/-! The commands a client sends are executed as they were sent, each when its last
byte is there, however the bytes are cut into reads. -/
namespace Redis.Networking.Input

open ByteBuffer Util Resp List

variable {σ : Type} {srv : Server σ} {c c' : Client σ}
variable {cmds : List (List Bytes)} {total : Int} {cmd : List Bytes} {r : Bytes}
variable {a d f u x y : Bytes} {later : Client σ × List Executed} {args : List Bytes} {n : Nat}

section Lines

theorem strchr_append (hd : ∀ b ∈ d, b ≠ 13 ∧ b ≠ 0) (t : Bytes) :
    strchr 13 (d ++ 13 :: t) = some d.length := by
  induction d with
  | nil => rfl
  | cons b d ih =>
    obtain ⟨hcr, hzero⟩ := hd b (mem_cons_self ..)
    rw [cons_append, strchr, if_neg hcr, if_neg hzero,
      ih (fun x hx => hd x (mem_cons_of_mem _ hx))]
    rfl

theorem strchr_none (hd : ∀ b ∈ d, b ≠ 13 ∧ b ≠ 0) : strchr 13 d = none := by
  induction d with
  | nil => rfl
  | cons b d ih =>
    obtain ⟨hcr, hzero⟩ := hd b (mem_cons_self ..)
    rw [strchr, if_neg hcr, if_neg hzero, ih (fun x hx => hd x (mem_cons_of_mem _ hx))]
    rfl

/-- Bytes that came in at least up to the end of a part hold this part. -/
theorem exists_append_of_length_le {w : Bytes} (h : u ++ f = w ++ x)
    (hle : w.length ≤ u.length) : ∃ v, u = w ++ v ∧ v ++ f = x := by
  obtain ⟨v, rfl⟩ := prefix_of_prefix_length_le ⟨x, h.symm⟩ (prefix_append u f) hle
  exact ⟨v, rfl, by simpa using h⟩

/-- A line is found when both its end bytes are there. -/
theorem findLine_prefix (hd : ∀ b ∈ d, b ≠ 13 ∧ b ≠ 0)
    (hshort : d.length ≤ protoInlineMaxSize) (h : u ++ f = d ++ crlf ++ x) :
    (u.length < d.length + 2 ∧ findLine u = .wait) ∨
      ∃ v, u = d ++ crlf ++ v ∧ v ++ f = x ∧ findLine u = .line d.length := by
  have hlen : (d ++ crlf).length = d.length + 2 := length_append
  rw [findLine]
  rcases lt_or_ge u.length (d.length + 2) with hlt | hge
  · refine .inl ⟨hlt, ?_⟩
    have hcut : u <+: d ++ [13] ++ [10] :=
      prefix_of_prefix_length_le (prefix_append u f) ⟨x, by rw [h, append_assoc d]; rfl⟩
        (by simp; omega)
    rcases prefix_concat_iff.mp hcut with rfl | hcut
    · simp at hlt
    rcases prefix_concat_iff.mp hcut with rfl | hcut
    · -- the line feed is missing
      rw [strchr_append hd]
      exact if_pos (by rw [length_append, length_singleton]; omega)
    · rw [strchr_none fun b hb => hd b (hcut.subset hb)]
      exact if_neg (not_lt.mpr (hcut.length_le.trans hshort))
  · obtain ⟨v, rfl, hv⟩ := exists_append_of_length_le h (hlen.trans_le hge)
    refine .inr ⟨v, rfl, hv, ?_⟩
    rw [append_assoc, show strchr 13 (d ++ (crlf ++ v)) = some d.length from strchr_append hd _]
    exact if_neg (by rw [← append_assoc, length_append, hlen]; omega)

/-- A line with a count. -/
theorem findLine_count {kind : UInt8} (hkind : kind ≠ 13 ∧ kind ≠ 0) (hn : n < 2 ^ 63)
    (h : u ++ f = countLine kind n ++ x) :
    (u.length < (countLine kind n).length ∧ findLine u = .wait) ∨
      ∃ v len, findLine u = .line len ∧ u.head? = some kind ∧ lineNumber u len = some (n : Int) ∧
        u.drop (len + 2) = v ∧ len + 2 ≤ u.length ∧ v ++ f = x := by
  have hdigits := digits_of_count hn
  have hd : ∀ b ∈ kind :: ll2string n, b ≠ 13 ∧ b ≠ 0 := by
    intro b hb
    rcases mem_cons.mp hb with rfl | hb
    · exact hkind
    · have hdigit := isDigit_count hn hb
      constructor <;> rintro rfl <;> exact absurd hdigit (by decide)
  have hlen : (ll2string n).length ≤ 20 := by
    rw [hdigits]
    exact decimal_length_le (by norm_num) (by omega)
  have hshort : (kind :: ll2string n).length ≤ protoInlineMaxSize := by
    rw [length_cons, protoInlineMaxSize]
    omega
  rcases findLine_prefix hd hshort h with ⟨hlt, hwait⟩ | ⟨v, hu, hrest, hline⟩
  · refine .inl ⟨?_, hwait⟩
    rw [countLine, length_append]
    exact hlt
  · right
    refine ⟨v, _, hline, ?_, ?_, ?_, ?_, hrest⟩
    · rw [hu]
      rfl
    · have hnum : (u.drop 1).take ((kind :: ll2string n).length - 1) = ll2string n := by
        rw [hu, length_cons, Nat.add_sub_cancel, append_assoc, cons_append]
        exact take_left' rfl
      rw [lineNumber, hnum, hdigits]
      exact string2ll_decimal (by rw [llongMax]; omega)
    · rw [hu]
      exact drop_left' (by simp [crlf])
    · rw [hu]
      simp [crlf]

end Lines

section Arguments

/-- The fields that parsing leaves alone. -/
structure SameSession (c c' : Client σ) : Prop where
  reqtype : c'.reqtype = c.reqtype
  master : c'.master = c.master
  reploff : c'.reploff = c.reploff
  readReploff : c'.readReploff = c.readReploff
  state : c'.state = c.state

theorem SameSession.refl (c : Client σ) : SameSession c c := ⟨rfl, rfl, rfl, rfl, rfl⟩

theorem SameSession.trans {c₁ c₂ c₃ : Client σ} (h : SameSession c₁ c₂) (h' : SameSession c₂ c₃) :
    SameSession c₁ c₃ :=
  ⟨h'.reqtype.trans h.reqtype, h'.master.trans h.master, h'.reploff.trans h.reploff,
    h'.readReploff.trans h.readReploff, h'.state.trans h.state⟩

/-- The position is inside the buffer. -/
def Client.Placed (c : Client σ) : Prop := c.qbPos ≤ c.querybuf.length

theorem Client.Placed.advance (h : c.Placed) (hn : n ≤ c.unread.length) :
    c.qbPos + n ≤ c.querybuf.length := by
  rw [Client.unread, length_drop] at hn
  rw [Client.Placed] at h
  omega

theorem unread_advance (c : Client σ) (n : Nat) :
    ({ c with qbPos := c.qbPos + n } : Client σ).unread = c.unread.drop n := by
  rw [Client.unread, Client.unread, drop_drop]

theorem alignBulk_spec (hplaced : c.Placed) (ll : Nat) :
    (alignBulk c ll).unread = c.unread ∧ (alignBulk c ll).Placed ∧ SameSession c (alignBulk c ll) ∧
      (alignBulk c ll).argv = c.argv ∧ (alignBulk c ll).multibulklen = c.multibulklen := by
  rw [alignBulk]
  split_ifs
  · exact ⟨rfl, Nat.zero_le _, ⟨rfl, rfl, rfl, rfl, rfl⟩, rfl, rfl⟩
  · exact ⟨rfl, hplaced, SameSession.refl c, rfl, rfl⟩

/-- The longest argument that is read: a number has to hold its length, and only the link to a
master is exempt from `proto-max-bulk-len`. -/
def Server.bulkLimit (srv : Server σ) (master : Bool) : Nat :=
  if master then 2 ^ 63 - 1 else srv.protoMaxBulkLen

theorem Server.bulkLimit_lt (srv : Server σ) (master : Bool) : srv.bulkLimit master < 2 ^ 63 := by
  rw [bulkLimit]
  split_ifs
  · norm_num
  · exact srv.maxBulkLen_lt

/-- The length of an argument is read when its line is there. -/
theorem readBulklen_spec (hplaced : c.Placed) (hnone : c.bulklen = none)
    (ha : a.length ≤ srv.bulkLimit c.master) (h : c.unread ++ f = bulk a ++ x) :
    (readBulklen srv c = (.wait, c) ∧ (a ++ crlf ++ x).length < f.length) ∨
      ∃ c', readBulklen srv c = (.ok, c') ∧ SameSession c c' ∧ c'.Placed ∧ c'.argv = c.argv ∧
        c'.multibulklen = c.multibulklen ∧ c'.bulklen = some a.length ∧
        c'.unread ++ f = a ++ crlf ++ x := by
  have hlen : a.length < 2 ^ 63 := ha.trans_lt (srv.bulkLimit_lt c.master)
  rw [bulk, append_assoc, append_assoc, ← append_assoc a] at h
  rw [readBulklen, if_neg (by simp [hnone])]
  rcases findLine_count (by decide) hlen h with ⟨hlt, hwait⟩ | ⟨v, len, hline, hhead, hnum, hdrop, hle, hv⟩
  · left
    rw [hwait]
    refine ⟨rfl, ?_⟩
    have hcount := congrArg length h
    rw [length_append, length_append] at hcount
    omega
  · right
    have hfine : ¬ ((a.length : Int) < 0 ∨
        (c.master = false ∧ (a.length : Int) > (srv.protoMaxBulkLen : Int))) := by
      rintro (hneg | ⟨hclient, hlong⟩)
      · omega
      · rw [Server.bulkLimit, hclient, if_neg Bool.false_ne_true] at ha
        omega
    simp only [hline, hhead, ne_eq, not_true_eq_false, if_false, hnum, hfine, Int.toNat_natCast]
    have hmoved : ({ c with qbPos := c.qbPos + len + 2 } : Client σ).Placed := hplaced.advance hle
    obtain ⟨hunread, hplaced', hsame, hargv, hmulti⟩ := alignBulk_spec hmoved a.length
    refine ⟨_, rfl, ⟨hsame.reqtype, hsame.master, hsame.reploff, hsame.readReploff, hsame.state⟩,
      hplaced', hargv, hmulti, rfl, ?_⟩
    show (alignBulk _ a.length).unread ++ f = _
    rw [hunread, add_assoc, unread_advance, hdrop]
    exact hv

/-- An argument is taken when it is there with its two end bytes. -/
theorem takeBulk_spec (hplaced : c.Placed) (h : c.unread ++ f = a ++ crlf ++ x)
    (hle : a.length + 2 ≤ c.unread.length) :
    let c' := takeBulk c a.length
    SameSession c c' ∧ c'.Placed ∧ c'.argv = c.argv ++ [a] ∧
      c'.multibulklen = c.multibulklen - 1 ∧ c'.bulklen = none ∧ c'.unread ++ f = x := by
  have hlen : (a ++ crlf).length = a.length + 2 := length_append
  obtain ⟨v, hunread, hrest⟩ := exists_append_of_length_le h (hlen.trans_le hle)
  have harg : c.unread.take a.length = a := by
    rw [hunread, append_assoc]
    exact take_left' rfl
  have hdrop : c.unread.drop (a.length + 2) = v := by
    rw [hunread]
    exact drop_left' hlen
  simp only [takeBulk]
  split_ifs with hfat
  · -- the buffer holds the argument and nothing else
    obtain ⟨hzero, _, hwhole⟩ := hfat
    have hbuf : c.querybuf = c.unread := by rw [Client.unread, hzero, drop_zero]
    refine ⟨⟨rfl, rfl, rfl, rfl, rfl⟩, ?_, ?_, rfl, rfl, ?_⟩
    · show c.qbPos ≤ 0
      omega
    · rw [hbuf, harg]
    · rw [hbuf] at hwhole
      rw [drop_eq_nil_of_le hwhole.le] at hdrop
      simpa [Client.unread, ← hdrop] using hrest
  · refine ⟨⟨rfl, rfl, rfl, rfl, rfl⟩, ?_, congrArg (c.argv ++ [·]) harg, rfl, rfl, ?_⟩
    · exact hplaced.advance hle
    · rw [← hrest, ← hdrop, ← unread_advance]
      rfl

/-- What parsing waits for, inside a command: the arguments that are missing, the
first of them perhaps with its length known. -/
inductive AwaitsArgs (c : Client σ) : List Bytes → Bytes → Prop
  | count {args : List Bytes} (hmissing : c.multibulklen = args.length) (hnone : c.bulklen = none) :
      AwaitsArgs c args (bulks args)
  | content {a : Bytes} {args : List Bytes} (hmissing : c.multibulklen = args.length + 1)
      (hlen : c.bulklen = some a.length) : AwaitsArgs c (a :: args) (a ++ crlf ++ bulks args)

/-- How parsing a command with the arguments `cmd` ends, where `y` comes behind it
and `f` is still to be received. -/
inductive CommandRead (c : Client σ) (cmd : List Bytes) (f y : Bytes) : Parsed × Client σ → Prop
  | complete {c' : Client σ} (same : SameSession c c') (placed : c'.Placed) (argv : c'.argv = cmd)
      (unread : c'.unread ++ f = y) : CommandRead c cmd f y (.ok, c')
  | waiting {c' : Client σ} {args : List Bytes} {r : Bytes} (same : SameSession c c')
      (placed : c'.Placed) (argv : c'.argv ++ args = cmd) (nonempty : args ≠ [])
      (awaits : AwaitsArgs c' args r) (unread : c'.unread ++ f = r ++ y)
      (missing : y.length < f.length) : CommandRead c cmd f y (.wait, c')

theorem CommandRead.of_same {r : Parsed × Client σ} (hsame : SameSession c c')
    (h : CommandRead c' cmd f y r) : CommandRead c cmd f y r := by
  cases h with
  | complete same placed argv unread => exact .complete (hsame.trans same) placed argv unread
  | waiting same placed argv nonempty awaits unread missing =>
    exact .waiting (hsame.trans same) placed argv nonempty awaits unread missing

/-- The loop reads all missing arguments, or stops where bytes are missing. -/
theorem readArguments_spec {r : Bytes} (hplaced : c.Placed)
    (hargs : ∀ a ∈ args, a.length ≤ srv.bulkLimit c.master) (hawaits : AwaitsArgs c args r)
    (h : c.unread ++ f = r ++ y) :
    CommandRead c (c.argv ++ args) f y (readArguments srv args.length c) := by
  induction args generalizing c r with
  | nil =>
    cases hawaits with
    | count hmissing hnone =>
      rw [append_nil]
      exact .complete (SameSession.refl c) hplaced rfl h
  | cons a args ih =>
    have ha := hargs a (mem_cons_self ..)
    -- once the length is known, the content is taken or waited for
    have hcontent : ∀ c₁ : Client σ, SameSession c c₁ → c₁.Placed → c₁.argv = c.argv →
        c₁.multibulklen = args.length + 1 → c₁.bulklen = some a.length →
        c₁.unread ++ f = a ++ crlf ++ (bulks args ++ y) → readBulklen srv c = (.ok, c₁) →
        CommandRead c (c.argv ++ a :: args) f y (readArguments srv (args.length + 1) c) := by
      intro c₁ hsame hplaced₁ hargv hmissing hlen hunread hread
      rw [readArguments, hread]
      simp only [hlen, Option.getD_some]
      split_ifs with hshort
      · refine .waiting hsame hplaced₁ (by rw [hargv]) (cons_ne_nil a args)
          (.content hmissing hlen) (by rw [hunread, ← append_assoc]) ?_
        have hcount := congrArg length hunread
        simp only [length_append, crlf, length_cons, length_nil] at hcount
        omega
      · obtain ⟨hsame', hplaced', hargv', hmulti', hnone', hunread'⟩ :=
          takeBulk_spec hplaced₁ hunread (Nat.le_of_not_lt hshort)
        have hawaits' : AwaitsArgs (takeBulk c₁ a.length) args (bulks args) := by
          refine .count ?_ hnone'
          rw [hmulti', hmissing]
          rfl
        have hmaster := (hsame.trans hsame').master
        have hrest := ih hplaced'
          (fun x hx => hmaster ▸ hargs x (mem_cons_of_mem _ hx)) hawaits' hunread'
        rw [hargv', hargv, append_assoc] at hrest
        exact hrest.of_same (hsame.trans hsame')
    cases hawaits with
    | count hmissing hnone =>
      rw [bulks_cons, append_assoc] at h
      rcases readBulklen_spec hplaced hnone ha h with ⟨hwait, hlt⟩ |
        ⟨c₁, hok, hsame, hplaced₁, hargv, hmulti, hlen, hunread⟩
      · rw [length_cons, readArguments, hwait]
        refine .waiting (SameSession.refl c) hplaced rfl (cons_ne_nil a args)
          (.count hmissing hnone) (by rw [h, bulks_cons, append_assoc]) ?_
        simp only [length_append] at hlt
        omega
      · exact hcontent c₁ hsame hplaced₁ hargv (hmulti.trans hmissing) hlen hunread hok
    | content hmissing hlen =>
      have hread : readBulklen srv c = (.ok, c) := by
        rw [readBulklen, if_pos (by rw [hlen]; rfl)]
      rw [append_assoc] at h
      exact hcontent c (SameSession.refl c) hplaced rfl hmissing hlen h hread

end Arguments

section Commands

/-- A command that the protocol allows on the link to a master, or to a client. -/
def Sendable (srv : Server σ) (master : Bool) (cmd : List Bytes) : Prop :=
  cmd ≠ [] ∧ cmd.length ≤ 1024 * 1024 ∧ ∀ a ∈ cmd, a.length ≤ srv.bulkLimit master

/-- What parsing waits for: the commands that are not executed, the first of them
perhaps begun. -/
inductive Awaits (c : Client σ) : List (List Bytes) → Bytes → Prop
  | request {cmds : List (List Bytes)} (hargv : c.argv = []) (hmulti : c.multibulklen = 0)
      (hnone : c.bulklen = none) (htype : c.reqtype ≠ some .inline) : Awaits c cmds (encodeAll cmds)
  | arguments {args : List Bytes} {cmds : List (List Bytes)} {r : Bytes}
      (hawaits : AwaitsArgs c args r) (hne : args ≠ []) (htype : c.reqtype = some .multibulk) :
      Awaits c ((c.argv ++ args) :: cmds) (r ++ encodeAll cmds)

theorem AwaitsArgs.multibulklen (h : AwaitsArgs c args r) :
    c.multibulklen = args.length := by
  cases h with
  | count hmissing hnone | content hmissing hlen => exact hmissing

/-- Reading the number of arguments. -/
theorem readMultibulklen_spec (hplaced : c.Placed) (hargv : c.argv = []) (hnone : c.bulklen = none)
    (hcmd : Sendable srv c.master cmd) (h : c.unread ++ f = catAppendOnlyGenericCommand cmd ++ y) :
    (readMultibulklen c = (.wait, c) ∧ y.length < f.length) ∨
      ∃ c', readMultibulklen c = (.ok, c') ∧ SameSession c c' ∧ c'.Placed ∧ c'.argv = [] ∧
        AwaitsArgs c' cmd (bulks cmd) ∧ c'.unread ++ f = bulks cmd ++ y := by
  obtain ⟨hne, hmax, _⟩ := hcmd
  have hlen : cmd.length < 2 ^ 63 := by omega
  rw [catAppendOnlyGenericCommand, append_assoc] at h
  rw [readMultibulklen, if_neg (not_not.mpr hargv)]
  rcases findLine_count (by decide) hlen h with ⟨hlt, hwait⟩ | ⟨v, len, hline, hhead, hnum, hdrop, hle, hv⟩
  · left
    rw [hwait]
    refine ⟨rfl, ?_⟩
    have hcount := congrArg length h
    simp only [length_append] at hcount
    omega
  · right
    have hfine : ¬ ((cmd.length : Int) > 1024 * 1024) := by omega
    simp only [hline, hhead, ne_eq, not_true_eq_false, if_false, hnum, hfine, Int.toNat_natCast]
    refine ⟨_, rfl, ⟨rfl, rfl, rfl, rfl, rfl⟩, ?_, hargv, .count rfl hnone, ?_⟩
    · exact hplaced.advance hle
    · rw [← hv, ← hdrop, ← unread_advance]
      rfl

/-- A request is parsed when all of it is there. -/
theorem processMultibulkBuffer_spec (hplaced : c.Placed)
    (hcmd : Sendable srv c.master cmd) {r : Bytes} (hawaits : Awaits c (cmd :: cmds) r) (h : c.unread ++ f = r) :
    (processMultibulkBuffer srv c = (.wait, c) ∧ c.argv = [] ∧ c.multibulklen = 0 ∧
        c.bulklen = none ∧ (encodeAll cmds).length < f.length) ∨
      CommandRead c cmd f (encodeAll cmds) (processMultibulkBuffer srv c) := by
  cases hawaits with
  | request hargv hmulti hnone htype =>
    rw [processMultibulkBuffer, if_pos hmulti]
    rcases readMultibulklen_spec hplaced hargv hnone hcmd h with ⟨hwait, hlt⟩ |
      ⟨c', hok, hsame, hplaced', hargv', hawaits', hunread⟩
    · rw [hwait]
      exact .inl ⟨rfl, hargv, hmulti, hnone, hlt⟩
    · have hread := readArguments_spec hplaced' (hsame.master ▸ hcmd.2.2) hawaits' hunread
      rw [hargv', nil_append, ← hawaits'.multibulklen] at hread
      rw [hok]
      exact .inr (hread.of_same hsame)
  | arguments hargs hne htype =>
    have hmulti := hargs.multibulklen
    have hpos := length_pos_of_ne_nil hne
    have hbounds := hcmd.2.2
    rw [processMultibulkBuffer, if_neg (by omega), hmulti]
    exact .inr (readArguments_spec hplaced
      (fun a ha => hbounds a (mem_append_right _ ha)) hargs h)

/-- Something is missing behind what is left of a command. -/
theorem Awaits.length_lt (h : Awaits c (cmd :: cmds) r) : (encodeAll cmds).length < r.length := by
  have hbulk : ∀ a : Bytes, 0 < (bulk a).length := by simp [bulk, countLine]
  cases h with
  | request hargv hmulti hnone htype =>
    simp only [encodeAll_cons, length_append, catAppendOnlyGenericCommand, countLine,
      length_cons]
    omega
  | arguments hargs hne htype =>
    rw [length_append]
    cases hargs with
    | count hmissing hnone =>
      obtain ⟨a, args, rfl⟩ := exists_cons_of_ne_nil hne
      have hpos := hbulk a
      rw [bulks_cons, length_append]
      omega
    | content hmissing hlen =>
      simp only [length_append, crlf, length_cons]
      omega

theorem Awaits.length_le (h : Awaits c cmds r) : r.length ≤ (encodeAll cmds).length := by
  cases h with
  | request hargv hmulti hnone htype => exact le_refl _
  | @arguments args cmds r hargs hne htype =>
    have hle : r.length ≤ (bulks args).length := by
      cases hargs with
      | count hmissing hnone => exact le_refl _
      | content hmissing hlen =>
        rw [bulks_cons, bulk]
        simp only [length_append]
        omega
    rw [encodeAll_cons, catAppendOnlyGenericCommand, bulks, flatMap_append]
    simp only [length_append]
    rw [← bulks, ← bulks]
    omega

/-- The kind of the request is known once there is a byte of it. -/
theorem detectType_spec {r : Bytes} (hawaits : Awaits c (cmd :: cmds) r) (h : c.unread ++ f = r)
    (hne : c.unread ≠ []) :
    detectType c = { c with reqtype := some .multibulk } ∧
      Awaits { c with reqtype := some .multibulk } (cmd :: cmds) r := by
  cases hawaits with
  | request hargv hmulti hnone htype =>
    refine ⟨?_, .request hargv hmulti hnone (by simp)⟩
    have hhead : c.unread.head? = some 42 := by
      obtain ⟨b, u, hu⟩ := exists_cons_of_ne_nil hne
      rw [hu] at h
      have hb := congrArg head? h
      simp only [cons_append, head?_cons, encodeAll_cons, catAppendOnlyGenericCommand,
        countLine] at hb
      rw [hu, head?_cons, hb]
    rw [detectType]
    cases hreq : c.reqtype with
    | none => simp [hhead]
    | some t =>
      cases t with
      | inline => exact absurd hreq htype
      | multibulk => simp only [← hreq]
  | arguments hargs hne' htype =>
    have hsame : ({ c with reqtype := some .multibulk } : Client σ) = c := by rw [← htype]
    rw [hsame]
    refine ⟨?_, .arguments hargs hne' htype⟩
    rw [detectType, htype]

end Commands

section Loop

/-- What a loop over the input does with the commands `cmds`, while `f` is still to
be received; `left` are those it does not execute, and `total` is the offset of
the master behind all of them. -/
structure Executes (srv : Server σ) (c : Client σ) (cmds : List (List Bytes)) (f : Bytes)
    (total : Int) (result : Client σ × List Executed) (left : List (List Bytes)) : Prop where
  split : cmds = result.2.map Executed.argv ++ left
  state : result.1.state = (result.2.map Executed.argv).foldl srv.processCommand c.state
  master : result.1.master = c.master
  readReploff : c.master = true → result.1.readReploff + f.length = total
  placed : result.1.Placed
  awaits : ∃ r, Awaits result.1 left r ∧ result.1.unread ++ f = r
  missing : ∀ cmd rest, left = cmd :: rest → (encodeAll rest).length < f.length
  offsets : c.master = true → ∀ i e, result.2[i]? = some e → e.inMulti = false →
    e.reploff + (encodeAll (cmds.drop (i + 1))).length = total

/-- A client that is ready to be fed the rest `f` of the commands. -/
structure Listening (srv : Server σ) (c : Client σ) (cmds : List (List Bytes)) (f : Bytes)
    (total : Int) : Prop where
  readReploff : c.master = true → c.readReploff + f.length = total
  placed : c.Placed
  sendable : ∀ cmd ∈ cmds, Sendable srv c.master cmd
  awaits : ∃ r, Awaits c cmds r ∧ c.unread ++ f = r
  live : ∀ k, srv.halted ((cmds.take k).foldl srv.processCommand c.state) = false

/-- Nothing is executed. -/
theorem Executes.nothing {r : Bytes} (hstate : c'.state = c.state)
    (hmaster : c'.master = c.master) (hread : c.master = true → c'.readReploff + f.length = total)
    (hplaced : c'.Placed) (hawaits : Awaits c' cmds r) (h : c'.unread ++ f = r)
    (hmissing : ∀ cmd rest, cmds = cmd :: rest → (encodeAll rest).length < f.length) :
    Executes srv c cmds f total (c', []) cmds :=
  ⟨rfl, hstate, hmaster, hread, hplaced, ⟨r, hawaits, h⟩, hmissing, by simp⟩

/-- After a command the client is ready for the next one. -/
structure Ready (srv : Server σ) (c c' : Client σ) : Prop where
  unread : c'.unread = c.unread
  placed : c.Placed → c'.Placed
  awaits : ∀ cmds, Awaits c' cmds (encodeAll cmds)
  master : c'.master = c.master
  readReploff : c'.readReploff = c.readReploff
  state : c'.state = srv.processCommand c.state c.argv

theorem processed_ready (srv : Server σ) (c : Client σ) :
    Ready srv c (processCommandAndResetClient srv c) := by
  rw [processCommandAndResetClient, commandProcessed]
  cases hmaster : c.master with
  | true | false =>
    simp only [resetClient, Bool.false_eq_true, if_true, if_false]
    exact ⟨rfl, fun h => h, fun cmds => .request rfl rfl rfl (by simp), hmaster.symm, rfl, rfl⟩

/-- A command is executed before the others. -/
theorem Executes.execute {cmds left : List (List Bytes)}
    (hread : c.master = true → c.readReploff + f.length = total)
    (same : SameSession { c with reqtype := some .multibulk } c') (placed : c'.Placed)
    (argv : c'.argv = cmd) (unread : c'.unread ++ f = encodeAll cmds)
    (h : Executes srv (processCommandAndResetClient srv c') cmds f total later left) :
    let done := processCommandAndResetClient srv c'
    Executes srv c (cmd :: cmds) f total
      (later.1, ⟨c'.argv, srv.inMulti done.state, done.reploff⟩ :: later.2) left := by
  have hready := processed_ready srv c'
  have hmaster : (processCommandAndResetClient srv c').master = c.master :=
    hready.master.trans same.master
  refine ⟨?_, ?_, h.master.trans hmaster, fun hm => h.readReploff (hmaster.trans hm), h.placed,
    h.awaits, h.missing, ?_⟩
  · show cmd :: cmds = c'.argv :: (later.2.map Executed.argv ++ left)
    rw [argv, ← h.split]
  · rw [h.state, hready.state, same.state]
    rfl
  · intro hm i e he hmulti
    cases i with
    | zero =>
      obtain rfl : _ = e := by simpa using he
      have hoffset : (processCommandAndResetClient srv c').reploff + c'.unread.length =
          c'.readReploff := by
        change srv.inMulti (processCommandAndResetClient srv c').state = false at hmulti
        rw [hready.state] at hmulti
        rw [Client.Placed] at placed
        simp only [processCommandAndResetClient, commandProcessed, resetClient, hmulti,
          same.master.trans hm, and_self, if_true, Client.unread, length_drop]
        omega
      have hcount := congrArg length unread
      have hsame : c'.readReploff = c.readReploff := same.readReploff
      have htotal := hread hm
      rw [length_append] at hcount
      rw [drop_succ_cons, drop_zero]
      simp only
      omega
    | succ i => exact h.offsets (hmaster.trans hm) i e (by simpa using he) hmulti

theorem inputLoop_spec {fuel : Nat} (hlisten : Listening srv c cmds f total)
    (hfuel : c.unread.length < fuel) :
    ∃ left, Executes srv c cmds f total (inputLoop srv fuel c) left := by
  induction fuel generalizing c cmds with
  | zero => omega
  | succ fuel ih =>
    obtain ⟨hread, hplaced, hcmds, ⟨r, hawaits, h⟩, hlive⟩ := hlisten
    have hhalted : srv.halted c.state = false := hlive 0
    rw [inputLoop]
    by_cases hpos : c.qbPos < c.querybuf.length
    · have hne : c.unread ≠ [] := by
        rw [Client.unread, ne_eq, drop_eq_nil_iff]
        omega
      rw [if_pos ⟨hpos, hhalted⟩]
      cases cmds with
      | nil =>
        cases hawaits with
        | request hargv hmulti hnone htype =>
          exact absurd (append_eq_nil_iff.mp h).1 hne
      | cons cmd cmds =>
        obtain ⟨hdetect, hawaits'⟩ := detectType_spec hawaits h hne
        have hcmd := hcmds cmd (mem_cons_self ..)
        have hshorter := hawaits.length_lt
        rw [hdetect, parseRequest, if_neg (by simp)]
        rcases processMultibulkBuffer_spec (c := { c with reqtype := some .multibulk }) hplaced
            hcmd hawaits' h with ⟨hwait, hargv, hmulti, hnone, hlt⟩ | hread
        · rw [hwait]
          exact ⟨cmd :: cmds, .nothing rfl rfl hread hplaced hawaits' h (by rintro _ _ ⟨⟩; exact hlt)⟩
        · generalize hresult : processMultibulkBuffer srv { c with reqtype := some .multibulk } =
            result at hread
          cases hread with
          | waiting same placed argv nonempty awaits unread missing =>
            exact ⟨cmd :: cmds, .nothing same.state same.master
              (fun hm => by rw [same.readReploff]; exact hread hm) placed
              (argv ▸ .arguments awaits nonempty same.reqtype) unread
              (by rintro _ _ ⟨⟩; exact missing)⟩
          | @complete c' same placed argv unread =>
            have hargv : c'.argv ≠ [] := by
              rw [argv]
              exact hcmd.1
            have hready := processed_ready srv c'
            have hshorter' : (processCommandAndResetClient srv c').unread.length < fuel := by
              have hcount := congrArg length unread
              have hcount' := congrArg length h
              rw [length_append] at hcount hcount'
              rw [hready.unread]
              omega
            have hlive' : ∀ k, srv.halted ((cmds.take k).foldl srv.processCommand
                (processCommandAndResetClient srv c').state) = false := by
              intro k
              have hk := hlive (k + 1)
              rw [hready.state, same.state, argv]
              exact hk
            have hmaster : (processCommandAndResetClient srv c').master = c.master :=
              hready.master.trans same.master
            have hread' : (processCommandAndResetClient srv c').master = true →
                (processCommandAndResetClient srv c').readReploff + f.length = total := by
              intro hm
              rw [hready.readReploff, same.readReploff]
              exact hread (hmaster.symm.trans hm)
            obtain ⟨left, hex⟩ := ih ⟨hread', hready.placed placed,
              fun x hx => hmaster ▸ hcmds x (mem_cons_of_mem _ hx),
              ⟨_, hready.awaits cmds, by rw [hready.unread]; exact unread⟩, hlive'⟩ hshorter'
            simp only [if_neg hargv]
            exact ⟨left, hex.execute hread same placed argv unread⟩
    · have hunread : c.unread = [] := by
        rw [Client.unread, drop_eq_nil_iff]
        omega
      rw [if_neg (by tauto)]
      refine ⟨cmds, .nothing rfl rfl hread hplaced hawaits h ?_⟩
      rintro cmd rest rfl
      have hlt := hawaits.length_lt
      rwa [← h, hunread, nil_append] at hlt

end Loop

section Reads

/-- What is awaited depends on the state of the request only. -/
theorem Awaits.congr (h : Awaits c cmds r) (hargv : c'.argv = c.argv)
    (hmulti : c'.multibulklen = c.multibulklen) (hbulk : c'.bulklen = c.bulklen)
    (htype : c'.reqtype = c.reqtype) : Awaits c' cmds r := by
  cases h with
  | request h₁ h₂ h₃ h₄ =>
    exact .request (hargv.trans h₁) (hmulti.trans h₂) (hbulk.trans h₃) (by rwa [htype])
  | arguments hargs hne h =>
    rw [← hargv]
    cases hargs with
    | count hmissing hnone =>
      exact .arguments (.count (hmulti.trans hmissing) (hbulk.trans hnone)) hne (htype.trans h)
    | content hmissing hlen =>
      exact .arguments (.content (hmulti.trans hmissing) (hbulk.trans hlen)) hne (htype.trans h)

/-- Two runs one after the other. -/
theorem Executes.append {cmds left left' : List (List Bytes)} {f' : Bytes}
    {now : Client σ × List Executed} (h : Executes srv c cmds f total now left)
    (h' : Executes srv now.1 left f' total later left') :
    Executes srv c cmds f' total (later.1, now.2 ++ later.2) left' := by
  refine ⟨?_, ?_, h'.master.trans h.master, fun hm => h'.readReploff (h.master.trans hm), h'.placed,
    h'.awaits, h'.missing, ?_⟩
  · rw [map_append, append_assoc, ← h'.split]
    exact h.split
  · rw [h'.state, h.state, map_append, foldl_append]
  · intro hm i e he hmulti
    rcases lt_or_ge i now.2.length with hlt | hge
    · rw [getElem?_append_left hlt] at he
      exact h.offsets hm i e he hmulti
    · rw [getElem?_append_right hge] at he
      have hlater := h'.offsets (h.master.trans hm) _ e he hmulti
      have hdrop : cmds.drop (i + 1) = left.drop (i - now.2.length + 1) := by
        rw [h.split, drop_append, drop_eq_nil_of_le (by rw [length_map]; omega),
          nil_append, length_map]
        congr 1
        omega
      rwa [hdrop]

/-- One read: the bytes are appended, and what is complete is executed. -/
theorem readQueryFromClient_spec {nread : Bytes}
    (hlisten : Listening srv c cmds (nread ++ f) total) :
    ∃ left, Executes srv c cmds f total (readQueryFromClient srv c nread) left := by
  obtain ⟨hread, hplaced, hcmds, ⟨r, hawaits, h⟩, hlive⟩ := hlisten
  have hreceived : (receive c nread).unread = c.unread ++ nread ∧ (receive c nread).Placed ∧
      Awaits (receive c nread) cmds r ∧ (receive c nread).state = c.state ∧
      (receive c nread).master = c.master ∧
      ((receive c nread).master = true → (receive c nread).readReploff + f.length = total) := by
    have hunread : (c.querybuf ++ nread).drop c.qbPos = c.unread ++ nread :=
      drop_append_of_le_length hplaced
    have hplaced' : c.qbPos ≤ (c.querybuf ++ nread).length := by
      rw [length_append]
      exact Nat.le_add_right_of_le hplaced
    rw [receive]
    cases hmaster : c.master with
    | true =>
      refine ⟨hunread, hplaced', hawaits.congr rfl rfl rfl rfl, rfl, rfl, fun _ => ?_⟩
      have htotal := hread hmaster
      rw [length_append] at htotal
      show c.readReploff + (nread.length : Int) + f.length = total
      omega
    | false =>
      exact ⟨hunread, hplaced', hawaits.congr rfl rfl rfl rfl, rfl, rfl,
        fun hm => absurd hm Bool.false_ne_true⟩
  obtain ⟨hunread, hplaced', hawaits', hstate, hmaster, hread'⟩ := hreceived
  have hfeed : (receive c nread).unread ++ f = r := by rw [hunread, append_assoc, h]
  obtain ⟨left, hex⟩ := inputLoop_spec
    ⟨hread', hplaced', hmaster ▸ hcmds, ⟨r, hawaits', hfeed⟩, by rw [hstate]; exact hlive⟩
    (Nat.lt_succ_self _)
  obtain ⟨r', hleft, hrest⟩ := hex.awaits
  refine ⟨left, hex.split, ?_, hex.master.trans hmaster, fun hm => hex.readReploff (hmaster.trans hm),
    Nat.zero_le _, ⟨r', hleft.congr rfl rfl rfl rfl, hrest⟩, hex.missing,
    fun hm => hex.offsets (hmaster.trans hm)⟩
  rw [← hstate]
  exact hex.state

theorem readAll_spec {reads : List Bytes}
    (hlisten : Listening srv c cmds (reads.flatten ++ f) total)
    (hmissing : ∀ cmd rest, cmds = cmd :: rest → (encodeAll rest).length < (reads.flatten ++ f).length) :
    ∃ left, Executes srv c cmds f total (readAll srv c reads) left := by
  induction reads generalizing c cmds with
  | nil =>
    obtain ⟨hread, hplaced, -, ⟨r, hawaits, h⟩, -⟩ := hlisten
    exact ⟨cmds, .nothing rfl rfl hread hplaced hawaits h hmissing⟩
  | cons nread reads ih =>
    rw [flatten_cons, append_assoc] at hlisten
    obtain ⟨left, hnow⟩ := readQueryFromClient_spec hlisten
    have hsplit := hnow.split
    have hlive' : ∀ k, srv.halted ((left.take k).foldl srv.processCommand
        (readQueryFromClient srv c nread).1.state) = false := by
      intro k
      have hk := hlisten.live (((readQueryFromClient srv c nread).2.map Executed.argv).length + k)
      rwa [hsplit, take_length_add_append, foldl_append, ← hnow.state] at hk
    obtain ⟨left', hlater⟩ := ih ⟨fun hm => hnow.readReploff (hnow.master ▸ hm), hnow.placed,
      fun cmd hcmd => hnow.master ▸ hlisten.sendable cmd
        (by rw [hsplit]; exact mem_append_right _ hcmd),
      hnow.awaits, hlive'⟩ hnow.missing
    exact ⟨left', hnow.append hlater⟩

end Reads

/-- However the encoding of a list of commands is cut into reads, after any of them
exactly the commands are executed whose last byte is there, in order and with
their arguments; and on the connection of a master the offset after a command
outside a transaction is the number of bytes of the commands so far. -/
theorem input_executes_commands (srv : Server σ) (cmds : List (List Bytes))
    (master : Bool) (hcmds : ∀ cmd ∈ cmds, Sendable srv master cmd) (reads : List Bytes)
    (rest : Bytes) (hreads : reads.flatten ++ rest = encodeAll cmds) (offset : Int) (state : σ)
    (hlive : ∀ k, srv.halted ((cmds.take k).foldl srv.processCommand state) = false) :
    let result := readAll srv (createClient master offset state) reads
    ∃ k ≤ cmds.length, result.2.map Executed.argv = cmds.take k ∧
      result.1.state = (cmds.take k).foldl srv.processCommand state ∧
      (encodeAll (cmds.take k)).length ≤ reads.flatten.length ∧
      (k < cmds.length → reads.flatten.length < (encodeAll (cmds.take (k + 1))).length) ∧
      (master = true → ∀ i e, result.2[i]? = some e → e.inMulti = false →
        e.reploff = offset + (encodeAll (cmds.take (i + 1))).length) := by
  have hstart : Awaits (createClient master offset state) cmds (encodeAll cmds) :=
    .request rfl rfl rfl (by simp [createClient])
  have hmissing : ∀ cmd more, cmds = cmd :: more →
      (encodeAll more).length < (reads.flatten ++ rest).length := by
    rintro cmd more rfl
    rw [hreads]
    exact hstart.length_lt
  have hread : (createClient master offset state).master = true →
      (createClient master offset state).readReploff + (reads.flatten ++ rest).length =
        offset + (encodeAll cmds).length := fun _ => by rw [hreads]; rfl
  obtain ⟨left, hex⟩ := readAll_spec
    ⟨hread, Nat.zero_le _, hcmds, ⟨_, hstart, by rw [hreads]; rfl⟩, hlive⟩ hmissing
  obtain ⟨r, hleft, hrest⟩ := hex.awaits
  generalize readAll srv (createClient master offset state) reads = result at *
  have hsplit := hex.split
  have hcount := congrArg List.length hreads
  have hparts := congrArg (List.length ∘ encodeAll) hsplit
  have hwait := congrArg List.length hrest
  have hle := hleft.length_le
  simp only [Function.comp_apply, encodeAll_append, length_append] at hcount hparts hwait
  have htake : cmds.take result.2.length = result.2.map Executed.argv := by
    rw [hsplit]
    exact take_left' (length_map _)
  refine ⟨result.2.length, ?_, htake.symm, ?_, ?_, ?_, ?_⟩
  · rw [hsplit, length_append, length_map]
    exact Nat.le_add_right _ _
  · rw [htake]
    exact hex.state
  · rw [htake]
    omega
  · intro hk
    obtain ⟨cmd, more, rfl⟩ : ∃ cmd more, left = cmd :: more := by
      apply exists_cons_of_ne_nil
      rintro rfl
      rw [hsplit, append_nil, length_map] at hk
      exact Nat.lt_irrefl _ hk
    have hlt := hex.missing cmd more rfl
    have hnext : cmds.take (result.2.length + 1) = result.2.map Executed.argv ++ [cmd] := by
      rw [hsplit, take_append, take_of_length_le (by rw [length_map]; omega),
        length_map, Nat.add_sub_cancel_left]
      rfl
    rw [hnext, encodeAll_append, length_append]
    simp only [encodeAll_cons, encodeAll_nil, append_nil, length_append] at hparts ⊢
    omega
  · intro hm i e he hmulti
    have hoffset := hex.offsets hm i e he hmulti
    have hwhole := congrArg (List.length ∘ encodeAll) (take_append_drop (i + 1) cmds)
    simp only [Function.comp_apply, encodeAll_append, length_append] at hwhole
    omega

/-- A server that counts commands. -/
def countingServer : Server Nat :=
  { protoMaxBulkLen := 512 * 1024 * 1024, maxBulkLen_lt := by norm_num,
    processCommand := fun n _ => n + 1, inMulti := fun _ => false, halted := fun _ => false,
    processInlineBuffer := fun c => (.wait, c) }

/-- `PING`, and a command whose argument holds the two bytes that end a line. -/
def twoCommands : List (List Bytes) := [[[80, 73, 78, 71]], [[13, 10]]]

/-- The first command and the second up to the byte behind a carriage return. -/
def cutReads : List Bytes :=
  [[42, 49, 13], [10, 36, 52, 13, 10, 80, 73], [78, 71, 13, 10, 42, 49, 13]]

theorem input_executes_commands_cut :
    ∃ k ≤ 2, (readAll countingServer (createClient true 0 0) cutReads).2.map Executed.argv =
        twoCommands.take k ∧
      (encodeAll (twoCommands.take k)).length ≤ 17 ∧
      (k < 2 → 17 < (encodeAll (twoCommands.take (k + 1))).length) := by
  have hcmds : ∀ cmd ∈ twoCommands, Sendable countingServer true cmd := by
    simp [twoCommands, Sendable, Server.bulkLimit]
  obtain ⟨k, hk, hargv, _, hle, hlt, _⟩ := input_executes_commands countingServer twoCommands true
    hcmds cutReads [10, 36, 50, 13, 10, 13, 10, 13, 10] (by decide) 0 0 (fun _ => rfl)
  exact ⟨k, hk, hargv, hle, hlt⟩

end Redis.Networking.Input
