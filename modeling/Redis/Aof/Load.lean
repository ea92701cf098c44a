import Redis.Resp

/-! Replaying the append only file: `loadAppendOnlyFile` of `aof.c`, over the bytes of
the file. What a command does to the data set is a parameter; `MULTI` and `EXEC`
are modelled, because the loader looks at them. -/
namespace Redis.Aof

open ByteBuffer Util Resp List Bool

variable {n : Nat} {kind : UInt8}
variable {args argv : List Bytes} {c : UInt8}

section Reading

/-- At most `n` bytes, up to and with the first newline. -/
def fgetsLoop : Nat → Bytes → Bytes × Bytes
  | 0, s => ([], s)
  | _ + 1, [] => ([], [])
  | n + 1, b :: s => if b = 10 then ([b], s) else (b :: (fgetsLoop n s).1, (fgetsLoop n s).2)

/-- `fgets` with the loader's buffer of 128 bytes: a line and the bytes behind it. -/
def fgets (s : Bytes) : Option (Bytes × Bytes) := if s = [] then none else some (fgetsLoop 127 s)

/-- Whether `fgets` met the end of the file when it read this line. -/
def hitEof (line : Bytes) : Bool := line.length < 127 && line.getLast? != some 10

/-- What comes next in the file. A read error tells whether the end of the file was hit. -/
inductive Read (α : Type) where
  | eof
  | ok (value : α) (rest : Bytes)
  | readerr (feof : Bool)
  | fmterr
deriving DecidableEq, Repr

/-- One argument: its length, its bytes and two bytes that are not looked at. -/
def readArg (s : Bytes) : Read Bytes :=
  match fgets s with
  | none => .readerr true
  | some (line, s) =>
    if line.head? ≠ some 36 then .fmterr
    else
      let len := (strtol line.tail % 2 ^ 64).toNat
      if s.length < len then .readerr true
      else if (s.drop len).length < 2 then .readerr true
      else .ok (s.take len) ((s.drop len).drop 2)

def readArgs : Nat → Bytes → Read (List Bytes)
  | 0, s => .ok [] s
  | n + 1, s =>
    match readArg s with
    | .ok arg s =>
      match readArgs n s with
      | .ok args s => .ok (arg :: args) s
      | .eof => .eof
      | .readerr feof => .readerr feof
      | .fmterr => .fmterr
    | .eof => .eof
    | .readerr feof => .readerr feof
    | .fmterr => .fmterr

/-- One command. Only here the end of the file is no error. -/
def readCommand (s : Bytes) : Read (List Bytes) :=
  match fgets s with
  | none => .eof
  | some (line, s) =>
    if line.head? ≠ some 42 then .fmterr
    else if line.tail.head?.getD 0 = 0 then .readerr (hitEof line)
    else if atoi line.tail < 1 then .fmterr
    else readArgs (atoi line.tail).toNat s

end Reading

/-- The entry of the command table, as far as the loader tells them apart. -/
inductive Command where
  | multi
  | exec
  | other
deriving DecidableEq, Repr

/-- The server that loads: its commands, its data set before the load, the setting
`aof-load-truncated` and the loader of an RDB preamble, which returns the data set
and the position behind the preamble, or whether it failed at the end of the file. -/
structure Server (σ : Type) where
  known : Bytes → Bool
  call : σ → List Bytes → σ
  init : σ
  aofLoadTruncated : Bool
  rdbLoadRio : Bytes → Except Bool (σ × Nat)

variable {σ : Type}

def multiName : Bytes := [77, 85, 76, 84, 73]

def execName : Bytes := [69, 88, 69, 67]

/-- Names of commands are compared without their case. -/
def lookupCommand (srv : Server σ) (name : Bytes) : Option Command :=
  if name.map toLower = multiName.map toLower then some .multi
  else if name.map toLower = execName.map toLower then some .exec
  else if srv.known name then some .other
  else none

/-- The fake client with its transaction, the data set, and the two offsets. -/
structure Loader (σ : Type) where
  data : σ
  multi : Bool
  queue : List (List Bytes)
  validUpTo : Nat
  validBeforeMulti : Nat

/-- `EXEC` of the fake client. -/
def execCommand (srv : Server σ) (l : Loader σ) : Loader σ :=
  if l.multi then { l with data := l.queue.foldl srv.call l.data, multi := false, queue := [] } else l

/-- Look a command up and run it, or queue it. -/
def runCommand (srv : Server σ) (l : Loader σ) (argv : List Bytes) : Option (Loader σ) :=
  match lookupCommand srv (argv.head?.getD []) with
  | none => none
  | some cmd =>
    let l := if cmd = .multi then { l with validBeforeMulti := l.validUpTo } else l
    if l.multi = true ∧ cmd ≠ .exec then some { l with queue := l.queue ++ [argv] }
    else
      match cmd with
      | .multi => some { l with multi := true }
      | .exec => some (execCommand srv l)
      | .other => some { l with data := srv.call l.data argv }

/-- The outcome: the file was empty (`C_ERR`), the data set is loaded and the file
perhaps truncated, or the server exits. -/
inductive Loaded (σ : Type) where
  | empty
  | ok (data : σ) (file : Bytes) (truncated : Bool)
  | exit
deriving DecidableEq, Repr

/-- The label `uxeof`: an unexpected end of the file. -/
def unexpectedEof (srv : Server σ) (file : Bytes) (l : Loader σ) : Loaded σ :=
  if srv.aofLoadTruncated then .ok l.data (file.take l.validUpTo) true else .exit

/-- The command loop; each round reads at least one byte. -/
def loadLoop (srv : Server σ) (file : Bytes) : Nat → Loader σ → Bytes → Loaded σ
  | 0, _, _ => .exit
  | fuel + 1, l, s =>
    match readCommand s with
    | .eof =>
      if l.multi then unexpectedEof srv file { l with validUpTo := l.validBeforeMulti }
      else .ok l.data file false
    | .fmterr => .exit
    | .readerr feof => if feof then unexpectedEof srv file l else .exit
    | .ok argv s =>
      match runCommand srv l argv with
      | none => .exit
      | some l =>
        loadLoop srv file fuel
          (if srv.aofLoadTruncated then { l with validUpTo := file.length - s.length } else l) s

/-- The five bytes `REDIS`. -/
def rdbSignature : Bytes := [82, 69, 68, 73, 83]

def createAOFClient (data : σ) : Loader σ := ⟨data, false, [], 0, 0⟩

def loadAppendOnlyFile (srv : Server σ) (file : Bytes) : Loaded σ :=
  if file = [] then .empty
  else if file.take 5 = rdbSignature then
    match srv.rdbLoadRio file with
    | .ok (data, pos) => loadLoop srv file (file.length + 1) (createAOFClient data) (file.drop pos)
    | .error feof => if feof then unexpectedEof srv file (createAOFClient srv.init) else .exit
  else loadLoop srv file (file.length + 1) (createAOFClient srv.init) file

/-- The data set after the load, if the server comes up. -/
def Loaded.dataset (srv : Server σ) : Loaded σ → Option σ
  | .empty => some srv.init
  | .ok data _ _ => some data
  | .exit => none

section ReadingLemmas

variable {a p q s t : Bytes} {v w argc : Nat}

theorem le_strtolDigits (s : Bytes) (v : Nat) : v ≤ strtolDigits s v := by
  induction s generalizing v with
  | nil => exact le_refl v
  | cons c rest ih =>
    rw [strtolDigits]
    split_ifs
    · exact le_trans (by omega) (ih _)
    · exact le_refl v

theorem strtolDigits_le_append (s t : Bytes) (v : Nat) :
    strtolDigits s v ≤ strtolDigits (s ++ t) v := by
  induction s generalizing v with
  | nil => exact le_strtolDigits t v
  | cons c rest ih =>
    rw [cons_append, strtolDigits, strtolDigits]
    split_ifs
    · exact ih _
    · exact le_refl v

/-- The number of a count line. -/
theorem strtolDigits_count (hn : n < 2 ^ 63) : strtolDigits (ll2string n ++ crlf) 0 = n := by
  rw [digits_of_count hn]
  rcases Nat.eq_zero_or_pos n with rfl | hpos
  · rfl
  · exact strtolDigits_of_string2llDigits
      (string2llDigits_of_decimal hpos (by rw [ullongMax]; omega)) rfl

theorem fgetsLoop_line {pre : Bytes} (hpre : (10 : UInt8) ∉ pre) (hn : pre.length < n)
    (rest : Bytes) : fgetsLoop n (pre ++ 10 :: rest) = (pre ++ [10], rest) := by
  induction pre generalizing n with
  | nil =>
    obtain ⟨n, rfl⟩ := Nat.exists_eq_add_of_lt hn
    simp [fgetsLoop]
  | cons b pre ih =>
    rw [length_cons] at hn
    obtain ⟨n, rfl⟩ : ∃ m, n = m + 1 := ⟨n - 1, by omega⟩
    obtain ⟨hb, hpre⟩ : 10 ≠ b ∧ 10 ∉ pre := by simpa using hpre
    rw [cons_append, fgetsLoop, if_neg hb.symm, ih hpre (by omega)]
    rfl

theorem fgetsLoop_all (hs : (10 : UInt8) ∉ s) (hn : s.length ≤ n) :
    fgetsLoop n s = (s, []) := by
  induction s generalizing n with
  | nil => cases n <;> rfl
  | cons b s ih =>
    rw [length_cons] at hn
    obtain ⟨n, rfl⟩ : ∃ m, n = m + 1 := ⟨n - 1, by omega⟩
    obtain ⟨hb, hs⟩ : 10 ≠ b ∧ 10 ∉ s := by simpa using hs
    rw [fgetsLoop, if_neg hb.symm, ih hs (by omega)]

section

variable (hn : n < 2 ^ 63)
include hn

/-- The printed count starts with a digit, which is not zero unless the count is. -/
theorem count_head : ∃ c rest, ll2string n = c :: rest ∧ isDigit c ∧ (0 < n → 49 ≤ c.toNat) := by
  cases hd : decimal n with
  | nil => exact absurd hd (decimal_ne_nil n)
  | cons c rest =>
    have hdigit : isDigit c := isDigit_of_mem_decimal (hd ▸ mem_cons_self)
    refine ⟨c, rest, by rw [digits_of_count hn, hd], hdigit, fun hpos => ?_⟩
    have hdigits := string2llDigits_of_decimal hpos (by rw [ullongMax]; omega)
    rw [hd, string2llDigits] at hdigits
    split_ifs at hdigits with hc
    exact hc.1

theorem not_newline_count : (10 : UInt8) ∉ ll2string n :=
  fun hmem => absurd (isDigit_count hn hmem) (by decide)

theorem count_length : (ll2string n).length ≤ 19 := by
  rw [digits_of_count hn]
  exact decimal_length_le (by norm_num) (by omega)

theorem strtol_count : strtol (ll2string n ++ crlf) = n := by
  have hvalue := strtolDigits_count hn
  obtain ⟨c, rest, hd, hdigit, -⟩ := count_head hn
  rw [hd, cons_append] at hvalue ⊢
  rw [strtol_of_digit hdigit, hvalue]
  omega

/-- A count that is cut short reads as a smaller one, and as zero only if it is zero. -/
theorem strtol_cut (h : p ++ q = ll2string n ++ crlf) (hp : p ≠ []) :
    ∃ v : Nat, strtol p = v ∧ v ≤ n ∧ (0 < n → 0 < v) := by
  have hle := strtolDigits_le_append p q 0
  rw [h, strtolDigits_count hn] at hle
  obtain ⟨c, rest, hd, hdigit, hhead⟩ := count_head hn
  cases p with
  | nil => exact absurd rfl hp
  | cons b p =>
    rw [hd, cons_append, cons_append, cons.injEq] at h
    obtain ⟨rfl, -⟩ := h
    refine ⟨strtolDigits (b :: p) 0, ?_, hle, fun hpos => ?_⟩
    · rw [strtol_of_digit hdigit]
      omega
    · rw [strtolDigits, if_pos hdigit]
      have hstart := le_strtolDigits p (0 * 10 + (b.toNat - 48))
      omega

end

theorem countLine_eq (kind : UInt8) (n : Nat) :
    countLine kind n = (kind :: ll2string n ++ [13]) ++ [10] := by simp [countLine, crlf]

theorem not_newline_line (hkind : kind ≠ 10) (hn : n < 2 ^ 63) :
    (10 : UInt8) ∉ kind :: ll2string n ++ [13] := by simp [hkind.symm, not_newline_count hn]

theorem fgets_countLine (hkind : kind ≠ 10) (hn : n < 2 ^ 63) (rest : Bytes) :
    fgets (countLine kind n ++ rest) = some (countLine kind n, rest) := by
  have hlen := count_length hn
  rw [fgets, if_neg (by simp [countLine]), countLine_eq, append_assoc, singleton_append,
    fgetsLoop_line (not_newline_line hkind hn) (by simp; omega)]

/-- A count line that is cut short holds no newline, so it is read up to the end of the file. -/
theorem fgets_cut (hkind : kind ≠ 10) (hn : n < 2 ^ 63) (h : p ++ q = countLine kind n)
    (hp : p ≠ []) (hq : q ≠ []) : fgets p = some (p, []) := by
  obtain rfl | ⟨q, b, rfl⟩ := eq_nil_or_concat q
  · exact absurd rfl hq
  · rw [countLine_eq, concat_eq_append, ← append_assoc] at h
    have hcut := (append_inj' h rfl).1
    have hpre : (10 : UInt8) ∉ p := fun hmem =>
      not_newline_line hkind hn (hcut ▸ mem_append_left q hmem)
    have hlen : p.length ≤ 127 := by
      have hcount := count_length hn
      have hsum := congrArg length hcut
      simp only [length_append, length_cons, length_nil] at hsum
      omega
    rw [fgets, if_neg hp, fgetsLoop_all hpre hlen]

/-- A command the loader can read back: the counts fit the types it reads them into. -/
structure WellSized (argv : List Bytes) : Prop where
  ne_nil : argv ≠ []
  argc : argv.length < 2 ^ 31
  len : ∀ a ∈ argv, a.length < 2 ^ 63

theorem strtol_countLine (kind : UInt8) (hn : n < 2 ^ 63) :
    (strtol (countLine kind n).tail % 2 ^ 64).toNat = n := by
  rw [show (countLine kind n).tail = ll2string n ++ crlf from rfl, strtol_count hn]
  omega

theorem readArg_bulk (ha : a.length < 2 ^ 63) (rest : Bytes) :
    readArg (bulk a ++ rest) = .ok a rest := by
  have hline : bulk a ++ rest = countLine 36 a.length ++ (a ++ (crlf ++ rest)) := by
    simp [bulk]
  rw [readArg, hline, fgets_countLine (by decide) ha]
  simp only [strtol_countLine 36 ha]
  rw [if_neg (by simp [countLine]), if_neg (by simp), drop_left, take_left,
    if_neg (by simp [crlf])]
  rfl

/-- A cut of two strings in a row falls inside the first one or behind it. -/
theorem append_cut {l m : Bytes} (h : p ++ q = l ++ m) :
    (∃ t, t ≠ [] ∧ p ++ t = l) ∨ ∃ t, p = l ++ t ∧ t ++ q = m := by
  rcases append_eq_append_iff.mp h with ⟨t, rfl, rfl⟩ | ⟨t, rfl, rfl⟩
  · rcases eq_or_ne t [] with rfl | ht
    · exact .inr ⟨[], by simp, rfl⟩
    · exact .inl ⟨t, ht, rfl⟩
  · exact .inr ⟨t, rfl, rfl⟩

/-- The end of the file inside an argument. -/
theorem readArg_cut (ha : a.length < 2 ^ 63) (h : p ++ q = bulk a) (hq : q ≠ []) :
    readArg p = .readerr true := by
  rw [bulk, append_assoc] at h
  rcases append_cut h with ⟨t, ht, hline⟩ | ⟨t, rfl, hrest⟩
  · cases p with
    | nil => rfl
    | cons b p =>
      obtain rfl : b = 36 := (cons.inj hline).1
      -- nothing is left behind the cut line, whatever length it gives
      rw [readArg, fgets_cut (by decide) ha hline (cons_ne_nil _ _) ht]
      simp
  · have hshort : t.length < a.length + 2 := by
      have hsum := congrArg length hrest
      have hpos := length_pos_iff.mpr hq
      simp only [length_append, crlf, length_cons, length_nil] at hsum
      omega
    rw [readArg, fgets_countLine (by decide) ha]
    simp only [strtol_countLine 36 ha]
    rw [if_neg (by simp [countLine])]
    split_ifs with hbytes hend
    · rfl
    · rfl
    · rw [length_drop] at hend
      omega

theorem readArgs_bulks (hlen : ∀ a ∈ args, a.length < 2 ^ 63) (rest : Bytes) :
    readArgs args.length (bulks args ++ rest) = .ok args rest := by
  induction args with
  | nil => rfl
  | cons a args ih =>
    rw [length_cons, bulks_cons, append_assoc, readArgs,
      readArg_bulk (hlen a mem_cons_self)]
    simp only [ih fun b hb => hlen b (mem_cons_of_mem a hb)]

theorem readArgs_cut (hlen : ∀ a ∈ args, a.length < 2 ^ 63)
    (h : p ++ q = bulks args) (hq : q ≠ []) : readArgs args.length p = .readerr true := by
  induction args generalizing p with
  | nil => exact absurd (append_eq_nil_iff.mp h).2 hq
  | cons a args ih =>
    have ha := hlen a mem_cons_self
    rw [length_cons, readArgs]
    rcases append_cut h with ⟨t, ht, hbulk⟩ | ⟨t, rfl, hrest⟩
    · rw [readArg_cut ha hbulk ht]
    · rw [readArg_bulk ha]
      simp only [ih (fun b hb => hlen b (mem_cons_of_mem a hb)) hrest]

theorem atoi_of_count (h : strtol s = n) (hn : n < 2 ^ 31) : atoi s = n := by
  rw [atoi, h, cInt_of_lt hn]

/-- The first line of a command gives the number of its arguments. -/
theorem readCommand_line (hpos : 0 < argc) (hargc : argc < 2 ^ 31) (rest : Bytes) :
    readCommand (countLine 42 argc ++ rest) = readArgs argc rest := by
  have hlong : argc < 2 ^ 63 := by omega
  have hcount : atoi (countLine 42 argc).tail = argc := atoi_of_count (strtol_count hlong) hargc
  obtain ⟨c, digits, hd, -, hhead⟩ := count_head hlong
  have hfirst : (countLine 42 argc).tail.head?.getD 0 ≠ 0 := by
    have hc := hhead hpos
    rw [countLine, hd]
    rintro rfl
    exact absurd hc (by decide)
  rw [readCommand, fgets_countLine (by decide) hlong]
  simp only [hcount]
  rw [if_neg (by simp [countLine]), if_neg hfirst, if_neg (by omega), Int.toNat_natCast]

/-- A first line that is cut short still gives a positive number of arguments, none of
which is there. -/
theorem readCommand_line_cut (hpos : 0 < argc) (hargc : argc < 2 ^ 31)
    (h : p ++ t = countLine 42 argc) (hp : p ≠ []) (ht : t ≠ []) : readCommand p = .readerr true := by
  have hlong : argc < 2 ^ 63 := by omega
  rw [readCommand, fgets_cut (by decide) hlong h hp ht]
  rcases p with _ | ⟨b, _ | ⟨c, p⟩⟩
  · exact absurd rfl hp
  · obtain rfl : b = 42 := (cons.inj h).1
    rfl
  · obtain ⟨rfl, hdigits⟩ := cons.inj h
    obtain ⟨v, hv, hle, hvpos⟩ := strtol_cut hlong hdigits (cons_ne_nil c p)
    obtain ⟨v, rfl⟩ : ∃ w, v = w + 1 := ⟨v - 1, by have := hvpos hpos; omega⟩
    have hfirst : c ≠ 0 := by
      obtain ⟨d, rest, hd, -, hhead⟩ := count_head hlong
      rw [hd] at hdigits
      obtain ⟨rfl, -⟩ := cons.inj hdigits
      rintro rfl
      exact absurd (hhead hpos) (by decide)
    simp only [tail_cons, head?_cons, Option.getD_some, ne_eq, not_true_eq_false,
      if_false, hfirst, atoi_of_count hv (by omega)]
    rfl

/-- What `catAppendOnlyGenericCommand` writes is read back. -/
theorem readCommand_encoded (hargv : WellSized argv) (rest : Bytes) :
    readCommand (catAppendOnlyGenericCommand argv ++ rest) = .ok argv rest := by
  rw [catAppendOnlyGenericCommand, append_assoc,
    readCommand_line (length_pos_iff.mpr hargv.ne_nil) hargv.argc, readArgs_bulks hargv.len]

/-- The end of the file inside a command is a short read. -/
theorem readCommand_cut (hargv : WellSized argv)
    (h : p ++ q = catAppendOnlyGenericCommand argv) (hp : p ≠ []) (hq : q ≠ []) :
    readCommand p = .readerr true := by
  have hpos := length_pos_iff.mpr hargv.ne_nil
  rcases append_cut h with ⟨t, ht, hline⟩ | ⟨t, rfl, hrest⟩
  · exact readCommand_line_cut hpos hargv.argc hline hp ht
  · rw [readCommand_line hpos hargv.argc]
    exact readArgs_cut hargv.len hrest hq

end ReadingLemmas

end Redis.Aof
