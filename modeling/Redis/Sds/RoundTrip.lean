import Redis.Sds.Quoting

/-! What `sdscatrepr` writes is read back by `sdssplitargs`, and the lines that
`sdssplitargs` refuses are those with a quote that is not closed as it should be. Both hold up to
the number of tokens that an `int` can count. -/
namespace Redis.Sds

open ByteBuffer Util List

variable {rounds n : Nat} {word p blanks line after : Bytes}

section Inverse

variable {current rest : Bytes} {c : UInt8}

/-- A character without a meaning of its own is copied. -/
theorem doubleQuoted_char (hquote : c ≠ 34) (hescape : c ≠ 92) (current rest : Bytes) :
    doubleQuoted current (c :: rest) = doubleQuoted (current ++ [c]) rest := by
  simp [doubleQuoted, hquote, hescape]

theorem doubleQuoted_close (current rest : Bytes) :
    doubleQuoted current (34 :: rest) = closeToken current rest := by
  simp [doubleQuoted]

/-- The digits that `sdscatrepr` prints are those that `sdssplitargs` accepts, with the same value. -/
theorem hexDigit_spec {n : Nat} (h : n < 16) :
    isHexDigit (hexDigit n) = true ∧ hexDigitToInt (hexDigit n) = n := by
  interval_cases n <;> decide

/-- One byte is read back inside double quotes. -/
theorem doubleQuoted_reprByte (c : UInt8) (current rest : Bytes) :
    doubleQuoted current (reprByte c ++ rest) = doubleQuoted (current ++ [c]) rest := by
  by_cases hspecial : c ∈ ([92, 34, 10, 13, 9, 7, 8] : List UInt8)
  · simp only [mem_cons, not_mem_nil, or_false] at hspecial
    rcases hspecial with rfl | rfl | rfl | rfl | rfl | rfl | rfl <;>
      simp [reprByte, doubleQuoted, unescape]
  · simp only [mem_cons, not_mem_nil, or_false, not_or] at hspecial
    obtain ⟨hbackslash, hquote, hn, hr, ht, ha, hb⟩ := hspecial
    have hbyte : reprByte c = if isprint c then [c] else
        [92, 120, hexDigit (c.toNat / 16), hexDigit (c.toNat % 16)] := by
      simp [reprByte, hbackslash, hquote, hn, hr, ht, ha, hb]
    rw [hbyte]
    split_ifs
    · exact doubleQuoted_char hquote hbackslash current rest
    · have hlt := c.toNat_lt
      obtain ⟨hhigh, hhighValue⟩ := hexDigit_spec (n := c.toNat / 16) (by omega)
      obtain ⟨hlow, hlowValue⟩ := hexDigit_spec (n := c.toNat % 16) (by omega)
      have hvalue : UInt8.ofNat (c.toNat / 16 * 16 + c.toNat % 16) = c := by
        rw [Nat.div_add_mod' c.toNat 16, UInt8.ofNat_toNat]
      simp [doubleQuoted, hhigh, hlow, hhighValue, hlowValue, hvalue]

/-- A whole string is read back, up to its closing quote. The induction carries the part of the token
that was read before. -/
theorem doubleQuoted_repr (s current rest : Bytes) :
    doubleQuoted current (s.flatMap reprByte ++ 34 :: rest) = closeToken (current ++ s) rest := by
  induction s generalizing current with
  | nil =>
    rw [append_nil]
    exact doubleQuoted_close current rest
  | cons c s ih =>
    rw [flatMap_cons, append_assoc, doubleQuoted_reprByte, ih, append_assoc]
    rfl

/-- The quoted strings one after the other, with a space between two. -/
def reprLine (args : List Bytes) : Bytes := ((args.map (sdscatrepr [])).intersperse [32]).flatten

theorem reprLine_cons_cons (s s' : Bytes) (args : List Bytes) :
    reprLine (s :: s' :: args) = 34 :: (s.flatMap reprByte ++ 34 :: 32 :: reprLine (s' :: args)) := by
  simp [reprLine, sdscatrepr]

theorem reprLine_singleton (s : Bytes) : reprLine [s] = 34 :: (s.flatMap reprByte ++ [34]) := by
  simp [reprLine, sdscatrepr]

theorem readToken_repr (s rest : Bytes) :
    readToken [] (34 :: (s.flatMap reprByte ++ 34 :: rest)) = closeToken s rest := by
  rw [readToken, if_neg (by decide), if_pos rfl, doubleQuoted_repr, nil_append]

/-- A byte that is not a NUL stays one. -/
theorem zero_notMem_reprByte (c : UInt8) : (0 : UInt8) ∉ reprByte c := by
  revert c
  decide +kernel

/-- A line of quoted strings has no NUL byte, so that `sdssplitargs` sees all of it. -/
theorem zero_notMem_reprLine (args : List Bytes) : (0 : UInt8) ∉ reprLine args := by
  have hrepr : ∀ s : Bytes, (0 : UInt8) ∉ s.flatMap reprByte := by
    intro s hmem
    obtain ⟨c, -, hc⟩ := mem_flatMap.mp hmem
    exact zero_notMem_reprByte c hc
  induction args with
  | nil => simp [reprLine]
  | cons s args ih =>
    cases args with
    | nil =>
      rw [reprLine_singleton]
      simp [hrepr s]
    | cons s' args =>
      rw [reprLine_cons_cons]
      simp [hrepr s, ih]

end Inverse

section Lines

/-- What the line starts with: none if it is blank, otherwise the token and the text behind it,
unless a quote is bad. This is one round of the loop without the count. -/
def nextToken (line : Bytes) : Option (Option (Bytes × Bytes)) :=
  if line.dropWhile isspace = [] then none else some (readToken [] (line.dropWhile isspace))

/-- A round of the loop: the line ends, the token is refused, or it is counted and the loop goes on.
-/
theorem splitLoop_succ (rounds : Nat) (line : Bytes) (argv : List Bytes) :
    splitLoop (rounds + 1) line argv =
      match nextToken line with
      | none => some (.tokens argv)
      | some none => some .null
      | some (some (current, rest)) =>
        if argv.length + 1 < 2 ^ 31 then splitLoop rounds rest (argv ++ [current])
        else some .overflow := by
  rw [splitLoop, nextToken]
  by_cases hblank : line.dropWhile isspace = []
  · simp only [hblank, if_true]
  · simp only [hblank, if_false]
    cases readToken [] (line.dropWhile isspace) <;> rfl

theorem nextToken_blank {c : UInt8} (hc : isspace c = true) (p : Bytes) :
    nextToken (c :: p) = nextToken p := by
  rw [nextToken, nextToken, dropWhile_cons_of_pos hc]

/-- A quoted string at the start of a line is its first token, if white space or nothing follows. -/
theorem nextToken_repr (s rest : Bytes) :
    nextToken (34 :: (s.flatMap reprByte ++ 34 :: rest)) = some (closeToken s rest) := by
  rw [nextToken, dropWhile_cons_of_neg (by decide), if_neg (cons_ne_nil _ _), readToken_repr]

/-- Every string takes a round of the loop, and the line is long enough for the bound on them. -/
theorem length_le_reprLine (args : List Bytes) : args.length ≤ (reprLine args).length := by
  induction args with
  | nil => exact Nat.zero_le _
  | cons s args ih =>
    cases args with
    | nil =>
      rw [reprLine_singleton]
      simp
    | cons s' args =>
      rw [reprLine_cons_cons]
      simp only [length_cons, length_append] at ih ⊢
      omega

/-- All the strings are read back, as long as `*argc` can count them with those that the loop has
read before. -/
theorem splitLoop_reprLine (args argv : List Bytes) (h : args.length < rounds)
    (hargc : argv.length < 2 ^ 31) :
    splitLoop rounds (reprLine args) argv =
      some (if argv.length + args.length < 2 ^ 31 then .tokens (argv ++ args) else .overflow) := by
  induction args generalizing argv rounds with
  | nil =>
    obtain ⟨rounds, rfl⟩ : ∃ n, rounds = n + 1 := ⟨rounds - 1, by omega⟩
    rw [length_nil, add_zero, if_pos hargc, append_nil]
    rfl
  | cons s args ih =>
    obtain ⟨rounds, rfl⟩ : ∃ n, rounds = n + 1 := ⟨rounds - 1, by omega⟩
    rw [length_cons] at h
    have htoken : ∃ rest, nextToken (reprLine (s :: args)) = some (some (s, rest)) ∧
        splitLoop rounds rest (argv ++ [s]) = splitLoop rounds (reprLine args) (argv ++ [s]) := by
      cases args with
      | nil => exact ⟨[], by rw [reprLine_singleton]; exact nextToken_repr s [], rfl⟩
      | cons s' args =>
        refine ⟨32 :: reprLine (s' :: args), ?_, ?_⟩
        · rw [reprLine_cons_cons]
          exact nextToken_repr s _
        · obtain ⟨rounds, rfl⟩ : ∃ n, rounds = n + 1 := ⟨rounds - 1, by omega⟩
          rw [splitLoop_succ, splitLoop_succ, nextToken_blank (by decide)]
    obtain ⟨rest, hnext, hrest⟩ := htoken
    simp only [splitLoop_succ, hnext, hrest]
    by_cases hroom : argv.length + 1 < 2 ^ 31
    · rw [if_pos hroom, ih (argv ++ [s]) (by omega) (by rwa [length_append]), length_append,
        append_assoc, Nat.add_assoc, length_singleton, Nat.add_comm 1]
      rfl
    · rw [if_neg hroom, length_cons, if_neg (by omega)]

end Lines

section Grammar

/-- The character `c` has a meaning of its own behind a backslash inside the quotes `q`. -/
def Escapes (q c : UInt8) : Prop := q = 34 ∨ c = 39

/-- The text behind an opening quote, and what is behind the closing quote; none if the text ends
before that. -/
inductive Quoted (q : UInt8) : Bytes → Option Bytes → Prop
  | leftOpen : Quoted q [] none
  | close (rest : Bytes) : Quoted q (q :: rest) (some rest)
  | escape {c : UInt8} {text : Bytes} {behind : Option Bytes} (hc : Escapes q c)
      (h : Quoted q text behind) : Quoted q (92 :: c :: text) behind
  | char {c : UInt8} {text : Bytes} {behind : Option Bytes} (hquote : c ≠ q)
      (hescape : c = 92 → ∀ d text', text = d :: text' → ¬ Escapes q d)
      (h : Quoted q text behind) : Quoted q (c :: text) behind

/-- White space only. -/
def Blank (s : Bytes) : Prop := ∀ c ∈ s, isspace c = true

/-- The characters of a word outside quotes. -/
def Plain (s : Bytes) : Prop := ∀ c ∈ s, isSeparator c = false ∧ c ≠ 34 ∧ c ≠ 39

/-- The start of a token: blanks, and the characters of a word up to a quote, a separator or the
end of the line. The word may be empty, and does not start with a blank. -/
structure Start (blanks word : Bytes) : Prop where
  blank : Blank blanks
  plain : Plain word
  head : ∀ c ∈ word.head?, isspace c = false

/-- A complete token at the start of a line, with the rest of the line behind it. A separator that
ends a word is used up, the blank behind a closing quote is not. -/
inductive Token : Bytes → Bytes → Prop
  | last {blanks word : Bytes} (h : Start blanks word) (hne : word ≠ []) :
      Token (blanks ++ (word ++ [])) []
  | word {blanks word rest : Bytes} {c : UInt8} (h : Start blanks word) (hne : word ≠ [])
      (hc : isSeparator c = true) : Token (blanks ++ (word ++ c :: rest)) rest
  | quoted {blanks word text rest : Bytes} {q : UInt8} (h : Start blanks word)
      (hq : q = 34 ∨ q = 39) (hclose : Quoted q text (some rest))
      (hrest : ∀ c ∈ rest.head?, isspace c = true) : Token (blanks ++ (word ++ q :: text)) rest

/-- The line starts with `n` complete tokens, and `rest` is behind them. -/
inductive Tokens : Nat → Bytes → Bytes → Prop
  | zero (line : Bytes) : Tokens 0 line line
  | succ {n : Nat} {line after rest : Bytes} (h : Token line after) (htail : Tokens n after rest) :
      Tokens (n + 1) line rest

/-- The first token of the line comes to an opening quote `q` with `text` behind it. -/
def Opens (q : UInt8) (text line : Bytes) : Prop :=
  ∃ blanks word, line = blanks ++ (word ++ q :: text) ∧ Start blanks word ∧ (q = 34 ∨ q = 39)

/-- Behind some complete tokens a quote is left open. -/
def LeftOpen (line : Bytes) : Prop :=
  ∃ n rest q text, Tokens n line rest ∧ Opens q text rest ∧ Quoted q text none

/-- Behind some complete tokens a closing quote is followed by a character that is not white
space. -/
def BadClosing (line : Bytes) : Prop :=
  ∃ n rest q text c tail, Tokens n line rest ∧ Opens q text rest ∧
    Quoted q text (some (c :: tail)) ∧ isspace c = false

/-- The line has more complete tokens at its start than an `int` can count. -/
def TooMany (line : Bytes) : Prop := ∃ rest, Tokens (2 ^ 31) line rest

end Grammar

section Refused

variable {q c : UInt8} {text rest line : Bytes} {behind behind' : Option Bytes}

/-- A quote is closed in one place only, or it is left open. -/
theorem Quoted.unique (h : Quoted q text behind) (hq : q ≠ 92) (h' : Quoted q text behind') :
    behind' = behind := by
  induction h with
  | leftOpen =>
    cases h' with
    | leftOpen => rfl
  | close rest =>
    cases h' with
    | close => rfl
    | escape => exact absurd rfl hq
    | char hquote => exact absurd rfl hquote
  | escape hc h ih =>
    cases h' with
    | close => exact absurd rfl hq
    | escape _ h' => exact ih h'
    | char _ hescape => exact absurd hc (hescape rfl _ _ rfl)
  | char hquote hescape h ih =>
    cases h' with
    | close => exact absurd rfl hquote
    | escape hc => exact absurd hc (hescape rfl _ _ rfl)
    | char _ _ h' => exact ih h'

/-- The token is refused with a quote left open, and otherwise ends with the quote. -/
def Reads (q : UInt8) (text : Bytes) (token : Option (Bytes × Bytes)) : Prop :=
  ∃ behind current, Quoted q text behind ∧ token = behind.bind (closeToken current)

variable {token : Option (Bytes × Bytes)}

theorem Reads.escape (h : Reads q text token) (hc : Escapes q c) :
    Reads q (92 :: c :: text) token := by
  obtain ⟨behind, current, h, htoken⟩ := h
  exact ⟨behind, current, .escape hc h, htoken⟩

theorem Reads.char (h : Reads q text token) (hquote : c ≠ q)
    (hescape : c = 92 → ∀ d text', text = d :: text' → ¬ Escapes q d) :
    Reads q (c :: text) token := by
  obtain ⟨behind, current, h, htoken⟩ := h
  exact ⟨behind, current, .char hquote hescape h, htoken⟩

theorem Reads.hexDigit (h : Reads 34 text token) (hc : isHexDigit c = true) :
    Reads 34 (c :: text) token := by
  apply h.char
  · rintro rfl
    exact absurd hc (by decide)
  · rintro rfl
    exact absurd hc (by decide)

/-- Inside double quotes every character is escaped by a backslash, and the two digits of a
hexadecimal escape are no quotes. -/
theorem doubleQuoted_reads (current text : Bytes) : Reads 34 text (doubleQuoted current text) := by
  fun_induction doubleQuoted current text with
  | case1 current => exact ⟨none, current, .leftOpen, rfl⟩
  | case2 current a b tail hhex ih => exact ((ih.hexDigit hhex.2).hexDigit hhex.1).escape (.inl rfl)
  | case3 current a b tail hhex ih | case4 current c tail hne ih => exact ih.escape (.inl rfl)
  | case5 current tail hne hne' => exact ⟨some tail, current, .close tail, rfl⟩
  | case6 current c tail hne hne' hquote ih =>
    exact ih.char hquote fun hc d text' ht => absurd ht (hne' d text' hc)

/-- Inside single quotes a backslash escapes a single quote only. -/
theorem singleQuoted_reads (current text : Bytes) : Reads 39 text (singleQuoted current text) := by
  fun_induction singleQuoted current text with
  | case1 current => exact ⟨none, current, .leftOpen, rfl⟩
  | case2 current tail ih => exact ih.escape (.inr rfl)
  | case3 current tail hne => exact ⟨some tail, current, .close tail, rfl⟩
  | case4 current c tail hne hquote ih =>
    refine ih.char hquote fun hc d text' ht hd => ?_
    rcases hd with hd | rfl
    · exact absurd hd (by decide)
    · exact hne text' hc ht

/-- The characters of a word are collected, up to the first that has a meaning. -/
theorem readToken_plain (hword : Plain word) (current p : Bytes) :
    readToken current (word ++ p) = readToken (current ++ word) p := by
  induction word generalizing current with
  | nil => rw [nil_append, append_nil]
  | cons c word ih =>
    obtain ⟨⟨hsep, hdouble, hsingle⟩, hword⟩ := forall_mem_cons.mp hword
    rw [cons_append, readToken, if_neg (by simp [hsep]), if_neg hdouble, if_neg hsingle,
      ih hword, append_assoc]
    rfl

/-- A token that comes to a quote is what the quote says, whatever stands before the quote. -/
theorem readToken_reads (hq : q = 34 ∨ q = 39) (current text : Bytes) :
    Reads q text (readToken current (q :: text)) := by
  rcases hq with rfl | rfl
  · exact doubleQuoted_reads _ text
  · exact singleQuoted_reads _ text

theorem quote_ne (hq : q = 34 ∨ q = 39) : q ≠ 92 := by
  rcases hq with rfl | rfl <;> decide

/-- What the grammar says of a quote, the code does with it. -/
theorem readToken_quoted (hq : q = 34 ∨ q = 39) (current : Bytes) (h : Quoted q text behind) :
    ∃ token, readToken current (q :: text) = behind.bind (closeToken token) := by
  obtain ⟨behind', token, h', htoken⟩ := readToken_reads hq current text
  exact ⟨token, h.unique (quote_ne hq) h' ▸ htoken⟩

theorem Quoted.length_lt (h : Quoted q text behind) : ∀ rest ∈ behind, rest.length < text.length := by
  induction h with
  | leftOpen => simp
  | close rest => simp
  | escape _ _ ih | char _ _ _ ih =>
    intro rest hrest
    have hlt := ih rest hrest
    simp only [length_cons]
    omega

/-- A closing quote before white space or the end of the line ends the token. -/
theorem closeToken_of_space {token : Bytes} (h : ∀ c ∈ rest.head?, isspace c = true) :
    closeToken token rest = some (token, rest) := by
  cases rest with
  | nil => rfl
  | cons c rest => rw [closeToken, if_pos (h c rfl)]

end Refused

section Rounds

variable {q c : UInt8} {text rest : Bytes}

/-- Behind blanks and the characters of a word, the token goes on with that word. The text behind
an empty word is not blank. -/
theorem Start.next (h : Start blanks word) (hp : ∀ c ∈ (word ++ p).head?, isspace c = false)
    (hne : word ++ p ≠ []) : nextToken (blanks ++ (word ++ p)) = some (readToken word p) := by
  have hdrop : (word ++ p).dropWhile isspace = word ++ p := by
    cases hword : word ++ p with
    | nil => rfl
    | cons c tail => exact dropWhile_cons_of_neg (by simp [hp c (by rw [hword]; rfl)])
  have hskip : (blanks ++ (word ++ p)).dropWhile isspace = word ++ p := by
    rw [dropWhile_append_of_pos h.blank, hdrop]
  rw [nextToken, hskip, if_neg hne, readToken_plain h.plain, nil_append]

theorem Start.next_quote (h : Start blanks word) (hq : q = 34 ∨ q = 39) (text : Bytes) :
    nextToken (blanks ++ (word ++ q :: text)) = some (readToken word (q :: text)) := by
  refine h.next (fun c hc => ?_) (by simp)
  cases word with
  | nil =>
    cases hc
    rcases hq with rfl | rfl <;> rfl
  | cons d word => exact h.head c hc

theorem Start.next_word (h : Start blanks word) (hne : word ≠ []) (p : Bytes) :
    nextToken (blanks ++ (word ++ p)) = some (readToken word p) := by
  refine h.next (fun c hc => h.head c ?_) (append_ne_nil_of_left_ne_nil hne p)
  rwa [head?_append_of_ne_nil _ hne] at hc

/-- A complete token is read in one round, and there is less of the line behind it. -/
theorem Token.next (h : Token line after) :
    after.length < line.length ∧ ∃ token, nextToken line = some (some (token, after)) := by
  cases h with
  | @last blanks word h hne =>
    have hpos := length_pos_of_ne_nil hne
    exact ⟨by simp only [length_append, length_nil]; omega, word, h.next_word hne []⟩
  | @word blanks word rest c h hne hc =>
    refine ⟨by simp only [length_append, length_cons]; omega, word, ?_⟩
    rw [h.next_word hne, readToken, if_pos hc]
  | @quoted blanks word text rest q h hq hclose hrest =>
    have hlength := hclose.length_lt after rfl
    obtain ⟨token, htoken⟩ := readToken_quoted hq word hclose
    refine ⟨by simp only [length_append, length_cons]; omega, token, ?_⟩
    rw [h.next_quote hq, htoken, Option.bind_some, closeToken_of_space hrest]

/-- The first token of the line is refused. -/
def BadQuote (line : Bytes) : Prop :=
  ∃ q text, Opens q text line ∧
    (Quoted q text none ∨ ∃ c tail, Quoted q text (some (c :: tail)) ∧ isspace c = false)

/-- A quote that is left open, or closed in front of another character, refuses the line. -/
theorem BadQuote.next (h : BadQuote line) : nextToken line = some none := by
  obtain ⟨q, text, ⟨blanks, word, rfl, hstart, hq⟩, hbad⟩ := h
  rw [hstart.next_quote hq]
  rcases hbad with hopen | ⟨c, tail, hclose, hspace⟩
  · obtain ⟨token, htoken⟩ := readToken_quoted hq word hopen
    rw [htoken, Option.bind_none]
  · obtain ⟨token, htoken⟩ := readToken_quoted hq word hclose
    rw [htoken, Option.bind_some, closeToken, if_neg (by simp [hspace])]

theorem Blank.next (h : Blank line) : nextToken line = none := by
  rw [nextToken, if_pos (dropWhile_eq_nil_iff.mpr h)]

def isPlain (c : UInt8) : Bool := !isSeparator c && c ≠ 34 && c ≠ 39

theorem isspace_of_isSeparator (h : isSeparator c = true) : isspace c = true := by
  simp only [isSeparator, Bool.or_eq_true, decide_eq_true_eq] at h
  rcases h with ((rfl | rfl) | rfl) | rfl <;> rfl

/-- A line that is not blank starts with a word, which ends with the line, at a separator or at a
quote. Only at a quote the word can be empty. -/
theorem exists_start (hline : line.dropWhile isspace ≠ []) :
    ∃ blanks word tail, line = blanks ++ (word ++ tail) ∧ Start blanks word ∧
      (tail = [] ∧ word ≠ [] ∨ ∃ d rest, tail = d :: rest ∧
        (isSeparator d = true ∧ word ≠ [] ∨ d = 34 ∨ d = 39)) := by
  obtain ⟨c, p, hp⟩ := exists_cons_of_ne_nil hline
  have hspace : isspace c = false := by
    have hnot := head_dropWhile_not isspace hline
    simpa [hp] using hnot
  have hfirst : isSeparator c ≠ true := by
    intro hsep
    rw [isspace_of_isSeparator hsep] at hspace
    cases hspace
  have happend := takeWhile_append_dropWhile (p := isPlain) (l := c :: p)
  refine ⟨line.takeWhile isspace, (c :: p).takeWhile isPlain, (c :: p).dropWhile isPlain, ?_,
    ⟨fun d hd => mem_takeWhile_imp hd, fun d hd => ?_, fun d hd => ?_⟩, ?_⟩
  · rw [happend, ← hp, takeWhile_append_dropWhile]
  · simpa [isPlain, and_assoc] using mem_takeWhile_imp hd
  · cases hplain : isPlain c with
    | false => simp [hplain] at hd
    | true =>
      rw [takeWhile_cons_of_pos hplain] at hd
      cases hd
      exact hspace
  · cases htail : (c :: p).dropWhile isPlain with
    | nil =>
      refine .inl ⟨rfl, fun hnil => ?_⟩
      rw [hnil, htail] at happend
      cases happend
    | cons d rest =>
      have hd : isPlain d = false := by
        have hnot := head_dropWhile_not isPlain
          (show (c :: p).dropWhile isPlain ≠ [] by simp [htail])
        simpa [htail] using hnot
      refine .inr ⟨d, rest, rfl, ?_⟩
      by_cases hsep : isSeparator d = true
      · refine .inl ⟨hsep, fun hnil => ?_⟩
        rw [hnil, htail] at happend
        cases happend
        exact hfirst hsep
      · right
        by_contra hq
        rw [not_or] at hq
        simp [isPlain, hsep, hq] at hd

/-- Every line is blank, or its first token is refused or complete. -/
theorem line_cases (line : Bytes) : Blank line ∨ BadQuote line ∨ ∃ after, Token line after := by
  by_cases hblank : line.dropWhile isspace = []
  · exact .inl (dropWhile_eq_nil_iff.mp hblank)
  right
  obtain ⟨blanks, word, tail, rfl, hstart, ⟨rfl, hne⟩ | ⟨d, rest, rfl, hd⟩⟩ := exists_start hblank
  · exact .inr ⟨[], .last hstart hne⟩
  rcases hd with ⟨hsep, hne⟩ | hq
  · exact .inr ⟨rest, .word hstart hne hsep⟩
  have hopens : Opens d rest (blanks ++ (word ++ d :: rest)) := ⟨blanks, word, rfl, hstart, hq⟩
  obtain ⟨behind, -, hquoted, -⟩ := readToken_reads hq word rest
  match behind with
  | none => exact .inl ⟨d, rest, hopens, .inl hquoted⟩
  | some [] => exact .inr ⟨[], .quoted hstart hq hquoted (by simp)⟩
  | some (c :: after) =>
    cases hspace : isspace c with
    | true => exact .inr ⟨c :: after, .quoted hstart hq hquoted (by simp [hspace])⟩
    | false => exact .inl ⟨d, rest, hopens, .inr ⟨c, after, hquoted, hspace⟩⟩

/-- Tokens are read in one way only, since the code is a function of the line. -/
theorem Tokens.succ_iff (h : Token line after) : Tokens (n + 1) line rest ↔ Tokens n after rest := by
  refine ⟨fun htokens => ?_, .succ h⟩
  cases htokens with
  | succ h' htail =>
    obtain ⟨-, token, htoken⟩ := h.next
    obtain ⟨-, token', htoken'⟩ := h'.next
    rw [htoken, Option.some.injEq, Option.some.injEq, Prod.mk.injEq] at htoken'
    rwa [htoken'.2]

/-- Where the code reads no token, the grammar has none. -/
theorem not_tokens_of_next (hnot : ∀ token, nextToken line ≠ some (some token)) :
    ¬ Tokens (n + 1) line rest := by
  intro h
  cases h with
  | succ h _ =>
    obtain ⟨-, token, htoken⟩ := h.next
    exact hnot _ htoken

/-- Behind some complete tokens there is one that is refused. -/
def Refused (line : Bytes) : Prop := ∃ n rest, Tokens n line rest ∧ BadQuote rest

theorem refused_iff (line : Bytes) : LeftOpen line ∨ BadClosing line ↔ Refused line := by
  constructor
  · rintro (⟨n, rest, q, text, htokens, hopens, hbad⟩ | ⟨n, rest, q, text, c, tail, htokens, hopens, hbad⟩)
    · exact ⟨n, rest, htokens, q, text, hopens, .inl hbad⟩
    · exact ⟨n, rest, htokens, q, text, hopens, .inr ⟨c, tail, hbad⟩⟩
  · rintro ⟨n, rest, htokens, q, text, hopens, hbad | ⟨c, tail, hbad⟩⟩
    · exact .inl ⟨n, rest, q, text, htokens, hopens, hbad⟩
    · exact .inr ⟨n, rest, q, text, c, tail, htokens, hopens, hbad⟩

/-- A complete token does not change whether the line behind it is refused. -/
theorem refused_of_token (h : Token line after) : Refused line ↔ Refused after := by
  constructor
  · rintro ⟨n, rest, htokens, hbad⟩
    cases n with
    | zero =>
      cases htokens
      obtain ⟨-, token, htoken⟩ := h.next
      rw [hbad.next] at htoken
      cases htoken
    | succ n => exact ⟨n, rest, (Tokens.succ_iff h).mp htokens, hbad⟩
  · rintro ⟨n, rest, htokens, hbad⟩
    exact ⟨n + 1, rest, .succ h htokens, hbad⟩

theorem not_refused_of_blank (h : Blank line) : ¬ Refused line := by
  rintro ⟨n, rest, htokens, hbad⟩
  cases n with
  | zero =>
    cases htokens
    exact nomatch h.next.symm.trans hbad.next
  | succ n => exact not_tokens_of_next (by simp [h.next]) htokens

/-- Enough rounds give a result. With `argv` read before and room for `room` tokens more, `*argc`
overflows exactly if that many tokens and one more follow, and otherwise the line is refused
exactly if a quote is bad. The induction is on the rounds, each of which uses up a token. -/
theorem splitLoop_spec {room : Nat} {argv : List Bytes} (hrounds : line.length < rounds)
    (hroom : argv.length + room + 1 = 2 ^ 31) :
    ∃ r, splitLoop rounds line argv = some r ∧
      (r = .overflow ↔ ∃ rest, Tokens (room + 1) line rest) ∧
      (r = .null ↔ (¬ ∃ rest, Tokens (room + 1) line rest) ∧ Refused line) := by
  induction rounds generalizing line argv room with
  | zero => exact absurd hrounds (by omega)
  | succ rounds ih =>
    rw [splitLoop_succ]
    rcases line_cases line with hblank | hbad | ⟨after, htoken⟩
    · have hnone : ¬ ∃ rest, Tokens (room + 1) line rest :=
        fun ⟨_, h⟩ => not_tokens_of_next (by simp [hblank.next]) h
      rw [hblank.next]
      exact ⟨_, rfl, iff_of_false (by simp) hnone,
        iff_of_false (by simp) fun h => not_refused_of_blank hblank h.2⟩
    · have hnone : ¬ ∃ rest, Tokens (room + 1) line rest :=
        fun ⟨_, h⟩ => not_tokens_of_next (by simp [hbad.next]) h
      rw [hbad.next]
      exact ⟨_, rfl, iff_of_false (by simp) hnone,
        iff_of_true rfl ⟨hnone, 0, line, .zero line, hbad⟩⟩
    · obtain ⟨hless, token, hnext⟩ := htoken.next
      simp only [hnext, Tokens.succ_iff htoken, refused_of_token htoken]
      cases room with
      | zero =>
        rw [if_neg (by omega)]
        have hfull : ∃ rest, Tokens 0 after rest := ⟨after, .zero after⟩
        exact ⟨_, rfl, iff_of_true rfl hfull, iff_of_false (by simp) fun h => h.1 hfull⟩
      | succ room =>
        rw [if_pos (by omega)]
        exact ih (by omega) (by rw [length_append, length_singleton]; omega)

end Rounds

/-- Strings that are quoted and joined with spaces are read back if they are fewer than `2^31`. On
every line `sdssplitargs` ends; if the line does not start with `2^31` complete tokens it returns
`NULL` exactly where a quote is left open or closed too early, and otherwise `*argc` overflows. -/
theorem quoted_strings_parse_back (args : List Bytes) (line : Bytes) :
    sdssplitargs (reprLine args) =
      some (if args.length < 2 ^ 31 then .tokens args else .overflow) ∧
    ∃ r, sdssplitargs line = some r ∧ (r = .overflow ↔ TooMany (cString line)) ∧
      (r = .null ↔ ¬ TooMany (cString line) ∧
        (LeftOpen (cString line) ∨ BadClosing (cString line))) := by
  constructor
  · have hlength := length_le_reprLine args
    rw [sdssplitargs, cString_eq_self (zero_notMem_reprLine args),
      splitLoop_reprLine args [] (by omega) (by simp), length_nil, zero_add, nil_append]
  · rw [refused_iff]
    have hroom : ([] : List Bytes).length + (2 ^ 31 - 1) + 1 = 2 ^ 31 := rfl
    exact splitLoop_spec (Nat.lt_succ_self _) hroom

/-- One string too many: `*argc` is `INT_MAX` when the last token is added. -/
theorem too_many_strings_overflow :
    sdssplitargs (reprLine (replicate (2 ^ 31) [])) = some .overflow := by
  have hlength := length_le_reprLine (replicate (2 ^ 31) [])
  rw [sdssplitargs, cString_eq_self (zero_notMem_reprLine _),
    splitLoop_reprLine _ [] (by omega) (by simp), length_replicate, if_neg (by simp)]

end Redis.Sds
