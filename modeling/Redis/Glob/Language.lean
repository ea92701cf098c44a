import Redis.Glob

/-! The language of a glob-style pattern, and that `stringmatchlen` accepts it. -/
namespace Redis.Glob

open ByteBuffer List

/-- What stands in a class. -/
inductive Item where
  | escaped (b : UInt8)
  | range (x y : UInt8)
  | single (b : UInt8)

/-- What a pattern is made of. A class may miss its closing bracket, and a backslash the
byte behind it. -/
inductive Token where
  | star
  | any
  | byte (b : UInt8)
  | backslash
  | set (negated : Bool) (items : List Item) (closed : Bool)

/-- The items of a class, and the pattern behind its closing bracket. -/
def splitClass : Bytes → List Item × Option Bytes
  | [] => ([], none)
  | 92 :: e :: rest => (.escaped e :: (splitClass rest).1, (splitClass rest).2)
  | 93 :: rest => ([], some rest)
  | a :: 45 :: b :: rest => (.range a b :: (splitClass rest).1, (splitClass rest).2)
  | a :: rest => (.single a :: (splitClass rest).1, (splitClass rest).2)

def classToken (negated : Bool) (body : Bytes) : Token × Bytes :=
  (.set negated (splitClass body).1 (splitClass body).2.isSome, (splitClass body).2.getD [])

/-- The first token of a pattern, and the pattern behind it. -/
def nextToken : Bytes → Option (Token × Bytes)
  | [] => none
  | 42 :: rest => some (.star, rest)
  | 63 :: rest => some (.any, rest)
  | 91 :: 94 :: body => some (classToken true body)
  | 91 :: body => some (classToken false body)
  | [92] => some (.backslash, [])
  | 92 :: e :: rest => some (.byte e, rest)
  | a :: rest => some (.byte a, rest)

theorem splitClass_length (body : Bytes) : ((splitClass body).2.getD []).length ≤ body.length := by
  fun_induction splitClass body <;> simp_all <;> omega

theorem nextToken_length {p rest : Bytes} {t : Token} (h : nextToken p = some (t, rest)) :
    rest.length < p.length := by
  have hclass (negated : Bool) {body : Bytes} (h : some (classToken negated body) = some (t, rest)) :
      rest.length ≤ body.length := by
    rw [← (Prod.mk.inj (Option.some.inj h)).2]
    exact splitClass_length body
  rw [nextToken.eq_def] at h
  split at h
  case h_4 => exact Nat.lt_succ_of_lt (Nat.lt_succ_of_le (hclass true h))
  case h_5 => exact Nat.lt_succ_of_le (hclass false h)
  all_goals
    cases h <;> simp only [length_cons, length_nil] <;> omega

def tokens (p : Bytes) : List Token :=
  match _h : nextToken p with
  | none => []
  | some (t, rest) => t :: tokens rest
termination_by p.length
decreasing_by exact nextToken_length _h

/-- A range has the bytes between its ends, in the order of `char`. -/
def Item.Covers (c : UInt8) : Item → Prop
  | .escaped b => c = b
  | .range x y => schar x ≤ schar c ∧ schar c ≤ schar y ∨ schar y ≤ schar c ∧ schar c ≤ schar x
  | .single b => c = b

/-- The bytes that a token other than a star stands for. -/
def Token.Covers (c : UInt8) : Token → Prop
  | .star => False
  | .any => True
  | .byte b => c = b
  | .backslash => c = 92
  | .set negated items _ => (∃ item ∈ items, item.Covers c) ↔ negated = false

/-- The strings that tokens stand for. -/
inductive Lang (covers : UInt8 → Token → Prop) : List Token → Bytes → Prop where
  | nil : Lang covers [] []
  | star (skipped : Bytes) {ts : List Token} {s : Bytes} (h : Lang covers ts s) :
      Lang covers (.star :: ts) (skipped ++ s)
  | byte {c : UInt8} {t : Token} {ts : List Token} {s : Bytes} (ht : t ≠ .star) (hc : covers c t)
      (h : Lang covers ts s) : Lang covers (t :: ts) (c :: s)

section Lang

variable {covers : UInt8 → Token → Prop} {t : Token} {ts : List Token} {s : Bytes} {c : UInt8}

theorem lang_nil_iff : Lang covers [] s ↔ s = [] := by
  constructor
  · rintro ⟨⟩
    rfl
  · rintro rfl
    exact .nil

theorem lang_star_iff :
    Lang covers (.star :: ts) s ↔ ∃ rest, rest <:+ s ∧ Lang covers ts rest := by
  constructor
  · intro h
    cases h with
    | star skipped h => exact ⟨_, suffix_append .., h⟩
    | byte ht _ _ => exact absurd rfl ht
  · rintro ⟨rest, ⟨skipped, rfl⟩, h⟩
    exact .star skipped h

theorem lang_cons_iff (ht : t ≠ .star) :
    Lang covers (t :: ts) s ↔ ∃ c rest, s = c :: rest ∧ covers c t ∧ Lang covers ts rest := by
  constructor
  · intro h
    cases h with
    | star => exact absurd rfl ht
    | byte _ hc h => exact ⟨_, _, rfl, hc, h⟩
  · rintro ⟨c, rest, rfl, hc, h⟩
    exact .byte ht hc h

end Lang

/-! ### The matcher -/

section Matcher

variable {nocase : Bool} {c : UInt8} {p rest : Bytes} {t : Token}

/-- The comparison that the loop over a class makes. -/
def Item.found (nocase : Bool) (c : UInt8) : Item → Bool
  | .escaped e => e == c
  | .range x y => inRange nocase x y c
  | .single a => lowered nocase a == lowered nocase c

/-- The comparison that the matcher makes for a token. -/
def Token.Accepts (nocase : Bool) (c : UInt8) : Token → Prop
  | .star => False
  | .any => True
  | .byte b => lowered nocase b = lowered nocase c
  | .backslash => lowered nocase 92 = lowered nocase c
  | .set negated items _ => (∃ item ∈ items, item.found nocase c = true) ↔ negated = false

theorem classLoop_eq (body : Bytes) (found : Bool) :
    classLoop nocase c body found =
      (found || (splitClass body).1.any (·.found nocase c), (splitClass body).2.getD []) := by
  fun_induction classLoop nocase c body found <;>
    simp_all [splitClass, Item.found, Bool.or_assoc]

theorem nextToken_of_ne_star (hp : p ≠ []) (hstar : p.head? ≠ some 42) :
    ∃ t rest, nextToken p = some (t, rest) ∧ t ≠ .star ∧
      ∀ (nocase : Bool) (more : Bytes → Bytes → Bool) (c : UInt8) (s : Bytes),
        matchByte nocase more c s p = true ↔ t.Accepts nocase c ∧ more rest s = true := by
  have hbyte (b : UInt8) (rest : Bytes) (nocase : Bool) (more : Bytes → Bytes → Bool) (c : UInt8)
      (s : Bytes) : (lowered nocase b == lowered nocase c && more rest s) = true ↔
        (Token.byte b).Accepts nocase c ∧ more rest s = true := by simp [Token.Accepts]
  fun_cases nextToken p with
  | case1 => exact absurd rfl hp
  | case2 rest => exact absurd rfl hstar
  | case3 rest => exact ⟨_, _, rfl, nofun, fun nocase more c s => (true_and _).symm ▸ Iff.rfl⟩
  | case4 body =>
    refine ⟨.set true _ _, _, rfl, nofun, fun nocase more c s => ?_⟩
    show (!(classLoop nocase c body false).1 && more (classLoop nocase c body false).2 s) = true ↔ _
    rw [classLoop_eq]
    simp [Token.Accepts]
  | case5 body hbody =>
    refine ⟨.set false _ _, _, rfl, nofun, fun nocase more c s => ?_⟩
    rw [matchByte.eq_def]
    split
    · next h => simp at h
    · next h => exact (hbody _ (cons.inj h).2).elim
    · next h =>
        cases h
        rw [classLoop_eq]
        simp [Token.Accepts]
    all_goals
      next h => simp_all
  | case6 => exact ⟨_, _, rfl, nofun, hbyte 92 []⟩
  | case7 e rest => exact ⟨_, _, rfl, nofun, hbyte e rest⟩
  | case8 a rest _ hany _ hset hlone hescape =>
    refine ⟨_, _, rfl, nofun, fun nocase more c s => ?_⟩
    rw [matchByte.eq_def]
    split
    · next h => exact (hany (cons.inj h).1).elim
    · next h => exact (hset (cons.inj h).1).elim
    · next h => exact (hset (cons.inj h).1).elim
    · next h => exact (hescape _ _ (cons.inj h).1 (cons.inj h).2).elim
    · next h =>
        cases h
        exact hbyte ..
    · next h => cases h

theorem tokens_nil : tokens [] = [] := by
  rw [tokens]
  rfl

theorem tokens_of_nextToken (h : nextToken p = some (t, rest)) : tokens p = t :: tokens rest := by
  rw [tokens]
  split
  · next h' => cases h.symm.trans h'
  · next h' =>
      cases h.symm.trans h'
      rfl

theorem tokens_star (rest : Bytes) : tokens (42 :: rest) = .star :: tokens rest :=
  tokens_of_nextToken rfl

/-- Stars in a row are one. -/
theorem lang_dropStars (rest s : Bytes) :
    Lang (Token.Accepts nocase) (.star :: tokens rest) s ↔
      Lang (Token.Accepts nocase) (.star :: tokens (rest.dropWhile (· = 42))) s := by
  induction rest generalizing s with
  | nil => rfl
  | cons a rest ih =>
    by_cases ha : a = 42
    · rw [ha, dropWhile_cons_of_pos (by simp), ← ih, tokens_star, lang_star_iff,
        lang_star_iff]
      constructor
      · rintro ⟨u, hu, h⟩
        obtain ⟨v, hv, h⟩ := lang_star_iff.mp h
        exact ⟨v, hv.trans hu, h⟩
      · rintro ⟨u, hu, h⟩
        exact ⟨s, suffix_rfl, lang_star_iff.mpr ⟨u, hu, h⟩⟩
    · rw [dropWhile_cons_of_neg (by simpa using ha)]

/-- Only stars stand for the empty string. -/
theorem lang_empty_iff (p : Bytes) :
    Lang (Token.Accepts nocase) (tokens p) [] ↔ p.dropWhile (· = 42) = [] := by
  induction p with
  | nil => simp [tokens_nil, lang_nil_iff]
  | cons a rest ih =>
    by_cases ha : a = 42
    · rw [ha, tokens_star, lang_star_iff, dropWhile_cons_of_pos (by simp), ← ih]
      simp
    · obtain ⟨t, rest', hnext, ht, -⟩ := nextToken_of_ne_star (cons_ne_nil a rest) (by simpa using ha)
      rw [tokens_of_nextToken hnext, dropWhile_cons_of_neg (by simpa using ha), lang_cons_iff ht]
      simp

theorem mem_suffixes {u s : Bytes} : u ∈ suffixes s ↔ u <:+ s ∧ u ≠ [] := by
  induction s with
  | nil => simp [suffixes]
  | cons c s ih =>
    rw [suffixes, mem_cons, ih, suffix_cons_iff]
    constructor
    · rintro (rfl | h)
      · exact ⟨.inl rfl, cons_ne_nil _ _⟩
      · exact ⟨.inr h.1, h.2⟩
    · rintro ⟨rfl | h, hu⟩
      · exact .inl rfl
      · exact .inr ⟨h, hu⟩

theorem stringmatchLoop_iff {rounds : Nat} (hp : p.length < rounds) {s : Bytes} (hs : s ≠ []) :
    stringmatchLoop nocase rounds p s = true ↔ Lang (Token.Accepts nocase) (tokens p) s := by
  induction rounds generalizing p s with
  | zero => omega
  | succ rounds ih =>
    obtain ⟨c, s, rfl⟩ := exists_cons_of_ne_nil hs
    cases p with
    | nil => simp [stringmatchLoop, tokens_nil, lang_nil_iff]
    | cons a rest =>
      by_cases ha : a = 42
      · -- a suffix that is empty is left to a pattern of stars only
        have hlen := length_dropWhile_le (· = 42) rest
        have hfirst := head?_dropWhile_not (· = 42) rest
        rw [length_cons] at hp
        have hloop : stringmatchLoop nocase (rounds + 1) (42 :: rest) (c :: s) =
            ((rest.dropWhile (· = 42)).isEmpty ||
              (suffixes (c :: s)).any (stringmatchLoop nocase rounds (rest.dropWhile (· = 42)))) := rfl
        rw [ha, tokens_star, lang_dropStars, lang_star_iff, hloop]
        generalize rest.dropWhile (· = 42) = rest' at hlen hfirst
        cases rest' with
        | nil => simp [tokens_nil, lang_nil_iff]
        | cons b rest' =>
          have hempty : ¬ Lang (Token.Accepts nocase) (tokens (b :: rest')) [] := by
            rw [lang_empty_iff, dropWhile_cons_of_neg (by simpa using hfirst)]
            exact cons_ne_nil _ _
          simp only [isEmpty_cons, Bool.false_or, any_eq_true, mem_suffixes]
          constructor
          · rintro ⟨u, ⟨hu, hne⟩, h⟩
            exact ⟨u, hu, (ih (by omega) hne).mp h⟩
          · rintro ⟨u, hu, h⟩
            have hne : u ≠ [] := by
              rintro rfl
              exact hempty h
            exact ⟨u, ⟨hu, hne⟩, (ih (by omega) hne).mpr h⟩
      · obtain ⟨t, rest', hnext, ht, hmatch⟩ :=
          nextToken_of_ne_star (cons_ne_nil a rest) (by simpa using ha)
        have hlen := nextToken_length hnext
        rw [tokens_of_nextToken hnext, lang_cons_iff ht, stringmatchLoop.eq_def]
        dsimp only
        split
        · next h => cases h
        · next h => cases h
        · next h _ => exact absurd (cons.inj h).1 ha
        · next h _ _ =>
            cases h
            have hsplit : (∃ c' s', c :: s = c' :: s' ∧ t.Accepts nocase c' ∧
                Lang (Token.Accepts nocase) (tokens rest') s') ↔
                  t.Accepts nocase c ∧ Lang (Token.Accepts nocase) (tokens rest') s := by simp
            rw [hmatch, hsplit]
            refine and_congr_right fun _ => ?_
            cases s with
            | nil => rw [lang_empty_iff]; simp
            | cons c' s => exact ih (by omega) (cons_ne_nil _ _)

/-- What `stringmatchlen` accepts, in either case mode. -/
theorem stringmatchlen_iff (p : Bytes) {s : Bytes} (hs : s ≠ []) :
    stringmatchlen p s nocase = true ↔ Lang (Token.Accepts nocase) (tokens p) s :=
  stringmatchLoop_iff (Nat.lt_succ_self _) hs

theorem stringmatchlen_nil (p : Bytes) : stringmatchlen p [] nocase = p.isEmpty := by
  cases p <;> rfl

end Matcher

/-! ### Case is told apart -/

theorem bmod_byte {n : Nat} (h : n < 256) : Int.bmod n 256 = if n < 128 then (n : Int) else n - 256 := by
  rw [Int.bmod_def]
  split_ifs <;> omega

theorem schar_eq (c : UInt8) : schar c = if c.toNat < 128 then (c.toNat : Int) else c.toNat - 256 :=
  bmod_byte c.toNat_lt

theorem schar_injective : Function.Injective schar := by
  intro a b h
  have ha := a.toNat_lt
  have hb := b.toNat_lt
  rw [schar_eq, schar_eq] at h
  apply UInt8.toNat_inj.mp
  split_ifs at h <;> omega

theorem lowered_false (c : UInt8) : lowered false c = schar c := rfl

theorem Item.found_iff (item : Item) (c : UInt8) : item.found false c = true ↔ item.Covers c := by
  cases item with
  | escaped b => exact beq_iff_eq.trans eq_comm
  | single b => exact beq_iff_eq.trans (schar_injective.eq_iff.trans eq_comm)
  | range x y =>
    rw [Item.found, Item.Covers]
    unfold inRange
    split_ifs with h
    all_goals
      rw [decide_eq_true_iff]
      simp only [lowered_false]
      omega

theorem Token.accepts_iff (t : Token) (c : UInt8) : t.Accepts false c ↔ t.Covers c := by
  have hbyte (b : UInt8) : lowered false b = lowered false c ↔ c = b :=
    schar_injective.eq_iff.trans eq_comm
  cases t with
  | star | any => rfl
  | byte b => exact hbyte b
  | backslash => exact hbyte 92
  | set negated items _ => simp only [Token.Accepts, Token.Covers, Item.found_iff]

/-- With case told apart, the matcher accepts exactly the language of the pattern. -/
theorem stringmatchlen_accepts_language (p s : Bytes) (hs : s ≠ []) :
    stringmatchlen p s false = true ↔ Lang Token.Covers (tokens p) s := by
  have hcovers : Token.Accepts false = Token.Covers := by
    funext c t
    exact propext (t.accepts_iff c)
  rw [stringmatchlen_iff p hs, hcovers]

theorem stringmatchlen_accepts_language_star :
    Lang Token.Covers (tokens [104, 42]) [104, 105] :=
  (stringmatchlen_accepts_language [104, 42] [104, 105] (by decide)).mp (by decide)

/-- With a backslash before each of its bytes, a pattern matches one string only. -/
theorem stringmatchlen_quoted (s t : Bytes) :
    stringmatchlen (s.flatMap fun b => [92, b]) t false = true ↔ t = s := by
  have htokens : tokens (s.flatMap fun b => [92, b]) = s.map Token.byte := by
    induction s with
    | nil => exact tokens_nil
    | cons b s ih => exact (tokens_of_nextToken rfl).trans (congrArg _ ih)
  have hlang : ∀ t, Lang (Token.Accepts false) (s.map Token.byte) t ↔ t = s := by
    clear htokens
    induction s with
    | nil => exact fun t => lang_nil_iff
    | cons b s ih =>
      intro t
      simp [lang_cons_iff, ih, Token.accepts_iff, Token.Covers]
  rcases eq_or_ne t [] with rfl | ht
  · rw [stringmatchlen_nil]
    cases s <;> simp
  · rw [stringmatchlen_iff _ ht, htokens, hlang]

end Redis.Glob
