import Redis.Glob.Language

/-! Two laws of glob-style patterns: what a trailing star adds, and which classes tell the
case of letters apart although they are asked not to. -/
namespace Redis.Glob

open ByteBuffer Util List

/-! ### A trailing star -/

section Star

variable {p rest : Bytes} {t : Token}

/-- The token does not miss its closing bracket, or the byte behind a backslash. -/
def Token.Closed : Token → Prop
  | .backslash => False
  | .set _ _ closed => closed = true
  | _ => True

/-- The pattern ends neither inside a class nor with an unpaired backslash. -/
def Complete (p : Bytes) : Prop := ∀ t ∈ tokens p, t.Closed

theorem splitClass_append {body : Bytes} (h : (splitClass body).2 = some rest) (q : Bytes) :
    splitClass (body ++ q) = ((splitClass body).1, some (rest ++ q)) := by
  fun_induction splitClass body with
  | case1 => cases h
  | case2 e body ih => rw [cons_append, cons_append, splitClass, ih h]
  | case3 body =>
    cases h
    rfl
  | case4 a b body ha ha' ih =>
    rw [cons_append, cons_append, cons_append, splitClass, ih h]
    · exact ha
    · exact ha'
  | case5 a body ha ha' hb ih =>
    -- a class that ends somewhere goes on behind the byte
    obtain ⟨c, body, rfl⟩ : ∃ c tail, body = c :: tail := by
      cases body with
      | nil => cases h
      | cons c tail => exact ⟨c, tail, rfl⟩
    rw [cons_append, splitClass, ih h]
    · exact fun e rest h92 _ => ha _ _ h92 rfl
    · exact ha'
    · intro b tail hcons
      cases body with
      | nil =>
        rw [(cons.inj hcons).1] at h
        cases h
      | cons d body => exact hb d body (congrArg (· :: d :: body) (cons.inj hcons).1)

theorem nextToken_append (h : nextToken p = some (t, rest)) (ht : t.Closed) (q : Bytes) :
    nextToken (p ++ q) = some (t, rest ++ q) := by
  have hclass {negated : Bool} {body : Bytes} (h : some (classToken negated body) = some (t, rest)) :
      ∃ tail, (splitClass body).2 = some tail ∧ 
        some (classToken negated (body ++ q)) = some (t, rest ++ q) := by
    cases h
    obtain ⟨tail, htail⟩ := Option.isSome_iff_exists.mp ht
    refine ⟨tail, htail, ?_⟩
    rw [classToken, splitClass_append htail, htail]
    rfl
  rw [nextToken.eq_def] at h
  split at h
  case h_1 => cases h
  case h_4 body => exact (hclass h).choose_spec.2
  case h_5 body hbody =>
    obtain ⟨tail, htail, hnext⟩ := hclass h
    rw [cons_append, nextToken, hnext]
    intro body' hcons
    cases body with
    | nil => cases htail
    | cons c body => exact hbody body (congrArg (· :: body) (cons.inj hcons).1)
  case h_6 =>
    cases h
    exact ht.elim
  case h_8 a rest hstar hany _ hset hlone hescape =>
    cases h
    have h92 : a ≠ 92 := by
      intro h92
      cases rest with
      | nil => exact hlone h92 rfl
      | cons e rest => exact hescape e rest h92 rfl
    rw [cons_append, nextToken]
    · exact hstar
    · exact hany
    · exact fun _ h91 _ => hset h91
    · exact hset
    · exact fun h _ => h92 h
    · exact fun _ _ h _ => h92 h
  all_goals
    cases h
    rfl

theorem tokens_append_star (h : Complete p) : tokens (p ++ [42]) = tokens p ++ [.star] := by
  induction hlen : p.length using Nat.strong_induction_on generalizing p with
  | _ n ih =>
    cases hnext : nextToken p with
    | none =>
      rw [nextToken.eq_def] at hnext
      split at hnext
      · rw [nil_append, tokens_star, tokens_nil]
        rfl
      all_goals cases hnext
    | some next =>
      obtain ⟨t, rest⟩ := next
      have hlt := nextToken_length hnext
      rw [Complete, tokens_of_nextToken hnext, forall_mem_cons] at h
      rw [tokens_of_nextToken (nextToken_append hnext h.1 _), tokens_of_nextToken hnext,
        ih rest.length (by omega) h.2 rfl]
      rfl

theorem Lang.append_star {covers : UInt8 → Token → Prop} {ts : List Token} {s : Bytes}
    (h : Lang covers ts s) (u : Bytes) : Lang covers (ts ++ [.star]) (s ++ u) := by
  induction h with
  | nil =>
    rw [← append_nil ([] ++ u)]
    exact .star _ .nil
  | star skipped _ ih =>
    rw [append_assoc]
    exact .star skipped ih
  | byte ht hc _ ih => exact .byte ht hc ih

/-- A trailing star makes a pattern match every longer string, except the empty one. -/
theorem trailing_star_widens_iff (p s u : Bytes) (nocase : Bool) (hp : Complete p)
    (h : stringmatchlen p s nocase = true) :
    stringmatchlen (p ++ [42]) (s ++ u) nocase = true ↔ s ++ u ≠ [] := by
  constructor
  · rintro hmatch hnil
    rw [hnil, stringmatchlen_nil] at hmatch
    cases p <;> cases hmatch
  · intro hne
    have hlang : Lang (Token.Accepts nocase) (tokens p) s := by
      cases s with
      | nil =>
        rw [stringmatchlen_nil, List.isEmpty_iff] at h
        rw [h, tokens_nil]
        exact .nil
      | cons c s => exact (stringmatchlen_iff p (cons_ne_nil c s)).mp h
    rw [stringmatchlen_iff _ hne, tokens_append_star hp]
    exact hlang.append_star u

theorem trailing_star_widens_iff_byte : stringmatchlen [104, 42] [104, 105] false = true := by
  have htokens : tokens [104] = [.byte 104] :=
    (tokens_of_nextToken (t := .byte 104) rfl).trans (congrArg _ tokens_nil)
  have hcomplete : Complete [104] := by simp [Complete, htokens, Token.Closed]
  exact (trailing_star_widens_iff [104] [104] [105] false hcomplete (by decide)).mpr (by decide)

/-- The empty pattern matches the empty string, and a star does not. -/
theorem star_refuses_empty_string :
    Complete [] ∧ stringmatchlen [] [] false = true ∧ stringmatchlen [42] [] false = false :=
  ⟨by simp [Complete, tokens_nil], stringmatchlen_nil [], stringmatchlen_nil [42]⟩

end Star

/-! ### Case -/

section Case

variable {p body : Bytes} {t : Token} {ts : List Token} {item : Item} {c : UInt8}

theorem toLower_toNat (c : UInt8) :
    (toLower c).toNat = if 65 ≤ c.toNat ∧ c.toNat ≤ 90 then c.toNat + 32 else c.toNat := by
  rw [toLower]
  split_ifs with h
  · rw [UInt8.toNat_add]
    simp only [UInt8.reduceToNat]
    omega
  · rfl

/-- A byte of either case. -/
def Letter (b : UInt8) : Prop := 97 ≤ (toLower b).toNat ∧ (toLower b).toNat ≤ 122

instance (b : UInt8) : Decidable (Letter b) := inferInstanceAs (Decidable (_ ∧ _))

theorem toLower_eq_iff {b : UInt8} (hb : ¬ Letter b) : toLower c = b ↔ c = b := by
  rw [Letter, toLower_toNat] at hb
  rw [← UInt8.toNat_inj, ← UInt8.toNat_inj, toLower_toNat]
  split_ifs at hb ⊢ <;> omega

theorem eq_of_toLower {b : UInt8} (h : toLower c = b) (hb : ¬ Letter b := by decide) : c = b :=
  (toLower_eq_iff hb).mp h

def Item.lower : Item → Item
  | .escaped b => .escaped (toLower b)
  | .range x y => .range (toLower x) (toLower y)
  | .single b => .single (toLower b)

def Token.lower : Token → Token
  | .byte b => .byte (toLower b)
  | .set negated items closed => .set negated (items.map Item.lower) closed
  | t => t

theorem splitClass_lower (body : Bytes) :
    splitClass (body.map toLower) =
      ((splitClass body).1.map Item.lower, (splitClass body).2.map (map toLower)) := by
  fun_induction splitClass body with
  | case1 => rfl
  | case2 e body ih =>
    rw [map_cons, map_cons, show toLower 92 = 92 by decide, splitClass, ih]
    rfl
  | case3 body =>
    rfl
  | case4 a b body ha ha' ih =>
    rw [map_cons, map_cons, map_cons, show toLower 45 = 45 by decide, splitClass, ih]
    · rfl
    · exact fun h => ha (eq_of_toLower h)
    · exact fun h => ha' (eq_of_toLower h)
  | case5 a body ha ha' hb ih =>
    rw [map_cons, splitClass, ih]
    · rfl
    · intro e rest h92 hcons
      obtain ⟨e, rest, rfl, -⟩ := map_eq_cons_iff.mp hcons
      exact ha e rest (eq_of_toLower h92) rfl
    · exact fun h => ha' (eq_of_toLower h)
    · intro b rest hcons
      obtain ⟨d, rest, rfl, hd, hrest⟩ := map_eq_cons_iff.mp hcons
      obtain ⟨b, rest, rfl, -⟩ := map_eq_cons_iff.mp hrest
      exact hb b rest (congrArg (· :: b :: rest) (eq_of_toLower hd))

theorem nextToken_lower (p : Bytes) :
    nextToken (p.map toLower) = (nextToken p).map fun next => (next.1.lower, next.2.map toLower) := by
  have hclass (negated : Bool) (body : Bytes) : classToken negated (body.map toLower) =
      ((classToken negated body).1.lower, (classToken negated body).2.map toLower) := by
    rw [classToken, splitClass_lower]
    cases h : (splitClass body).2 <;> simp [classToken, Token.lower, h]
  fun_cases nextToken p with
  | case1 | case2 rest | case3 rest => rfl
  | case4 body => exact congrArg some (hclass true body)
  | case5 body hbody =>
    rw [map_cons, show toLower 91 = 91 by decide, nextToken, hclass]
    · rfl
    · intro body' hcons
      obtain ⟨d, rest, rfl, hd, -⟩ := map_eq_cons_iff.mp hcons
      exact hbody rest (congrArg (· :: rest) (eq_of_toLower hd))
  | case6 | case7 e rest => rfl
  | case8 a rest hstar hany _ hset hlone hescape =>
    have h92 : a ≠ 92 := by
      intro h92
      cases rest with
      | nil => exact hlone h92 rfl
      | cons e rest => exact hescape e rest h92 rfl
    rw [map_cons, nextToken]
    · rfl
    · exact fun h => hstar (eq_of_toLower h)
    · exact fun h => hany (eq_of_toLower h)
    · exact fun _ h _ => hset (eq_of_toLower h)
    · exact fun h => hset (eq_of_toLower h)
    · exact fun h _ => h92 (eq_of_toLower h)
    · exact fun _ _ h _ => h92 (eq_of_toLower h)

theorem tokens_lower (p : Bytes) : tokens (p.map toLower) = (tokens p).map Token.lower := by
  induction hlen : p.length using Nat.strong_induction_on generalizing p with
  | _ n ih =>
    have hlower := nextToken_lower p
    cases hnext : nextToken p with
    | none =>
      rw [tokens, tokens, hlower, hnext]
      rfl
    | some next =>
      rw [hnext] at hlower
      have hlt := nextToken_length hnext
      rw [tokens_of_nextToken hlower, tokens_of_nextToken hnext, ih _ (by omega) _ rfl]
      rfl

/-- The spellings of an item. -/
theorem Item.lower_inv {item item' : Item} : item'.lower = item.lower →
    match item with
    | .escaped e => ∃ e', item' = .escaped e' ∧ toLower e' = toLower e
    | .range x y => ∃ x' y', item' = .range x' y' ∧ toLower x' = toLower x ∧ toLower y' = toLower y
    | .single b => ∃ b', item' = .single b' ∧ toLower b' = toLower b := by
  cases item <;> cases item' <;> simp [Item.lower]

/-- The spellings of a token. -/
theorem Token.lower_inv {t' : Token} : t'.lower = t.lower →
    match t with
    | .byte b => ∃ b', t' = .byte b' ∧ toLower b' = toLower b
    | .set negated items closed => ∃ items', t' = .set negated items' closed ∧
        items'.map Item.lower = items.map Item.lower
    | t => t' = t := by
  cases t <;> cases t' <;> simp +contextual [Token.lower]

/-- Every spelling of the items of a class, with every spelling of the pattern behind it, is that of
some spelling of the bytes. -/
theorem splitClass_spelled (body : Bytes) {items : List Item} {rest : Bytes}
    (hitems : items.map Item.lower = (splitClass body).1.map Item.lower)
    (hrest : rest.map toLower = ((splitClass body).2.getD []).map toLower) :
    ∃ body', body'.map toLower = body.map toLower ∧
      splitClass body' = (items, (splitClass body).2.map fun _ => rest) := by
  fun_induction splitClass body generalizing items with
  | case1 =>
    obtain rfl := map_eq_nil_iff.mp hitems
    exact ⟨[], rfl, rfl⟩
  | case2 e body ih =>
    obtain ⟨item, items, rfl, hitem, hitems⟩ := map_eq_cons_iff.mp hitems
    obtain ⟨body', hbody, hsplit⟩ := ih hitems hrest
    obtain ⟨e', rfl, he⟩ := @Item.lower_inv (.escaped e) _ hitem
    exact ⟨92 :: e' :: body', by simp [he, hbody], by rw [splitClass, hsplit]⟩
  | case3 body =>
    obtain rfl := map_eq_nil_iff.mp hitems
    exact ⟨93 :: rest, by simpa using hrest, rfl⟩
  | case4 a b body ha ha' ih =>
    obtain ⟨item, items, rfl, hitem, hitems⟩ := map_eq_cons_iff.mp hitems
    obtain ⟨body', hbody, hsplit⟩ := ih hitems hrest
    obtain ⟨x, y, rfl, hx, hy⟩ := @Item.lower_inv (.range a b) _ hitem
    refine ⟨x :: 45 :: y :: body', by simp [hx, hy, hbody], ?_⟩
    rw [splitClass, hsplit]
    · rintro rfl
      exact ha (eq_of_toLower hx.symm)
    · rintro rfl
      exact ha' (eq_of_toLower hx.symm)
  | case5 a body ha ha' hb ih =>
    obtain ⟨item, items, rfl, hitem, hitems⟩ := map_eq_cons_iff.mp hitems
    obtain ⟨body', hbody, hsplit⟩ := ih hitems hrest
    obtain ⟨x, rfl, hx⟩ := @Item.lower_inv (.single a) _ hitem
    refine ⟨x :: body', by simp [hx, hbody], ?_⟩
    rw [splitClass, hsplit]
    · rintro e tail rfl rfl
      obtain ⟨e, tail, rfl, -⟩ := map_eq_cons_iff.mp hbody.symm
      exact ha e tail (eq_of_toLower hx.symm) rfl
    · rintro rfl
      exact ha' (eq_of_toLower hx.symm)
    · rintro b tail rfl
      obtain ⟨d, tail, rfl, hd, htail⟩ := map_eq_cons_iff.mp hbody.symm
      obtain ⟨b, tail, rfl, -⟩ := map_eq_cons_iff.mp htail
      exact hb b tail (congrArg (· :: b :: tail) (eq_of_toLower hd))

theorem nextToken_spelled {rest rest' : Bytes} {t' : Token} (h : nextToken p = some (t, rest))
    (ht : t'.lower = t.lower) (hrest : rest'.map toLower = rest.map toLower) :
    ∃ p', p'.map toLower = p.map toLower ∧ nextToken p' = some (t', rest') := by
  have hclass {negated : Bool} {body : Bytes} (h : some (classToken negated body) = some (t, rest)) :
      ∃ body', body'.map toLower = body.map toLower ∧
        some (classToken negated body') = some (t', rest') := by
    cases h
    obtain ⟨items, rfl, hitems⟩ := Token.lower_inv ht
    obtain ⟨body', hbody, hsplit⟩ := splitClass_spelled body hitems hrest
    refine ⟨body', hbody, ?_⟩
    cases hsome : (splitClass body).2 with
    | none =>
      rw [hsome] at hrest
      rw [classToken, hsplit, hsome, map_eq_nil_iff.mp hrest]
      rfl
    | some tail =>
      rw [classToken, hsplit, hsome]
      rfl
  rw [nextToken.eq_def] at h
  split at h
  case h_1 => cases h
  case h_2 | h_3 =>
    cases h
    obtain rfl := Token.lower_inv ht
    exact ⟨_ :: rest', by rw [map_cons, hrest, map_cons], rfl⟩
  case h_4 body =>
    obtain ⟨body', hbody, hnext⟩ := hclass h
    exact ⟨91 :: 94 :: body', by simp [hbody], hnext⟩
  case h_5 body hnegated =>
    obtain ⟨body', hbody, hnext⟩ := hclass h
    refine ⟨91 :: body', by simp [hbody], ?_⟩
    rw [nextToken, hnext]
    rintro tail rfl
    obtain ⟨d, tail, rfl, hd, -⟩ := map_eq_cons_iff.mp hbody.symm
    exact hnegated tail (congrArg (· :: tail) (eq_of_toLower hd))
  case h_6 =>
    cases h
    obtain rfl := Token.lower_inv ht
    exact ⟨[92], rfl, by rw [map_eq_nil_iff.mp hrest]; rfl⟩
  case h_7 e tail =>
    cases h
    obtain ⟨e', rfl, he⟩ := Token.lower_inv ht
    exact ⟨92 :: e' :: rest', by simp [he, hrest], rfl⟩
  case h_8 a tail hstar hany _ hset hlone hescape =>
    cases h
    obtain ⟨a', rfl, ha⟩ := Token.lower_inv ht
    -- a byte without a meaning of its own has none in another case
    have hsame {b : UInt8} (h : a' = b) (hb : toLower b = b) (hletter : ¬ Letter b) : a = b :=
      eq_of_toLower (by rw [← ha, h, hb]) hletter
    have h92 : a' ≠ 92 := by
      intro h
      cases rest with
      | nil => exact hlone (hsame h rfl (by decide)) rfl
      | cons e rest => exact hescape e rest (hsame h rfl (by decide)) rfl
    refine ⟨a' :: rest', by simp [ha, hrest], ?_⟩
    rw [nextToken]
    · exact fun h => hstar (hsame h rfl (by decide))
    · exact fun h => hany (hsame h rfl (by decide))
    · exact fun _ h _ => hset (hsame h rfl (by decide))
    · exact fun h => hset (hsame h rfl (by decide))
    · exact fun h _ => h92 h
    · exact fun _ _ h _ => h92 h

/-- Every spelling of the tokens of a pattern is that of some spelling of the pattern. -/
theorem tokens_spelled {p : Bytes} {ts : List Token}
    (h : ts.map Token.lower = (tokens p).map Token.lower) :
    ∃ p', p'.map toLower = p.map toLower ∧ tokens p' = ts := by
  induction hlen : p.length using Nat.strong_induction_on generalizing p ts with
  | _ n ih =>
    cases hnext : nextToken p with
    | none =>
      have hnil : tokens p = [] := by
        rw [tokens, hnext]
      rw [hnil, map_nil, map_eq_nil_iff] at h
      exact ⟨p, rfl, hnil.trans h.symm⟩
    | some next =>
      obtain ⟨t, rest⟩ := next
      have hlt := nextToken_length hnext
      rw [tokens_of_nextToken hnext, map_cons] at h
      obtain ⟨t', ts, rfl, ht, hts⟩ := map_eq_cons_iff.mp h
      obtain ⟨rest', hrest, htokens⟩ := ih rest.length (by omega) hts rfl
      obtain ⟨p', hp, hnext'⟩ := nextToken_spelled hnext ht hrest
      exact ⟨p', hp, by rw [tokens_of_nextToken hnext', htokens]⟩

/-- The token accepts no byte, however its letters are spelled. -/
def Token.Dead (t : Token) : Prop :=
  t ≠ .star ∧ ∀ t' : Token, t'.lower = t.lower → ∀ c, ¬ t'.Accepts true c

/-- The token accepts the same bytes in every spelling, and a letter in both cases or in none. -/
def Token.Steady (t : Token) : Prop :=
  ∀ t' : Token, t'.lower = t.lower → ∀ c c', toLower c = toLower c' →
    (t.Accepts true c ↔ t'.Accepts true c')

/-- A pattern that matches nothing because of one token, or whose classes do not tell case apart. -/
def CaseBlind (p : Bytes) : Prop := (∃ t ∈ tokens p, t.Dead) ∨ ∀ t ∈ tokens p, t.Steady

theorem star_of_lower {t' : Token} (h : t'.lower = t.lower) (hstar : t' = .star) : t = .star :=
  Token.lower_inv (hstar ▸ h).symm

/-- Tokens that tell no case apart stand for the same strings in every spelling. -/
theorem lang_spelled {ts' : List Token} {s s' : Bytes} (hts : ts'.map Token.lower = ts.map Token.lower)
    (hs : s.map toLower = s'.map toLower) (h : ∀ t ∈ ts, t.Steady) :
    Lang (Token.Accepts true) ts s ↔ Lang (Token.Accepts true) ts' s' := by
  induction ts generalizing ts' s s' with
  | nil =>
    rw [map_nil, map_eq_nil_iff] at hts
    rw [hts, lang_nil_iff, lang_nil_iff, ← map_eq_nil_iff (f := toLower), hs, map_eq_nil_iff]
  | cons t ts ih =>
    obtain ⟨t', ts', rfl, ht, hrest⟩ := map_eq_cons_iff.mp hts
    obtain ⟨hsteady, hall⟩ := forall_mem_cons.mp h
    by_cases hstar : t = .star
    · subst hstar
      obtain rfl : t' = .star := Token.lower_inv ht
      -- what a star passes over in one string, it passes over in the other
      have hsuffix {s s' u : Bytes} (hs : s.map toLower = s'.map toLower) (hu : u <:+ s) :
          ∃ u', u' <:+ s' ∧ u.map toLower = u'.map toLower := by
        obtain ⟨skipped, rfl⟩ := hu
        rw [map_append] at hs
        obtain ⟨a, b, rfl, -, hb⟩ := map_eq_append_iff.mp hs.symm
        exact ⟨b, suffix_append .., hb.symm⟩
      rw [lang_star_iff, lang_star_iff]
      constructor
      · rintro ⟨u, hu, hlang⟩
        obtain ⟨u', hu', heq⟩ := hsuffix hs hu
        exact ⟨u', hu', (ih hrest heq hall).mp hlang⟩
      · rintro ⟨u', hu', hlang⟩
        obtain ⟨u, hu, heq⟩ := hsuffix hs.symm hu'
        exact ⟨u, hu, (ih hrest heq.symm hall).mpr hlang⟩
    · rw [lang_cons_iff hstar, lang_cons_iff fun hstar' => hstar (star_of_lower ht hstar')]
      cases s with
      | nil =>
        obtain rfl := map_eq_nil_iff.mp hs.symm
        simp
      | cons c s =>
        obtain ⟨c', s', rfl, hc, hs⟩ := map_eq_cons_iff.mp hs.symm
        simp [hsteady t' ht c c' hc.symm, ih hrest hs.symm hall]

/-- If every token accepts some byte in some spelling, then some spelling of all of them stands
for a string, and for none that is shorter. -/
theorem exists_shortest (h : ∀ t ∈ ts, ¬ t.Dead) :
    ∃ ts' s, ts'.map Token.lower = ts.map Token.lower ∧ Lang (Token.Accepts true) ts' s ∧
      ∀ u, Lang (Token.Accepts true) ts' u → s.length ≤ u.length := by
  induction ts with
  | nil => exact ⟨[], [], rfl, .nil, fun u _ => Nat.zero_le _⟩
  | cons t ts ih =>
    obtain ⟨hlive, h⟩ := forall_mem_cons.mp h
    obtain ⟨ts', s, hts, hlang, hmin⟩ := ih h
    by_cases hstar : t = .star
    · refine ⟨.star :: ts', s, by simp [hstar, hts], .star [] hlang, fun u hu => ?_⟩
      obtain ⟨rest, hrest, hlang'⟩ := lang_star_iff.mp hu
      exact (hmin rest hlang').trans hrest.length_le
    · simp only [Token.Dead, hstar, ne_eq, not_false_iff, true_and, not_forall, not_not] at hlive
      obtain ⟨t', ht, c, hc⟩ := hlive
      have hstar' : t' ≠ .star := fun hstar' => hstar (star_of_lower ht hstar')
      refine ⟨t' :: ts', c :: s, by simp [ht, hts], .byte hstar' hc hlang, fun u hu => ?_⟩
      obtain ⟨d, rest, rfl, -, hlang'⟩ := (lang_cons_iff hstar').mp hu
      exact Nat.succ_le_succ (hmin rest hlang')

theorem lang_append_iff {covers : UInt8 → Token → Prop} {ts' : List Token} {s : Bytes} :
    Lang covers (ts ++ ts') s ↔ ∃ x y, s = x ++ y ∧ Lang covers ts x ∧ Lang covers ts' y := by
  constructor
  · intro h
    induction ts generalizing s with
    | nil => exact ⟨[], s, rfl, .nil, h⟩
    | cons t ts ih =>
      by_cases hstar : t = .star
      · subst hstar
        obtain ⟨rest, ⟨skipped, rfl⟩, hrest⟩ := lang_star_iff.mp h
        obtain ⟨x, y, rfl, hx, hy⟩ := ih hrest
        exact ⟨skipped ++ x, y, (append_assoc ..).symm, .star skipped hx, hy⟩
      · obtain ⟨c, rest, rfl, hc, hrest⟩ := (lang_cons_iff hstar).mp h
        obtain ⟨x, y, rfl, hx, hy⟩ := ih hrest
        exact ⟨c :: x, y, rfl, .byte hstar hc hx, hy⟩
  · rintro ⟨x, y, rfl, hx, hy⟩
    induction hx with
    | nil => exact hy
    | star skipped _ ih =>
      rw [append_assoc]
      exact .star skipped ih
    | byte hstar hc _ ih => exact .byte hstar hc ih

theorem not_lang_of_dead {covers : UInt8 → Token → Prop} {s : Bytes} (ht : t ∈ ts)
    (hstar : t ≠ .star) (hdead : ∀ c, ¬ covers c t) : ¬ Lang covers ts s := by
  intro h
  obtain ⟨l, r, rfl⟩ := append_of_mem ht
  obtain ⟨x, y, rfl, -, hy⟩ := lang_append_iff.mp h
  obtain ⟨c, rest, rfl, hc, -⟩ := (lang_cons_iff hstar).mp hy
  exact hdead c hc

/-- The two ways to be blind are enough. -/
theorem CaseBlind.ignores {p' s s' : Bytes} (h : CaseBlind p) (hp : p.map toLower = p'.map toLower)
    (hs : s.map toLower = s'.map toLower) : stringmatchlen p s true = stringmatchlen p' s' true := by
  cases s with
  | nil =>
    obtain rfl := map_eq_nil_iff.mp hs.symm
    rw [stringmatchlen_nil, stringmatchlen_nil, ← isEmpty_map (f := toLower), hp, isEmpty_map]
  | cons c s =>
    obtain ⟨c', s', rfl, -⟩ := map_eq_cons_iff.mp hs.symm
    have hts : (tokens p').map Token.lower = (tokens p).map Token.lower := by
      rw [← tokens_lower, ← tokens_lower, hp]
    rw [Bool.eq_iff_iff, stringmatchlen_iff _ (cons_ne_nil _ _), stringmatchlen_iff _ (cons_ne_nil _ _)]
    rcases h with ⟨t, ht, hstar, hdead⟩ | h
    · obtain ⟨t', ht', hlower⟩ := mem_map.mp (hts ▸ mem_map_of_mem ht)
      exact iff_of_false (not_lang_of_dead ht hstar (hdead t rfl)) (not_lang_of_dead ht'
        (fun hstar' => hstar (star_of_lower hlower hstar')) (hdead t' hlower))
    · exact lang_spelled hts hs h

/-- A token that tells case apart is seen in a string where every other token has only one byte. -/
theorem exists_told_apart (hlive : ∀ t ∈ tokens p, ¬ t.Dead) (ht : t ∈ tokens p)
    {u v : Token} {d e : UInt8} (hu : u.lower = t.lower) (hv : v.lower = t.lower)
    (hde : toLower d = toLower e) (hd : u.Accepts true d) (he : ¬ v.Accepts true e) :
    ∃ p₁ p₂ s₁ s₂, p₁.map toLower = p.map toLower ∧ p₂.map toLower = p.map toLower ∧
      s₁.map toLower = s₂.map toLower ∧ stringmatchlen p₁ s₁ true = true ∧
      stringmatchlen p₂ s₂ true = false := by
  obtain ⟨l, r, htokens⟩ := append_of_mem ht
  rw [htokens, forall_mem_append, forall_mem_cons] at hlive
  obtain ⟨l', x, hl, hx, hxmin⟩ := exists_shortest hlive.1
  obtain ⟨r', y, hr, hy, hymin⟩ := exists_shortest hlive.2.2
  obtain ⟨p₁, hp₁, htokens₁⟩ := @tokens_spelled p (l' ++ u :: r')
    (by simp [htokens, hl, hr, hu])
  obtain ⟨p₂, hp₂, htokens₂⟩ := @tokens_spelled p (l' ++ v :: r')
    (by simp [htokens, hl, hr, hv])
  have hustar : u ≠ .star := by
    rintro rfl
    exact hd
  have hvstar : v ≠ .star := fun hstar => hustar (star_of_lower (hv.trans hu.symm) hstar)
  refine ⟨p₁, p₂, x ++ d :: y, x ++ e :: y, hp₁, hp₂, by simp [hde], ?_, ?_⟩
  · rw [stringmatchlen_iff _ (by simp), htokens₁, lang_append_iff]
    exact ⟨x, d :: y, rfl, hx, .byte hustar hd hy⟩
  · rw [← Bool.not_eq_true, stringmatchlen_iff _ (by simp), htokens₂, lang_append_iff]
    rintro ⟨x', y', heq, hx', hy'⟩
    obtain ⟨e', rest, rfl, he', hrest⟩ := (lang_cons_iff hvstar).mp hy'
    have hxlen := hxmin x' hx'
    have hylen := hymin rest hrest
    have hlen := congrArg length heq
    simp only [length_append, length_cons] at hlen
    obtain ⟨-, htail⟩ := append_inj heq (by omega)
    exact he ((cons.inj htail).1 ▸ he')

/-- A pattern matches without regard to case, in itself and in the string, exactly if one of its
tokens accepts no byte in any spelling, or every class of it accepts the same bytes in every
spelling. -/
theorem matching_ignores_case_iff (p : Bytes) :
    (∀ p' s s' : Bytes, p.map toLower = p'.map toLower → s.map toLower = s'.map toLower →
      stringmatchlen p s true = stringmatchlen p' s' true) ↔ CaseBlind p := by
  refine ⟨fun h => ?_, fun h p' s s' hp hs => h.ignores hp hs⟩
  by_contra hblind
  rw [CaseBlind, not_or] at hblind
  have hlive : ∀ t ∈ tokens p, ¬ t.Dead := fun t ht hdead => hblind.1 ⟨t, ht, hdead⟩
  simp only [Token.Steady, not_forall] at hblind
  obtain ⟨t, ht, t', hlower, c, c', hc, hsteady⟩ := hblind.2
  obtain ⟨p₁, p₂, s₁, s₂, hp₁, hp₂, hs, htrue, hfalse⟩ : ∃ p₁ p₂ s₁ s₂,
      p₁.map toLower = p.map toLower ∧ p₂.map toLower = p.map toLower ∧
      s₁.map toLower = s₂.map toLower ∧ stringmatchlen p₁ s₁ true = true ∧
      stringmatchlen p₂ s₂ true = false := by
    by_cases hacc : t.Accepts true c
    · exact exists_told_apart hlive ht rfl hlower hc hacc fun hacc' => hsteady (iff_of_true hacc hacc')
    · have hacc' : t'.Accepts true c' := by
        by_contra hacc'
        exact hsteady (iff_of_false hacc hacc')
      exact exists_told_apart hlive ht hlower rfl hc.symm hacc' hacc
  have hsame := (h p₁ s₁ s₁ hp₁.symm rfl).symm.trans (h p₂ s₁ s₂ hp₂.symm hs)
  rw [htrue, hfalse] at hsame
  cases hsame

/-- An escaped letter in a class is compared as it is. -/
theorem escaped_letter_tells_case :
    stringmatchlen [91, 92, 97, 93] [97] true = true ∧
      stringmatchlen [91, 92, 97, 93] [65] true = false := by
  decide

end Case

end Redis.Glob
