import Redis.Library.ByteBuffer

/-! `sdssplitlen` cuts a string at its separators, and `sdsjoinsds` joins the tokens again. -/
namespace Redis.Sds

open ByteBuffer List

section Code

/-- Room for the next token and the last one. The number of slots is an `int`; no result if it
overflows. -/
def growSlots (slots elements : Nat) : Option Nat :=
  if slots < elements + 2 then
    if slots * 2 < 2 ^ 31 then some (slots * 2) else none
  else some slots

/-- A token behind the others; no result outside the slots. -/
def storeToken (slots : Nat) (tokens : List Bytes) (token : Bytes) : Option (List Bytes) :=
  if tokens.length < slots then some (tokens ++ [token]) else none

def separatorAt (s sep : Bytes) (j : Nat) : Bool :=
  (sep.length = 1 && s.getD j 0 = sep.getD 0 0) || (s.drop j).take sep.length = sep

/-- The loop at `j`, where the token begins at `start`, and the last token. -/
def splitlenLoop (s sep : Bytes) (hsep : 0 < sep.length) (slots : Nat) (tokens : List Bytes)
    (start j : Nat) : Option (List Bytes) :=
  if j + (sep.length - 1) < s.length then
    match growSlots slots tokens.length with
    | none => none
    | some slots =>
      if separatorAt s sep j then
        match storeToken slots tokens ((s.drop start).take (j - start)) with
        | none => none
        | some tokens =>
          splitlenLoop s sep hsep slots tokens (j + sep.length) (j + sep.length - 1 + 1)
      else splitlenLoop s sep hsep slots tokens start (j + 1)
  else storeToken slots tokens (s.drop start)
termination_by s.length - j

/-- `some none` is a null pointer. -/
def sdssplitlen (s sep : Bytes) : Option (Option (List Bytes)) :=
  if hsep : 0 < sep.length then
    if s.length = 0 then some (some []) else (splitlenLoop s sep hsep 5 [] 0 0).map some
  else some none

/-- Behind the last string there is no separator. -/
def joinLoop (sep : Bytes) : Bytes → List Bytes → Bytes
  | join, [] => join
  | join, a :: argv => joinLoop sep (if argv ≠ [] then join ++ a ++ sep else join ++ a) argv

def sdsjoinsds (argv : List Bytes) (sep : Bytes) : Bytes := joinLoop sep [] argv

end Code

variable {s sep : Bytes} {tokens : List Bytes} {slots n start j : Nat}

/-- The tokens of a string: each but the last one ends at the leftmost separator. -/
inductive Cuts (sep : Bytes) : Bytes → List Bytes → Prop
  | last {s : Bytes} (h : ¬ sep <:+: s) : Cuts sep s [s]
  | cut {s token rest : Bytes} {tokens : List Bytes} (here : s = token ++ sep ++ rest)
      (leftmost : ∀ i < token.length, ¬ sep <+: s.drop i) (behind : Cuts sep rest tokens) :
      Cuts sep s (token :: tokens)

/-- The most slots that there can be. -/
def maxSlots : Nat := 5 * 2 ^ 28

/-- Where all slots but the one for the last token are full, no separator fits in the rest. -/
abbrev SlotsSuffice (sep : Bytes) (tokens : List Bytes) : Prop :=
  (sdsjoinsds (tokens.drop (maxSlots - 1)) sep).length < sep.length

section Cuts

theorem infix_iff_drop : sep <:+: s ↔ ∃ i, sep <+: s.drop i := by
  constructor
  · rintro ⟨a, b, rfl⟩
    refine ⟨a.length, ?_⟩
    rw [append_assoc, drop_left]
    exact prefix_append sep b
  · rintro ⟨i, h⟩
    exact h.isInfix.trans (drop_suffix i s).isInfix

theorem Cuts.joinLoop_eq (h : Cuts sep s tokens) (join : Bytes) :
    joinLoop sep join tokens = join ++ s := by
  induction h generalizing join with
  | last => rfl
  | cut here _ behind ih =>
    rw [joinLoop, if_pos (by cases behind <;> simp), ih, here, append_assoc, append_assoc,
      append_assoc]

theorem Cuts.sdsjoinsds_eq (h : Cuts sep s tokens) : sdsjoinsds tokens sep = s :=
  h.joinLoop_eq []

variable (hsep : 0 < sep.length)
include hsep

theorem Cuts.not_infix (h : Cuts sep s tokens) : ∀ t ∈ tokens, ¬ sep <:+: t := by
  induction h with
  | last h => simpa using h
  | @cut s token rest tokens here leftmost _ ih =>
    refine forall_mem_cons.mpr ⟨?_, ih⟩
    rintro ⟨a, b, rfl⟩
    apply leftmost a.length (by simp only [length_append]; omega)
    rw [here, append_assoc, append_assoc, append_assoc, drop_left]
    exact prefix_append sep _

theorem exists_cuts (s : Bytes) : ∃ tokens, Cuts sep s tokens := by
  induction hn : s.length using Nat.strong_induction_on generalizing s with
  | _ n ih =>
    by_cases h : ∃ i, sep <+: s.drop i
    · obtain ⟨rest, hrest⟩ := Nat.find_spec h
      have here : s = s.take (Nat.find h) ++ sep ++ rest := by
        rw [append_assoc, hrest, take_append_drop]
      have hlength := congrArg length here
      simp only [length_append] at hlength
      obtain ⟨tokens, hcuts⟩ := ih rest.length (by omega) rest rfl
      refine ⟨_, .cut here (fun i hi => Nat.find_min h ?_) hcuts⟩
      rw [length_take] at hi
      omega
    · exact ⟨[s], .last (mt infix_iff_drop.mp h)⟩

theorem separatorAt_iff (hj : j < s.length) : separatorAt s sep j = true ↔ sep <+: s.drop j := by
  simp only [separatorAt, Bool.or_eq_true, Bool.and_eq_true, decide_eq_true_eq,
    prefix_iff_eq_take, eq_comm (a := sep)]
  refine or_iff_right_of_imp fun ⟨hone, hbyte⟩ => ?_
  obtain ⟨c, rfl⟩ := length_eq_one_iff.mp hone
  have hget : s[j] = c := by simpa [hj] using hbyte
  rw [drop_eq_getElem_cons hj, hget]
  rfl

end Cuts

section Slots

/-- The number of slots was doubled from 5, and there is one for the next token. -/
def HasSlot (slots n : Nat) : Prop := (∃ k ≤ 28, slots = 5 * 2 ^ k) ∧ n < slots

theorem HasSlot.lt_maxSlots (h : HasSlot slots n) : n < maxSlots := by
  obtain ⟨⟨k, hk, rfl⟩, hn⟩ := h
  exact hn.trans_le (Nat.mul_le_mul_left 5 (Nat.pow_le_pow_right (by decide) hk))

theorem HasSlot.next {slots' : Nat} (h : HasSlot slots n)
    (hgrow : growSlots slots n = some slots') : HasSlot slots' (n + 1) := by
  obtain ⟨⟨k, hk, rfl⟩, hn⟩ := h
  rw [growSlots] at hgrow
  split_ifs at hgrow with hfull hsmall
  · cases hgrow
    refine ⟨⟨k + 1, ?_, by rw [pow_succ, mul_assoc]⟩, by omega⟩
    by_contra hlarge
    obtain rfl : k = 28 := by omega
    exact absurd hsmall (by decide)
  · cases hgrow
    exact ⟨⟨k, hk, rfl⟩, by omega⟩

theorem HasSlot.full (h : HasSlot slots n) (hgrow : growSlots slots n = none) :
    n + 1 = maxSlots := by
  obtain ⟨⟨k, hk, rfl⟩, hn⟩ := h
  rw [growSlots] at hgrow
  split_ifs at hgrow with hfull hlarge
  have hlast : k = 28 := by
    by_contra hne
    have hle := Nat.pow_le_pow_right (n := 2) (by decide) (show k ≤ 27 by omega)
    omega
  rw [hlast] at hn hfull
  exact le_antisymm hn (Nat.le_of_lt_succ hfull)

end Slots

/-- The loop at a point with no separator since the start of the token. With one slot left it
is only reached at this start. -/
theorem splitlenLoop_spec (hsep : 0 < sep.length) (hslot : HasSlot slots tokens.length)
    (hle : start ≤ j) (hnone : ∀ i, start ≤ i → i < j → ¬ sep <+: s.drop i)
    (hfull : tokens.length + 1 = maxSlots → j = start) :
    ∃ ts, Cuts sep (s.drop start) ts ∧ splitlenLoop s sep hsep slots tokens start j =
      if SlotsSuffice sep (tokens ++ ts) then some (tokens ++ ts) else none := by
  fun_induction splitlenLoop s sep hsep slots tokens start j with
  | case1 slots tokens start j hmore hgrow =>
    obtain ⟨ts, hcuts⟩ := exists_cuts hsep (s.drop start)
    have hlast := hslot.full hgrow
    refine ⟨ts, hcuts, (if_neg ?_).symm⟩
    rw [SlotsSuffice, drop_left' (by omega), hcuts.sdsjoinsds_eq, length_drop]
    omega
  | case2 slots tokens start j hmore slots' hgrow hhere hstore =>
    rw [storeToken, if_pos (Nat.lt_of_succ_lt (hslot.next hgrow).2)] at hstore
    cases hstore
  | case3 slots tokens start j hmore slots' hgrow hhere tokens' hstore ih =>
    have hnext := hslot.next hgrow
    rw [storeToken, if_pos (Nat.lt_of_succ_lt hnext.2)] at hstore
    cases hstore
    obtain ⟨rest, hrest⟩ := (separatorAt_iff hsep (by omega)).mp hhere
    have hlength := congrArg length hrest
    simp only [length_append, length_drop] at hlength
    obtain ⟨ts, hcuts, hloop⟩ := ih (by simpa using hnext) (by omega) (fun i _ _ => by omega)
      (fun _ => by omega)
    refine ⟨_ :: ts, .cut ?_ (fun i hi => ?_) hcuts, by simpa using hloop⟩
    · rw [← drop_drop, ← hrest, drop_left, append_assoc, hrest]
      nth_rewrite 1 [← take_append_drop (j - start) (s.drop start)]
      rw [drop_drop, Nat.add_sub_cancel' hle]
    · rw [length_take] at hi
      rw [drop_drop]
      exact hnone _ (by omega) (by omega)
  | case4 slots tokens start j hmore slots' hgrow hhere ih =>
    have hnext := hslot.next hgrow
    refine ih ⟨hnext.1, Nat.lt_of_succ_lt hnext.2⟩ (by omega) (fun i hi hlt => ?_) ?_
    · rcases Nat.lt_succ_iff_lt_or_eq.mp hlt with hlt | rfl
      · exact hnone i hi hlt
      · exact mt (separatorAt_iff hsep (by omega)).mpr hhere
    · have hlt := hnext.lt_maxSlots
      omega
  | case5 slots tokens start j hmore =>
    refine ⟨[s.drop start], .last fun hin => ?_, ?_⟩
    · obtain ⟨i, hi⟩ := infix_iff_drop.mp hin
      have hlength := hi.length_le
      rw [drop_drop] at hi
      simp only [length_drop] at hlength
      exact hnone (start + i) (by omega) (by omega) hi
    · rw [storeToken, if_pos hslot.2, if_pos]
      have hlt := hslot.lt_maxSlots
      rcases lt_or_ge (tokens.length + 1) maxSlots with hmore' | hmore'
      · rw [SlotsSuffice, drop_eq_nil_of_le (by simp; omega)]
        exact hsep
      · rw [SlotsSuffice, drop_left' (by omega), sdsjoinsds, joinLoop, joinLoop]
        have hstart := hfull (by omega)
        simp
        omega

theorem sdssplitlen_eq (hs : s ≠ []) (hsep : sep ≠ []) :
    ∃ tokens, Cuts sep s tokens ∧ sdssplitlen s sep =
      if SlotsSuffice sep tokens then some (some tokens) else none := by
  have hpos := length_pos_of_ne_nil hsep
  have hslot : HasSlot 5 ([] : List Bytes).length := ⟨⟨0, by decide, rfl⟩, by decide⟩
  obtain ⟨tokens, hcuts, hloop⟩ := splitlenLoop_spec (s := s) hpos hslot (le_refl 0)
    (fun i _ hi => absurd hi i.not_lt_zero) (fun _ => rfl)
  refine ⟨tokens, hcuts, ?_⟩
  rw [sdssplitlen, dif_pos hpos, if_neg (by simpa using hs), hloop, nil_append]
  split_ifs <;> rfl

/-- Every string has tokens that end at the leftmost separators and give the string again when
they are joined, and no token contains the separator. `sdssplitlen` returns them as long as the
number of its slots does not overflow. -/
theorem sdssplitlen_cuts_leftmost (s sep : Bytes) (hs : s ≠ []) (hsep : sep ≠ []) :
    ∃ tokens, Cuts sep s tokens ∧ (∀ t ∈ tokens, ¬ sep <:+: t) ∧ sdsjoinsds tokens sep = s ∧
      sdssplitlen s sep = if SlotsSuffice sep tokens then some (some tokens) else none := by
  obtain ⟨tokens, hcuts, hsplit⟩ := sdssplitlen_eq hs hsep
  exact ⟨tokens, hcuts, hcuts.not_infix (length_pos_of_ne_nil hsep), hcuts.sdsjoinsds_eq, hsplit⟩

/-- `a,b` is cut at the comma. -/
theorem sdssplitlen_cuts_comma :
    ∃ tokens, Cuts [44] [97, 44, 98] tokens ∧ (∀ t ∈ tokens, ¬ [44] <:+: t) ∧
      sdsjoinsds tokens [44] = [97, 44, 98] ∧ sdssplitlen [97, 44, 98] [44] =
        if SlotsSuffice [44] tokens then some (some tokens) else none :=
  sdssplitlen_cuts_leftmost [97, 44, 98] [44] (by decide) (by decide)

theorem Cuts.eq_replicate {c : UInt8} (h : Cuts [c] (replicate n c) tokens) :
    tokens = replicate (n + 1) [] := by
  induction n generalizing tokens with
  | zero =>
    cases h with
    | last => rfl
    | cut here => simp at here
  | succ n ih =>
    cases h with
    | last h => exact absurd (infix_iff_drop.mpr ⟨0, prefix_append [c] _⟩) h
    | @cut _ token rest tokens here leftmost behind =>
      cases token with
      | nil =>
        cases here
        rw [ih behind]
        rfl
      | cons => exact absurd (prefix_append [c] _) (leftmost 0 (Nat.succ_pos _))

/-- A string of separators only, for which the number of slots overflows. -/
theorem separators_overflow :
    ∃ s sep : Bytes, s ≠ [] ∧ sep ≠ [] ∧ sdssplitlen s sep = none := by
  obtain ⟨n, hn⟩ : ∃ n, n = maxSlots := ⟨_, rfl⟩
  have hs : replicate n (44 : UInt8) ≠ [] := by
    rw [Ne, replicate_eq_nil_iff, hn]
    decide
  obtain ⟨tokens, hcuts, hsplit⟩ := sdssplitlen_eq hs (cons_ne_nil 44 [])
  refine ⟨_, _, hs, cons_ne_nil 44 [], hsplit.trans (if_neg ?_)⟩
  have htwo : n + 1 - (maxSlots - 1) = 2 := by
    rw [hn]
    decide
  rw [SlotsSuffice, hcuts.eq_replicate, drop_replicate, htwo]
  decide

end Redis.Sds
