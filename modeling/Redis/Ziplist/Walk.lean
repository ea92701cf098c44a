import Redis.Ziplist.Delete

/-! Walking over a well-formed ziplist: forward, backward, by index, and
decoding its values. -/
namespace Redis.Ziplist

open ByteBuffer List Option

/-- Offset of the `k`-th entry, found by skipping `k` entries. -/
def entryOffset (zl : Bytes) : Nat → Nat
  | 0 => ziplistHeaderSize
  | k + 1 => entryOffset zl k + zipRawEntryLength (zl.drop (entryOffset zl k))

/-- The values from an offset up to the end marker. -/
def valuesFrom : Nat → Bytes → Nat → List Bytes
  | 0, _, _ => []
  | fuel + 1, zl, p =>
    match ziplistGet (zl.drop p) with
    | none => []
    | some v => v.text :: valuesFrom fuel zl (p + zipRawEntryLength (zl.drop p))

/-- The decoded value sequence of a ziplist. -/
def values (zl : Bytes) : List Bytes := valuesFrom zl.length zl ziplistHeaderSize

/-- The entries from an offset up to the end marker. -/
def entriesFrom : Nat → Bytes → Nat → List Entry
  | 0, _, _ => []
  | fuel + 1, zl, p =>
    if byteAt zl p = zipEnd then []
    else
      let e := zipEntry (zl.drop p)
      { big := e.prevrawlensize = 5, body := (zl.drop (p + e.prevrawlensize)).take (e.lensize + e.len) }
        :: entriesFrom fuel zl (p + zipRawEntryLength (zl.drop p))

/-- The entries of a ziplist. -/
def entriesOf (zl : Bytes) : List Entry := entriesFrom zl.length zl ziplistHeaderSize

/-- The string an entry stands for. -/
def Entry.text (e : Entry) : Bytes := (bodyValue e.body).text

section Walk

variable {index k n : Nat}
variable {pre post rest es : List Entry} {e : Entry} {c : Nat}

/-- An integer is read from as many bytes as its encoding says. -/
theorem zipLoadInteger_append {enc : Nat} (hsize : zipIntSize enc = some n) {data : Bytes}
    (hn : n ≤ data.length) (rest : Bytes) :
    zipLoadInteger (data ++ rest) enc = zipLoadInteger data enc := by
  have hload : ∀ k, k ≤ data.length → loadInt k (data ++ rest) = loadInt k data := by
    intro k hk
    rw [loadInt, loadInt, readLE_append hk]
  unfold zipIntSize at hsize
  split_ifs at hsize with h8 h16 h24 h32 h64 himm <;>
    simp only [some.injEq] at hsize <;> subst hsize
  · simp only [zipLoadInteger, if_pos h8]
    exact hload 1 hn
  · simp only [zipLoadInteger, if_neg h8, if_pos h16]
    exact hload 2 hn
  · have h32 : ¬ enc = zipInt32B := by
      rw [h24]
      decide
    have h := readLE_append (n := 4) (a := 0 :: data) (by simpa using hn) rest
    rw [cons_append] at h
    simp only [zipLoadInteger, if_neg h8, if_neg h16, if_neg h32, if_pos h24]
    rw [loadInt, loadInt, h]
  · simp only [zipLoadInteger, if_neg h8, if_neg h16, if_pos h32]
    exact hload 4 hn
  · simp only [zipLoadInteger, if_neg h8, if_neg h16, if_neg h24, if_neg h32, if_pos h64]
    exact hload 8 hn
  · simp only [zipLoadInteger, if_neg h8, if_neg h16, if_neg h24, if_neg h32, if_neg h64]

theorem zipDecodeLength_notStr {body : Bytes} (h : zipIsStr (zipDecodeLength body).1 = false) :
    (zipDecodeLength body).2.2 = (zipIntSize (zipDecodeLength body).1).getD 0 := by
  simp only [zipDecodeLength] at h ⊢
  by_cases hlt : zipEntryEncoding body < 0xc0
  · have hstr : zipIsStr (zipEntryEncoding body) = true := by
      have hle : zipEntryEncoding body &&& 0xc0 ≤ zipEntryEncoding body := Nat.and_le_left
      simp only [zipIsStr, decide_eq_true_eq]
      omega
    split_ifs at h <;> simp_all
  · rw [if_neg hlt]

theorem Entry.drop_data (prev : Nat) (hbody : BodyOk e.body) (rest : Bytes) :
    (e.bytes prev ++ rest).drop (e.prevSize + (zipDecodeLength e.body).2.1) =
      e.body.drop (zipDecodeLength e.body).2.1 ++ rest := by
  have hlen := hbody.1
  rw [← drop_drop, Entry.drop_prevSize, drop_append_of_le_length (by omega)]

/-- `ziplistGet` reads the value of the body. -/
theorem Entry.get_eq {prev : Nat} (hfits : e.Fits prev) (hlt : prev < 2 ^ 32) (hbody : BodyOk e.body)
    (rest : Bytes) : ziplistGet (e.bytes prev ++ rest) = some (bodyValue e.body) := by
  have hdrop := Entry.drop_data prev hbody rest
  obtain ⟨hlen, henc⟩ := hbody
  rw [ziplistGet, if_neg (Entry.head_ne_end hfits rest)]
  simp only [Entry.zipEntry_eq hfits hlt ⟨hlen, henc⟩, hdrop, bodyValue]
  rcases henc with hstr | hint
  · rw [if_pos hstr, if_pos hstr, take_append_of_le_length (by rw [length_drop]; omega)]
  · obtain ⟨n, hn⟩ := isSome_iff_exists.mp hint
    split_ifs with hstr
    · rw [take_append_of_le_length (by rw [length_drop]; omega)]
    · have hdec : (zipDecodeLength e.body).2.2 = n := by
        rw [zipDecodeLength_notStr (by simpa using hstr), hn]
        rfl
      rw [zipLoadInteger_append hn (by rw [length_drop]; omega)]

theorem layout_get (hvalid : ValidFrom 0 (pre ++ e :: rest))
    (hsize : total (pre ++ e :: rest) + 11 < 2 ^ 32) :
    ziplistGet ((layoutBytes (pre ++ e :: rest) c).drop (10 + total pre)) =
      some (bodyValue e.body) := by
  obtain ⟨behind, hat, hfits, hbody⟩ := layout_at hvalid c
  rw [hat]
  exact Entry.get_eq hfits (lastSize_lt hsize) hbody _

theorem layout_get_end (pre : List Entry) (c : Nat) :
    ziplistGet ((layoutBytes (pre ++ []) c).drop (10 + total pre)) = none := by
  rw [ziplistGet, byteAt_drop, add_zero, if_pos (layout_end pre c)]

theorem layoutBytes_length (es : List Entry) (c : Nat) :
    (layoutBytes es c).length = total es + 11 := by
  simp [layoutBytes]
  omega

/-- There are fewer entries than bytes. -/
theorem length_lt_layoutBytes (es : List Entry) (c : Nat) : es.length < (layoutBytes es c).length := by
  have hlen := length_le_total es
  rw [layoutBytes_length]
  omega

/-- A loop over the entries of a layout computes `g` of them if it does so at the end marker,
and at an entry if it does so from the next one on. -/
theorem walk_layout {α : Type} {f : Nat → Nat → α} {g : List Entry → α} {fuel : Nat}
    (hend : ∀ fuel, f (fuel + 1) (10 + total es) = g [])
    (hstep : ∀ pre e rest fuel, es = pre ++ e :: rest →
      f fuel (10 + total pre + e.size) = g rest → f (fuel + 1) (10 + total pre) = g (e :: rest))
    (hfuel : es.length < fuel) : f fuel ziplistHeaderSize = g es := by
  have hrun : ∀ post pre fuel, es = pre ++ post → post.length < fuel →
      f fuel (10 + total pre) = g post := by
    intro post
    induction post with
    | nil =>
      intro pre fuel hes hfuel
      obtain ⟨fuel, rfl⟩ := Nat.exists_eq_succ_of_ne_zero (by omega : fuel ≠ 0)
      rw [append_nil] at hes
      exact hes ▸ hend fuel
    | cons e rest ih =>
      intro pre fuel hes hfuel
      obtain ⟨fuel, rfl⟩ := Nat.exists_eq_succ_of_ne_zero (by omega : fuel ≠ 0)
      have hih := ih (pre ++ [e]) fuel (by simpa using hes) (by simpa using hfuel)
      rw [total_append, total_cons, total_nil, add_zero, ← add_assoc] at hih
      exact hstep pre e rest fuel hes hih
  exact hrun es [] fuel rfl hfuel

/-- The values of a layout are those of its entries. -/
theorem values_layout (hvalid : ValidFrom 0 es) (hsize : total es + 11 < 2 ^ 32) :
    values (layoutBytes es c) = es.map Entry.text := by
  refine walk_layout (f := fun fuel p => valuesFrom fuel (layoutBytes es c) p)
    (g := map Entry.text) (fun fuel => ?_) ?_ (length_lt_layoutBytes es c)
  · have hget := layout_get_end es c
    rw [append_nil] at hget
    rw [valuesFrom, hget]
    rfl
  · rintro pre e rest fuel rfl hrest
    rw [valuesFrom, layout_get hvalid hsize, layout_rawlen hvalid]
    exact congrArg (e.text :: ·) hrest

/-- A layout is read back from its bytes. -/
theorem entriesOf_layout (hvalid : ValidFrom 0 es) (hsize : total es + 11 < 2 ^ 32) :
    entriesOf (layoutBytes es c) = es := by
  refine walk_layout (f := fun fuel p => entriesFrom fuel (layoutBytes es c) p) (g := id)
    (fun fuel => ?_) ?_ (length_lt_layoutBytes es c)
  · have hend := layout_end es c
    rw [append_nil] at hend
    exact if_pos hend
  · rintro pre e rest fuel rfl hrest
    obtain ⟨behind, hdrop, hfits, hbody⟩ := layout_at hvalid c
    have hbodyAt : ((layoutBytes (pre ++ e :: rest) c).drop (10 + total pre + e.prevSize)).take
        ((zipDecodeLength e.body).2.1 + (zipDecodeLength e.body).2.2) = e.body := by
      rw [← drop_drop, hdrop, Entry.drop_prevSize, hbody.1, take_left]
    have hbig : decide (e.prevSize = 5) = e.big := by
      rw [Entry.prevSize]
      cases e.big <;> rfl
    rw [entriesFrom, if_neg (layout_entry hvalid), layout_rawlen hvalid, hrest]
    simp only [hdrop, Entry.zipEntry_eq hfits (lastSize_lt hsize) hbody,
      hbodyAt, hbig, id]

theorem entryOffset_layout (hvalid : ValidFrom 0 es) (hk : k ≤ es.length) :
    entryOffset (layoutBytes es c) k = 10 + total (es.take k) := by
  induction k with
  | zero => rfl
  | succ k ih =>
    have hlt : k < es.length := hk
    have hsplit : es = es.take k ++ es[k] :: es.drop (k + 1) := by simp
    have hraw := layout_rawlen (c := c) (hsplit ▸ hvalid)
    rw [← hsplit] at hraw
    rw [entryOffset, ih (by omega), hraw, take_succ_eq_append_getElem hlt, total_append]
    simp
    omega

/-- The forward walk stops after `index` entries or at the end marker. -/
theorem indexForward_layout (hvalid : ValidFrom 0 (pre ++ post)) :
    indexForward (layoutBytes (pre ++ post) c) index (10 + total pre) =
      (10 + total pre + total (post.take index), index - post.length) := by
  induction index generalizing pre post with
  | zero => simp [indexForward]
  | succ index ih =>
    cases post with
    | nil =>
      rw [indexForward, if_pos (layout_end pre c)]
      simp
    | cons e rest =>
      have happ : pre ++ e :: rest = (pre ++ [e]) ++ rest := by simp
      have hih := ih (show ValidFrom 0 ((pre ++ [e]) ++ rest) by rwa [← happ])
      rw [← happ, total_append] at hih
      simp only [total_cons, total_nil, add_zero] at hih
      rw [indexForward, if_neg (layout_entry hvalid), layout_rawlen hvalid, add_assoc, hih]
      simp
      omega

/-- The backward walk stops after `index` entries or at the first one. -/
theorem indexBack_layout (hvalid : ValidFrom 0 (pre ++ e :: rest))
    (hsize : total (pre ++ e :: rest) + 11 < 2 ^ 32) :
    indexBack (layoutBytes (pre ++ e :: rest) c) index (10 + total pre) =
      (10 + total (pre.take (pre.length - index)), index - pre.length) := by
  induction index generalizing pre e rest with
  | zero => simp [indexBack]
  | succ index ih =>
    rw [indexBack]
    simp only [layout_prevlen hvalid hsize]
    rcases eq_nil_or_concat pre with rfl | ⟨front, last, rfl⟩
    · simp [lastSize]
    · rw [concat_eq_append] at hvalid hsize ⊢
      have hpos := last.size_pos
      have happ : front ++ [last] ++ e :: rest = front ++ last :: e :: rest := by simp
      have hlast : lastSize 0 (front ++ [last]) = last.size := by rw [lastSize_append]; rfl
      have hih := ih (show ValidFrom 0 (front ++ last :: e :: rest) by rwa [← happ])
        (by rwa [← happ])
      rw [happ, hlast, if_pos hpos, total_append]
      simp only [total_cons, total_nil, add_zero]
      rw [show 10 + (total front + last.size) - last.size = 10 + total front by omega, hih]
      have htake : (front ++ [last]).take ((front ++ [last]).length - (index + 1)) =
          front.take (front.length - index) := by
        rw [length_append, length_singleton, take_append_of_le_length (by omega)]
        congr 1
        omega
      rw [htake, length_append, length_singleton]
      congr 1
      omega

/-- The position an index stands for in a list of `n` elements, counted from
the end when it is negative. -/
def position (n : Nat) (index : Int) : Option Nat :=
  if index < 0 then
    if (-index).toNat ≤ n then some (n - (-index).toNat) else none
  else if index.toNat < n then some index.toNat else none

theorem position_lt {index : Int} (h : position n index = some k) : k < n := by
  unfold position at h
  split_ifs at h with hneg hle hlt
  · simp only [some.injEq] at h
    omega
  · simp only [some.injEq] at h
    omega

/-- A position between entries is the end exactly when none is left. -/
theorem layout_end_iff (hvalid : ValidFrom 0 (pre ++ post)) :
    byteAt (layoutBytes (pre ++ post) c) (10 + total pre) = zipEnd ↔ post = [] := by
  cases post with
  | nil => simp only [iff_true]; exact layout_end pre c
  | cons e rest => simpa using layout_entry hvalid

theorem layout_end_take (hvalid : ValidFrom 0 es) (k : Nat) :
    byteAt (layoutBytes es c) (10 + total (es.take k)) = zipEnd ↔ es.length ≤ k := by
  have h := layout_end_iff (c := c)
    (show ValidFrom 0 (es.take k ++ es.drop k) by rwa [take_append_drop])
  rw [take_append_drop] at h
  rw [h, drop_eq_nil_iff]

theorem ziplistIndex_layout (hvalid : ValidFrom 0 es) (hsize : total es + 11 < 2 ^ 32) (index : Int) :
    ziplistIndex (layoutBytes es c) index =
      (position es.length index).map fun k => 10 + total (es.take k) := by
  rw [ziplistIndex, position]
  by_cases hneg : index < 0
  · simp only [if_pos hneg, layout_tail hsize]
    rcases eq_nil_or_concat es with rfl | ⟨front, last, rfl⟩
    · have hend : byteAt (layoutBytes [] c) (tailOffset []) = zipEnd := layout_end [] c
      have hle : ¬ (-index).toNat ≤ ([] : List Entry).length := by
        simp
        omega
      simp only [hend, ne_eq, not_true_eq_false, if_false, true_or, if_true, if_neg hle]
      rfl
    · rw [concat_eq_append] at hvalid hsize ⊢
      have hentry := layout_entry (c := c) hvalid
      simp only [tailOffset_concat, hentry, ne_eq, not_false_eq_true, if_true, indexBack_layout hvalid hsize]
      have htake : front.take (front.length - (-index - 1).toNat) =
          (front ++ [last]).take (front.length - (-index - 1).toNat) := by
        rw [take_append_of_le_length (by omega)]
      have hnend : ¬ byteAt (layoutBytes (front ++ [last]) c)
          (10 + total (front.take (front.length - (-index - 1).toNat))) = zipEnd := by
        rw [htake, layout_end_take hvalid]
        simp
      rw [length_append, length_singleton]
      by_cases hle : (-index).toNat ≤ front.length + 1
      · rw [if_neg (by rintro (h | h) <;> [exact hnend h; omega]), if_pos hle, htake]
        simp only [map_some, some.injEq]
        congr 3
        omega
      · rw [if_pos (.inr (by omega)), if_neg hle]
        rfl
  · have hwalk : indexForward (layoutBytes ([] ++ es) c) index.toNat _ = _ :=
      indexForward_layout hvalid
    simp only [nil_append, total_nil, add_zero] at hwalk
    simp only [if_neg hneg, ziplistHeaderSize, hwalk, layout_end_take hvalid]
    by_cases hlt : index.toNat < es.length
    · rw [if_neg (by omega), if_pos hlt]
      rfl
    · rw [if_pos (by omega), if_neg hlt]
      rfl

end Walk

end Redis.Ziplist
