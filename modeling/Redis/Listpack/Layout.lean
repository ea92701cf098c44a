import Redis.Listpack.Encoding

/-! The byte format of a listpack, and what `lpInsert` does to it: the bytes of
one entry are cut out or put in, and the header is brought up to date. -/
namespace Redis.Listpack

open ByteBuffer Util List Option

/-- An encoded element with its length behind it. -/
def entry (x : Bytes) : Bytes := x ++ lpEncodeBacklen x.length

def body (xs : List Bytes) : Bytes := xs.flatMap entry

def header (bytes num : Nat) : Bytes := leBytes 4 bytes ++ leBytes 2 num

/-- The whole listpack with these encoded elements and this element count. -/
def layoutBytes (xs : List Bytes) (num : Nat) : Bytes :=
  header ((body xs).length + 7) num ++ body xs ++ [255]

/-- Every element is an encoding of some value. -/
def Valid (xs : List Bytes) : Prop := ∀ x ∈ xs, ∃ v, Encoded x v

@[simp] theorem body_nil : body [] = [] := rfl

@[simp] theorem body_cons (x : Bytes) (xs : List Bytes) : body (x :: xs) = entry x ++ body xs := rfl

@[simp] theorem body_append (xs ys : List Bytes) : body (xs ++ ys) = body xs ++ body ys := by
  simp [body]

theorem lpEncodeBacklen_length (l : Nat) :
    0 < (lpEncodeBacklen l).length ∧ (lpEncodeBacklen l).length ≤ 5 := by
  unfold lpEncodeBacklen
  split_ifs <;> simp

theorem length_le_body (xs : List Bytes) : xs.length ≤ (body xs).length := by
  induction xs with
  | nil => exact le_refl _
  | cons x xs ih =>
    have hpos := (lpEncodeBacklen_length x.length).1
    rw [body_cons, entry, length_append, length_append, length_cons]
    omega

theorem layoutBytes_length (xs : List Bytes) (num : Nat) :
    (layoutBytes xs num).length = (body xs).length + 7 := by
  simp [layoutBytes, header]
  omega

@[simp] theorem header_length (t num : Nat) : (header t num).length = 6 := by
  simp [header]

section Header

variable (t num v : Nat) (rest : Bytes)

theorem lpGetTotalBytes_header (ht : t < 2 ^ 32) : lpGetTotalBytes (header t num ++ rest) = t := by
  exact readLE_leBytes_of_lt (by omega) _

theorem lpGetNumElements_header (hnum : num < 2 ^ 16) :
    lpGetNumElements (header t num ++ rest) = num := by
  have hdrop : (header t num ++ rest).drop 4 = leBytes 2 num ++ rest := by
    exact drop_left' (leBytes_length 4 t)
  exact readLE_leBytes_of_lt (by omega) _

theorem lpSetTotalBytes_header : lpSetTotalBytes (header t num ++ rest) v = header v num ++ rest := by
  have h := store_append (a := []) (x := leBytes 4 t) (b := leBytes 2 num ++ rest)
    (y := leBytes 4 v) (i := 0) rfl (by simp)
  simpa [lpSetTotalBytes, header] using h

theorem lpSetNumElements_header : lpSetNumElements (header t num ++ rest) v = header t v ++ rest := by
  have h := store_append (a := leBytes 4 t) (x := leBytes 2 num) (b := rest)
    (y := leBytes 2 v) (i := 4) (by simp) (by simp)
  simpa [lpSetNumElements, header] using h

end Header

section Reading

variable {pre post xs : List Bytes} {x : Bytes} {v : Value} {num : Nat} (pre post : List Bytes)

theorem layoutBytes_drop (num : Nat) :
    (layoutBytes (pre ++ post) num).drop (6 + (body pre).length) = body post ++ [255] := by
  rw [layoutBytes, body_append, ← append_assoc, append_assoc]
  exact drop_left' (by simp)

theorem layout_element (num : Nat) (hx : Encoded x v) :
    lpCurrentEncodedSize ((layoutBytes (pre ++ x :: post) num).drop (6 + (body pre).length)) =
        x.length ∧
      lpGet ((layoutBytes (pre ++ x :: post) num).drop (6 + (body pre).length)) = v ∧
      byteAt (layoutBytes (pre ++ x :: post) num) (6 + (body pre).length) ≠ lpEof := by
  have hdrop := layoutBytes_drop pre (x :: post) num
  rw [body_cons, entry, append_assoc, append_assoc] at hdrop
  refine ⟨?_, ?_, ?_⟩
  · rw [hdrop, hx.size]
  · rw [hdrop, hx.get]
  · rw [← add_zero (6 + _), ← byteAt_drop, hdrop]
    exact hx.head_ne_eof _

theorem layout_skip (num : Nat) (hx : Encoded x v) :
    lpSkip (layoutBytes (pre ++ x :: post) num) (6 + (body pre).length) =
      6 + (body (pre ++ [x])).length := by
  simp only [lpSkip, (layout_element pre post num hx).1]
  simp [entry]
  omega

end Reading

section Edit

/-- Whatever is in front of and behind the replaced entry keeps its bytes. -/
theorem relocate_spec {a x b : Bytes} {m n old : Nat} {w : Where} (hw : w = .before → x = [])
    (hold : old = (a ++ x ++ b).length) (hn : n = a.length + m + b.length) :
    ∃ gap : Bytes, gap.length = m ∧
      relocate (a ++ x ++ b) a.length x.length m old n w = a ++ gap ++ b := by
  have holdlen : old = a.length + x.length + b.length := by
    rw [hold, length_append, length_append]
  have hmove : ∀ lp : Bytes,
      (if w = .before then memmove lp (a.length + m) a.length (old - a.length)
      else memmove lp (a.length + x.length + ((m : Int) - x.length)).toNat (a.length + x.length)
        (old - a.length - x.length)) =
      memmove lp (a.length + m) (a.length + x.length) b.length := by
    intro lp
    split_ifs with hb
    · obtain rfl := hw hb
      rw [show old - a.length = b.length by simp at holdlen; omega]
      rfl
    · rw [show (a.length + x.length + ((m : Int) - x.length)).toNat = a.length + m by omega,
        show old - a.length - x.length = b.length by omega]
  simp only [relocate, hmove]
  rcases lt_trichotomy x.length m with hlt | heq | hgt
  · obtain ⟨gap, hgap, hres⟩ := memmove_realloc (a := a) (b := b) (le_of_lt hlt)
    refine ⟨gap, hgap, ?_⟩
    rw [if_neg (by omega), if_pos (by omega), hn, hres]
  · refine ⟨x, heq, ?_⟩
    have hsame : ((a ++ x ++ b).drop (a.length + x.length)).take b.length = b := by
      rw [← length_append, drop_left, take_length]
    have hstore := store_append (a := a ++ x) (x := b) (b := []) (y := b)
      (i := a.length + m) (by simp; omega) rfl
    rw [if_neg (by omega), if_neg (by omega), memmove, hsame]
    simpa using hstore
  · obtain ⟨gap, hgap, hres⟩ := realloc_memmove (a := a) (b := b) (le_of_lt hgt)
    refine ⟨gap, hgap, ?_⟩
    rw [if_pos (by omega), if_neg (by omega), hn, hres]

/-- The element count after an insertion and after a deletion. -/
def countSucc (num : Nat) : Nat := if num = lpHdrNumeleUnknown then num else num + 1

def countPred (num : Nat) : Nat := if num = lpHdrNumeleUnknown then num else num - 1

theorem updateNumElements_header {t num : Nat} (hnum : num < 2 ^ 16) (rest : Bytes)
    (ele : Option Bytes) (w : Where) (hpos : ele = none → 0 < num) :
    updateNumElements (header t num ++ rest) ele w =
      header t (if ele.isNone then countPred num
        else if w = .replace then num else countSucc num) ++ rest := by
  rw [updateNumElements, lpGetNumElements_header _ _ _ hnum, countPred, countSucc]
  cases ele with
  | none =>
    have hpred : (num + 2 ^ 32 - 1) % 2 ^ 32 = num - 1 := by
      have := hpos rfl
      omega
    by_cases hc : num = lpHdrNumeleUnknown
    · simp [hc]
    · simp only [lpSetNumElements_header, hpred]
      simp [hc]
  | some ele =>
    by_cases hw : w = .replace
    · simp [hw]
    · by_cases hc : num = lpHdrNumeleUnknown
      · simp [hc]
      · simp [hc, hw, lpSetNumElements_header]

variable {pre del post : List Bytes} {num : Nat} {w : Where} {ele : Bytes}

/-- What is replaced: nothing, or one element. -/
def Replaces (w : Where) (del : List Bytes) : Prop :=
  (w = .before ∧ del = []) ∨ (w = .replace ∧ ∃ x v, del = [x] ∧ Encoded x v)

theorem replacedLen_layout (num : Nat) (hw : Replaces w del)
    (hsize : (body (pre ++ (del ++ post))).length + 7 < 2 ^ 32) :
    replacedLen (layoutBytes (pre ++ (del ++ post)) num) (6 + (body pre).length) w =
      (body del).length := by
  rcases hw with ⟨rfl, rfl⟩ | ⟨rfl, x, v, rfl, hx⟩
  · rfl
  · have hlen : (body [x]).length = x.length + (lpEncodeBacklen x.length).length := by
      simp [entry]
    rw [body_append, body_append, length_append, length_append, hlen] at hsize
    simp only [replacedLen, singleton_append, (layout_element pre post num hx).1, if_true, hlen]
    exact Nat.mod_eq_of_lt (by omega)

/-- The layout cut at the place of the edit. -/
theorem layoutBytes_split (pre del post : List Bytes) (num : Nat) :
    layoutBytes (pre ++ (del ++ post)) num =
      (header ((body (pre ++ (del ++ post))).length + 7) num ++ body pre) ++ body del ++
        (body post ++ [255]) := by
  simp [layoutBytes]

theorem layout_totalBytes {xs : List Bytes} (hsize : (body xs).length + 7 < 2 ^ 32) :
    lpGetTotalBytes (layoutBytes xs num) = (body xs).length + 7 := by
  rw [layoutBytes, append_assoc, lpGetTotalBytes_header _ _ _ hsize]

/-- Moving the rest of a layout to leave room for `m` bytes. -/
theorem relocate_layout (pre post : List Bytes) (num m : Nat) (hw : Replaces w del) :
    ∃ gap : Bytes, gap.length = m ∧
      relocate (layoutBytes (pre ++ (del ++ post)) num) (6 + (body pre).length) (body del).length m
        ((body (pre ++ (del ++ post))).length + 7) (7 + (body pre).length + m + (body post).length)
        w =
      header ((body (pre ++ (del ++ post))).length + 7) num ++ body pre ++ gap ++
        (body post ++ [255]) := by
  have hbefore : w = .before → body del = [] := by
    intro hb
    rcases hw with ⟨_, rfl⟩ | ⟨rfl, _⟩
    · rfl
    · cases hb
  obtain ⟨gap, hgap, hreloc⟩ := relocate_spec (b := body post ++ [255])
    (a := header ((body (pre ++ (del ++ post))).length + 7) num ++ body pre)
    (m := m) hbefore rfl rfl
  have hplace : (header ((body (pre ++ (del ++ post))).length + 7) num ++ body pre).length =
      6 + (body pre).length := by simp
  have hend : 6 + (body pre).length + m + (body post ++ [255]).length =
      7 + (body pre).length + m + (body post).length := by
    simp
    omega
  rw [← layoutBytes_split, layoutBytes_length, hplace, hend] at hreloc
  exact ⟨gap, hgap, hreloc⟩

/-- Insertion and replacement, from the point on where the position is known. -/
theorem lpInsertAt_some (hw : Replaces w del) (hele : 5 + ele.length < 2 ^ 32) (hnum : num < 2 ^ 16)
    (hsize : (body (pre ++ (del ++ post))).length + 7 < 2 ^ 32) :
    lpInsertAt (layoutBytes (pre ++ (del ++ post)) num) (some ele) (6 + (body pre).length) w =
      if (body (pre ++ encodeElement ele :: post)).length + 7 > uint32Max then none
      else some (layoutBytes (pre ++ encodeElement ele :: post)
        (if w = .replace then num else countSucc num), some (6 + (body pre).length)) := by
  obtain ⟨henc, henclen⟩ := lpEncodeGetType_eq hele
  have hreplaced := replacedLen_layout num hw hsize
  have hxlen := encodeElement_length_le ele
  generalize encodeElement ele = x at henc henclen hxlen ⊢
  have hback := (lpEncodeBacklen_length x.length).2
  have hentry : (entry x).length = x.length + (lpEncodeBacklen x.length).length := by simp [entry]
  have hnew : ((body (pre ++ (del ++ post))).length + 7 + x.length +
      (lpEncodeBacklen x.length).length + 2 ^ 64 - (body del).length) % 2 ^ 64 =
      (body (pre ++ x :: post)).length + 7 := by
    simp only [body_append, body_cons, length_append, hentry] at hsize ⊢
    omega
  have hroom : 7 + (body pre).length + (x.length + (lpEncodeBacklen x.length).length) +
      (body post).length = (body (pre ++ x :: post)).length + 7 := by
    simp [hentry]
    omega
  obtain ⟨gap, hgap, hreloc⟩ := relocate_layout pre post num
    (x.length + (lpEncodeBacklen x.length).length) hw
  rw [hroom] at hreloc
  rcases hget : lpEncodeGetType ele with ⟨intenc, enclen⟩
  rw [hget] at henc henclen
  subst henclen
  simp only [lpInsertAt, map_some, getD_some, hget, isSome_some, if_true,
    isNone_some, Bool.false_eq_true, false_and, if_false, layout_totalBytes hsize, hreplaced,
    hnew, hreloc, henc]
  by_cases hmax : (body (pre ++ x :: post)).length + 7 > uint32Max
  · rw [if_pos hmax, if_pos hmax]
  · rw [if_neg hmax, if_neg hmax, store_store_append (by simp) hgap, append_assoc,
      append_assoc, updateNumElements_header hnum _ _ _ (by simp), lpSetTotalBytes_header,
      layoutBytes]
    simp [entry]

/-- Behind the last element stands the end marker. -/
theorem byteAt_eof_iff {a : Bytes} {i : Nat} (hi : i = a.length) (hvalid : Valid post) :
    byteAt (a ++ (body post ++ [255])) i = lpEof ↔ post = [] := by
  rw [hi, ← add_zero a.length, byteAt_append]
  cases post with
  | nil => exact ⟨fun _ => rfl, fun _ => rfl⟩
  | cons y post =>
    obtain ⟨v, hy⟩ := hvalid y (mem_cons_self ..)
    have hne := hy.head_ne_eof (lpEncodeBacklen y.length ++ (body post ++ [255]))
    rw [body_cons, entry, append_assoc, append_assoc]
    simp [hne]

/-- Deletion of an element. -/
theorem lpInsertAt_none {x : Bytes} {v : Value} (hx : Encoded x v) (hvalid : Valid post)
    (hnum : num < 2 ^ 16) (hpos : 0 < num)
    (hsize : (body (pre ++ ([x] ++ post))).length + 7 < 2 ^ 32) :
    lpInsertAt (layoutBytes (pre ++ ([x] ++ post)) num) none (6 + (body pre).length) .replace =
      some (layoutBytes (pre ++ post) (countPred num),
        if post = [] then none else some (6 + (body pre).length)) := by
  have hw : Replaces .replace [x] := .inr ⟨rfl, x, v, rfl, hx⟩
  have hreplaced := replacedLen_layout num hw hsize
  have hnew : ((body (pre ++ ([x] ++ post))).length + 7 + 0 + 0 + 2 ^ 64 - (body [x]).length) %
      2 ^ 64 = (body (pre ++ post)).length + 7 := by
    simp only [body_append, length_append] at hsize ⊢
    omega
  have hroom : 7 + (body pre).length + 0 + (body post).length = (body (pre ++ post)).length + 7 := by
    simp
    omega
  obtain ⟨gap, hgap, hreloc⟩ := relocate_layout pre post num 0 hw
  obtain rfl := length_eq_zero_iff.mp hgap
  rw [hroom] at hreloc
  have hmax : ¬ (body (pre ++ post)).length + 7 > uint32Max := by
    simp only [body_append, length_append, uint32Max] at hsize ⊢
    omega
  simp only [lpInsertAt, map_none, getD_none, isSome_none, Bool.false_eq_true,
    if_false, length_nil, isNone_none, true_and, layout_totalBytes hsize, hreplaced,
    hnew, add_zero, hreloc, if_neg hmax]
  simp only [byteAt_eof_iff (show 6 + (body pre).length =
    (header ((body (pre ++ ([x] ++ post))).length + 7) num ++ body pre ++ []).length by simp) hvalid]
  rw [append_nil, append_assoc, updateNumElements_header hnum _ _ _ (fun _ => hpos),
    lpSetTotalBytes_header, layoutBytes]
  simp

end Edit

end Redis.Listpack
