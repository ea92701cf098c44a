import Redis.Listpack.Layout

/-! What the editing operations do to a well-formed listpack. They act as on the
list of decoded elements, or refuse because the result would be too large. The
refusal looks at a 32-bit sum, so it comes too late for the largest strings. -/
namespace Redis.Listpack

open ByteBuffer Util List Option

/-- A byte string in listpack format with these encoded elements: the header has
its length and the number of elements or 65535, and the elements follow each
other, each with its length behind it, up to the `0xFF`. -/
structure Format (lp : Bytes) (xs : List Bytes) : Prop where
  totalBytes : lpGetTotalBytes lp = lp.length
  numElements : lpGetNumElements lp = xs.length ∨ lpGetNumElements lp = lpHdrNumeleUnknown
  elements : lp.drop lpHdrSize = body xs ++ [255]
  valid : Valid xs

def WellFormed (lp : Bytes) : Prop := ∃ xs, Format lp xs

/-- The elements from a position on, as strings. -/
def valuesFrom : Nat → Bytes → Option Nat → List Bytes
  | 0, _, _ => []
  | _, _, none => []
  | fuel + 1, lp, some p => (lpGet (lp.drop p)).text :: valuesFrom fuel lp (lpNext lp p)

/-- The decoded element sequence of a listpack. -/
def values (lp : Bytes) : List Bytes := valuesFrom lp.length lp (lpFirst lp)

/-- Offset of the `k`-th element. -/
def elementOffset (lp : Bytes) : Nat → Nat
  | 0 => lpHdrSize
  | k + 1 => lpSkip lp (elementOffset lp k)

/-- The string an encoded element stands for. -/
def text (x : Bytes) : Bytes := (lpGet x).text

variable {lp ele : Bytes} {xs pre del post : List Bytes} {num k : Nat} {w : Where}

section Walk

variable {x : Bytes} {v : Value}

theorem Encoded.text_eq (h : Encoded x v) : text x = v.text := by
  have hget := h.get []
  rw [append_nil] at hget
  rw [text, hget]

theorem layout_eof_iff (pre : List Bytes) (num : Nat) (hvalid : Valid post) :
    byteAt (layoutBytes (pre ++ post) num) (6 + (body pre).length) = lpEof ↔ post = [] := by
  have hsplit := layoutBytes_split pre [] post num
  rw [nil_append] at hsplit
  rw [hsplit]
  exact byteAt_eof_iff (by simp) hvalid

theorem layout_next (pre : List Bytes) (num : Nat) (hx : Encoded x v) (hvalid : Valid post) :
    lpNext (layoutBytes (pre ++ x :: post) num) (6 + (body pre).length) =
      if post = [] then none else some (6 + (body (pre ++ [x])).length) := by
  have happ : pre ++ x :: post = (pre ++ [x]) ++ post := by simp
  rw [lpNext, layout_skip pre post num hx, happ]
  simp only [layout_eof_iff (pre ++ [x]) num hvalid]

theorem valuesFrom_layout {fuel : Nat} (hvalid : Valid post) (hfuel : post.length < fuel) :
    valuesFrom fuel (layoutBytes (pre ++ post) num)
      (if post = [] then none else some (6 + (body pre).length)) = post.map text := by
  induction post generalizing pre fuel with
  | nil =>
    cases fuel with
    | zero | succ fuel => rfl
  | cons x post ih =>
    obtain ⟨fuel, rfl⟩ := Nat.exists_eq_succ_of_ne_zero (by omega : fuel ≠ 0)
    obtain ⟨⟨v, hx⟩, hvalid'⟩ := forall_mem_cons.mp hvalid
    have hfuel' : post.length < fuel := by simpa using hfuel
    have happ : pre ++ x :: post = (pre ++ [x]) ++ post := by simp
    rw [if_neg (cons_ne_nil x post), valuesFrom, (layout_element pre post num hx).2.1,
      layout_next pre num hx hvalid', happ, ih hvalid' hfuel', map_cons, hx.text_eq]

theorem values_layout (hvalid : Valid xs) : values (layoutBytes xs num) = xs.map text := by
  have hlen := length_le_body xs
  have hfuel : xs.length < (layoutBytes xs num).length := by
    rw [layoutBytes_length]
    omega
  have hfirst : lpFirst (layoutBytes ([] ++ xs) num) = if xs = [] then none else some 6 := by
    exact if_congr (layout_eof_iff [] num hvalid) rfl rfl
  have h : valuesFrom _ (layoutBytes ([] ++ xs) num) (if xs = [] then none else some 6) = _ :=
    valuesFrom_layout hvalid hfuel
  rw [← hfirst] at h
  exact h

theorem elementOffset_layout (hvalid : Valid xs) (hk : k ≤ xs.length) :
    elementOffset (layoutBytes xs num) k = 6 + (body (xs.take k)).length := by
  induction k with
  | zero => rfl
  | succ k ih =>
    have hlt : k < xs.length := hk
    have hsplit : xs = xs.take k ++ xs[k] :: xs.drop (k + 1) := by simp
    obtain ⟨v, hx⟩ := hvalid xs[k] (getElem_mem hlt)
    have hskip := layout_skip (xs.take k) (xs.drop (k + 1)) num hx
    rw [← hsplit] at hskip
    rw [elementOffset, ih (by omega), hskip, take_succ_eq_append_getElem hlt]

theorem format_layout (hvalid : Valid xs) (hsize : (body xs).length + 7 < 2 ^ 32)
    (hnum : num < 2 ^ 16) (hlen : num = xs.length ∨ num = lpHdrNumeleUnknown) :
    Format (layoutBytes xs num) xs := by
  have hdrop := layoutBytes_drop [] xs num
  refine ⟨?_, ?_, hdrop, hvalid⟩
  · rw [layout_totalBytes hsize, layoutBytes_length]
  · rwa [layoutBytes, append_assoc, lpGetNumElements_header _ _ _ hnum]

variable (h : Format lp xs)
include h

theorem Format.length_eq : lp.length = (body xs).length + 7 := by
  have hlen := congrArg List.length h.elements
  simp [lpHdrSize] at hlen
  omega

theorem Format.size_lt : (body xs).length + 7 < 2 ^ 32 := by
  have hlt : lp.length < 256 ^ 4 := h.totalBytes ▸ readLE_lt 4 lp
  have hlen := h.length_eq
  omega

omit h in
theorem Format.num_lt (_h : Format lp xs) : lpGetNumElements lp < 2 ^ 16 := readLE_lt 2 _

/-- The format leaves no choice but the element count. -/
theorem Format.eq_layout : lp = layoutBytes xs (lpGetNumElements lp) := by
  have hlen := h.length_eq
  have hbytes : leBytes 4 ((body xs).length + 7) = lp.take 4 := by
    rw [← hlen, ← h.totalBytes]
    exact leBytes_readLE (by omega)
  have hcount : leBytes 2 (lpGetNumElements lp) = (lp.drop 4).take 2 :=
    leBytes_readLE (by simp; omega)
  have hhead : header ((body xs).length + 7) (lpGetNumElements lp) = lp.take 6 := by
    rw [header, hbytes, hcount, ← take_add]
  rw [layoutBytes, hhead, append_assoc, ← h.elements]
  exact (take_append_drop 6 lp).symm

theorem Format.values_eq : values lp = xs.map text := by
  rw [h.eq_layout]
  exact values_layout h.valid

theorem Format.elementOffset_eq (hk : k ≤ xs.length) :
    elementOffset lp k = 6 + (body (xs.take k)).length := by
  rw [h.eq_layout]
  exact elementOffset_layout h.valid hk

end Walk

/-- The list with an element inserted before or after the `k`-th, or in its
place. -/
def insertValue (l : List Bytes) (k : Nat) (ele : Bytes) : Where → List Bytes
  | .before => l.take k ++ ele :: l.drop k
  | .after => l.take (k + 1) ++ ele :: l.drop (k + 1)
  | .replace => l.take k ++ ele :: l.drop (k + 1)

/-- Where the new element stands. -/
def insertIndex (k : Nat) : Where → Nat
  | .before => k
  | .after => k + 1
  | .replace => k

/-- The bytes of the listpack that stay. -/
def keptBytes (lp : Bytes) (k : Nat) : Where → Nat
  | .replace => lp.length - (elementOffset lp (k + 1) - elementOffset lp k)
  | _ => lp.length

/-- `lpInsert` refuses exactly when the result would be too large, and otherwise
returns a listpack with the new element, and `*newp` at it. -/
def InsertCorrect (lp : Bytes) (k : Nat) (ele : Bytes) (w : Where) : Prop :=
  (lpInsert lp (some ele) (elementOffset lp k) w = none ↔
    uint32Max < keptBytes lp k w + (entry (encodeElement ele)).length) ∧
  ∀ lp' newp, lpInsert lp (some ele) (elementOffset lp k) w = some (lp', newp) →
    WellFormed lp' ∧ values lp' = insertValue (values lp) k ele w ∧
      newp = some (elementOffset lp' (insertIndex k w))

def AppendCorrect (lp ele : Bytes) : Prop :=
  (lpAppend lp ele = none ↔ uint32Max < lp.length + (entry (encodeElement ele)).length) ∧
  ∀ lp', lpAppend lp ele = some lp' → WellFormed lp' ∧ values lp' = values lp ++ [ele]

/-- A deletion never makes the listpack too large; `*newp` is at the element
behind the deleted one, if there is one. -/
def DeleteCorrect (lp : Bytes) (k : Nat) : Prop :=
  ∃ lp' newp, lpDelete lp (elementOffset lp k) = some (lp', newp) ∧
    WellFormed lp' ∧ values lp' = (values lp).eraseIdx k ∧
    newp = if k + 1 < (values lp).length then some (elementOffset lp' k) else none

/-- The encoded length is computed without wrapping, or the listpack is so large
that even the wrapped length is too much. -/
def EnclenSuffices (kept : Nat) (ele : Bytes) : Prop :=
  5 + ele.length < 2 ^ 32 ∨ uint32Max < kept + (5 + ele.length) % 2 ^ 32 + 1

section Operations

/-- The element count after an insertion or a replacement. -/
theorem Replaces.count (hw : Replaces w del) (hnum : num < 2 ^ 16)
    (hlen : num = (pre ++ (del ++ post)).length ∨ num = lpHdrNumeleUnknown) (x : Bytes) :
    (if w = .replace then num else countSucc num) < 2 ^ 16 ∧
      ((if w = .replace then num else countSucc num) = (pre ++ x :: post).length ∨
        (if w = .replace then num else countSucc num) = lpHdrNumeleUnknown) := by
  rw [lpHdrNumeleUnknown] at *
  rcases hw with ⟨rfl, rfl⟩ | ⟨rfl, y, v, rfl, _⟩
  · rw [if_neg (by decide), countSucc, lpHdrNumeleUnknown]
    simp only [length_append, length_nil, length_cons] at hlen ⊢
    split_ifs <;> omega
  · rw [if_pos rfl]
    simp only [length_append, length_cons, length_nil] at hlen ⊢
    omega

theorem Format.encodeElement_valid (h : Format lp (pre ++ (del ++ post)))
    (hele : 5 + ele.length < 2 ^ 32) : Valid (pre ++ encodeElement ele :: post) := by
  intro x hx
  rcases mem_append.mp hx with hpre | hrest
  · exact h.valid x (by simp [hpre])
  · rcases mem_cons.mp hrest with rfl | hpost
    · exact ⟨_, encodeElement_encoded hele⟩
    · exact h.valid x (by simp [hpost])

/-- An insertion or replacement of an element whose length does not wrap. -/
theorem Format.insertAt (h : Format lp (pre ++ (del ++ post))) (hw : Replaces w del)
    (hele : 5 + ele.length < 2 ^ 32) :
    (lpInsertAt lp (some ele) (6 + (body pre).length) w = none ↔
      uint32Max < (body (pre ++ encodeElement ele :: post)).length + 7) ∧
    ∀ lp' newp, lpInsertAt lp (some ele) (6 + (body pre).length) w = some (lp', newp) →
      Format lp' (pre ++ encodeElement ele :: post) ∧ newp = some (6 + (body pre).length) := by
  have hspec := lpInsertAt_some hw hele h.num_lt h.size_lt
  rw [← h.eq_layout] at hspec
  have hcount := hw.count h.num_lt h.numElements (encodeElement ele)
  generalize (if w = .replace then lpGetNumElements lp else countSucc (lpGetNumElements lp)) = num
    at hspec hcount
  rw [hspec]
  split_ifs with hmax
  · exact ⟨⟨fun _ => hmax, fun _ => rfl⟩, by simp⟩
  · refine ⟨⟨fun hnone => absurd hnone (by simp), fun hlt => absurd hlt hmax⟩, ?_⟩
    intro lp' newp hres
    obtain ⟨rfl, rfl⟩ := hres
    rw [uint32Max] at hmax
    exact ⟨format_layout (h.encodeElement_valid hele) (by omega) hcount.1 hcount.2, rfl⟩

/-- A length that wraps is taken for one of at most four bytes. -/
theorem lpInsertAt_wraps (lp : Bytes) (w : Where) (hele : 2 ^ 32 ≤ 5 + ele.length)
    (hlt : ele.length < 2 ^ 32) (p : Nat) :
    lpInsertAt lp (some ele) p w = none ↔
      uint32Max < (lpGetTotalBytes lp + (5 + ele.length) % 2 ^ 32 + 1 + 2 ^ 64 -
        replacedLen lp p w) % 2 ^ 64 := by
  have hback : (lpEncodeBacklen ((5 + ele.length) % 2 ^ 32)).length = 1 := by
    rw [lpEncodeBacklen, if_pos (by omega)]
    rfl
  rcases hget : lpEncodeGetType ele with ⟨intenc, enclen⟩
  have henclen := lpEncodeGetType_wraps hele
  rw [hget] at henclen
  subst henclen
  simp only [lpInsertAt, map_some, getD_some, hget, isSome_some, if_true, hback]
  split_ifs with hmax
  · exact ⟨fun _ => hmax, fun _ => rfl⟩
  · exact ⟨fun h => by simp at h, fun h => absurd h hmax⟩

theorem replacedLen_before (lp : Bytes) (p : Nat) : replacedLen lp p .before = 0 := by
  simp [replacedLen]

/-- Such an element would be too large for any listpack. -/
theorem entry_wraps (hele : 2 ^ 32 ≤ 5 + ele.length) :
    uint32Max < (entry (encodeElement ele)).length := by
  have hnone : lpStringToInt64 ele = none := by
    cases h : lpStringToInt64 ele with
    | none => rfl
    | some v =>
      have hlen := string2ll_length h
      omega
  rw [entry, length_append, encodeElement, hnone]
  simp only [lpEncodeString_length]
  rw [if_neg (by omega), if_neg (by omega), uint32Max]
  omega

/-- The place of the edit: what stays in front, what is replaced and what stays
behind. -/
theorem Format.editPoint (h : Format lp xs) (hk : k < xs.length) (w : Where) :
    ∃ pre del post w', xs = pre ++ (del ++ post) ∧ Replaces w' del ∧ pre.length = insertIndex k w ∧
      keptBytes lp k w + (body del).length = lp.length ∧
      (∀ ele, lpInsert lp (some ele) (elementOffset lp k) w =
        lpInsertAt lp (some ele) (6 + (body pre).length) w') ∧
      ∀ ele, insertValue (xs.map text) k ele w = pre.map text ++ ele :: post.map text := by
  cases w with
  | before =>
    refine ⟨xs.take k, [], xs.drop k, .before, by simp, .inl ⟨rfl, rfl⟩,
      length_take_of_le hk.le, rfl, fun ele => ?_, fun ele => ?_⟩
    · rw [h.elementOffset_eq (by omega)]
      simp [lpInsert]
    · rw [insertValue, map_take, map_drop]
  | after =>
    refine ⟨xs.take (k + 1), [], xs.drop (k + 1), .before, by simp, .inl ⟨rfl, rfl⟩,
      length_take_of_le hk, rfl, fun ele => ?_, fun ele => ?_⟩
    · rw [← h.elementOffset_eq (by omega)]
      simp [lpInsert, elementOffset]
    · rw [insertValue, map_take, map_drop]
  | replace =>
    obtain ⟨v, hx⟩ := h.valid xs[k] (getElem_mem hk)
    have hsplit : xs = xs.take k ++ ([xs[k]] ++ xs.drop (k + 1)) := by simp
    have hlen : lp.length = (body (xs.take k ++ ([xs[k]] ++ xs.drop (k + 1)))).length + 7 := by
      rw [← hsplit, h.length_eq]
    refine ⟨xs.take k, [xs[k]], xs.drop (k + 1), .replace, hsplit,
      .inr ⟨rfl, xs[k], v, rfl, hx⟩, length_take_of_le hk.le, ?_, fun ele => ?_, fun ele => ?_⟩
    · rw [keptBytes, h.elementOffset_eq (by omega), h.elementOffset_eq (by omega),
        take_succ_eq_append_getElem hk]
      simp only [body_append, length_append] at hlen ⊢
      omega
    · rw [h.elementOffset_eq (by omega)]
      simp [lpInsert]
    · rw [insertValue, map_take, map_drop]

/-- What an edit gives is right exactly when the encoded length suffices, for any
`P` that the listpack with the new element has. -/
theorem Format.insertAt_iff (h : Format lp (pre ++ (del ++ post))) (hw : Replaces w del)
    {kept : Nat} (hkept : kept + (body del).length = lp.length) (hele : ele.length < 2 ^ 32)
    {P : Bytes → Option Nat → Prop} (hP : ∀ lp', Format lp' (pre ++ encodeElement ele :: post) →
      values lp' = pre.map text ++ ele :: post.map text → P lp' (some (6 + (body pre).length))) :
    ((lpInsertAt lp (some ele) (6 + (body pre).length) w = none ↔
      uint32Max < kept + (entry (encodeElement ele)).length) ∧
    ∀ lp' newp, lpInsertAt lp (some ele) (6 + (body pre).length) w = some (lp', newp) →
      P lp' newp) ↔ EnclenSuffices kept ele := by
  have hlen := h.length_eq
  by_cases hwrap : 5 + ele.length < 2 ^ 32
  · obtain ⟨hnone, hsome⟩ := h.insertAt hw hwrap
    have hbytes : (body (pre ++ encodeElement ele :: post)).length + 7 =
        kept + (entry (encodeElement ele)).length := by
      simp at hlen ⊢
      omega
    rw [hbytes] at hnone
    refine ⟨fun _ => .inl hwrap, fun _ => ⟨hnone, ?_⟩⟩
    intro lp' newp hres
    obtain ⟨hformat, rfl⟩ := hsome lp' newp hres
    apply hP lp' hformat
    rw [hformat.values_eq, map_append, map_cons, (encodeElement_encoded hwrap).text_eq,
      valueOf_text]
  · have hlt := h.size_lt
    have hnone := lpInsertAt_wraps lp w (by omega) hele (6 + (body pre).length)
    have hreplaced := replacedLen_layout (lpGetNumElements lp) hw h.size_lt
    rw [← h.eq_layout] at hreplaced
    rw [h.totalBytes, hreplaced, show (lp.length + (5 + ele.length) % 2 ^ 32 + 1 + 2 ^ 64 -
      (body del).length) % 2 ^ 64 = kept + (5 + ele.length) % 2 ^ 32 + 1 by omega] at hnone
    have hbig := entry_wraps (show 2 ^ 32 ≤ 5 + ele.length by omega)
    constructor
    · intro hcorrect
      exact .inr (hnone.mp (hcorrect.1.mpr (by omega)))
    · rintro (hfits | hfull)
      · exact absurd hfits hwrap
      · have hres := hnone.mpr hfull
        refine ⟨⟨fun _ => by omega, fun _ => hres⟩, ?_⟩
        intro lp' newp hsome
        rw [hres] at hsome
        cases hsome

theorem insertCorrect_iff (h : WellFormed lp) (hk : k < (values lp).length) (w : Where)
    (hele : ele.length < 2 ^ 32) :
    InsertCorrect lp k ele w ↔ EnclenSuffices (keptBytes lp k w) ele := by
  obtain ⟨xs, hxs⟩ := h
  rw [hxs.values_eq, length_map] at hk
  obtain ⟨pre, del, post, w', rfl, hw, hpre, hkept, hins, hval⟩ := hxs.editPoint hk w
  rw [InsertCorrect, hins, hxs.values_eq, hval]
  refine hxs.insertAt_iff hw hkept hele fun lp' hformat hvalues => ⟨⟨_, hformat⟩, hvalues, ?_⟩
  rw [hformat.elementOffset_eq (by rw [← hpre]; simp), ← hpre, take_left]

theorem lpAppend_eq (h : Format lp xs) (ele : Bytes) :
    lpAppend lp ele = (lpInsertAt lp (some ele) (6 + (body xs).length) .before).map Prod.fst := by
  have hlen := h.length_eq
  have hoff : lpGetTotalBytes lp - 1 = 6 + (body xs).length := by
    rw [h.totalBytes]
    omega
  rw [lpAppend, hoff]
  simp [lpInsert]

theorem appendCorrect_iff (h : WellFormed lp) (hele : ele.length < 2 ^ 32) :
    AppendCorrect lp ele ↔ EnclenSuffices lp.length ele := by
  obtain ⟨xs, hxs⟩ := h
  have hend : Format lp (xs ++ ([] ++ [])) := by simpa using hxs
  rw [AppendCorrect, lpAppend_eq hxs, map_eq_none_iff, hxs.values_eq]
  simp only [map_eq_some_iff, Prod.exists, exists_and_right, exists_eq_right,
    forall_exists_index]
  exact hend.insertAt_iff (.inl ⟨rfl, rfl⟩) rfl hele fun lp' hformat hvalues =>
    ⟨⟨_, hformat⟩, hvalues⟩

theorem lpDelete_eq (lp : Bytes) (p : Nat) : lpDelete lp p = lpInsertAt lp none p .replace := by
  simp [lpDelete, lpInsert]

theorem deleteCorrect_of_wellFormed (h : WellFormed lp) (hk : k < (values lp).length) :
    DeleteCorrect lp k := by
  obtain ⟨xs, hxs⟩ := h
  rw [hxs.values_eq, length_map] at hk
  obtain ⟨v, hx⟩ := hxs.valid xs[k] (getElem_mem hk)
  have hsplit : xs = xs.take k ++ ([xs[k]] ++ xs.drop (k + 1)) := by simp
  have hcount := hxs.numElements
  have hnum := hxs.num_lt
  have hpost : Valid (xs.drop (k + 1)) := fun y hy => hxs.valid y (mem_of_mem_drop hy)
  have hvalid : Valid (xs.take k ++ xs.drop (k + 1)) := by
    intro y hy
    rcases mem_append.mp hy with hpre | hrest
    · exact hxs.valid y (mem_of_mem_take hpre)
    · exact hpost y hrest
  have hsize := hxs.size_lt
  have hsize' : (body (xs.take k ++ ([xs[k]] ++ xs.drop (k + 1)))).length + 7 < 2 ^ 32 := by
    rwa [← hsplit]
  have hdel := lpInsertAt_none hx hpost hnum (by rw [lpHdrNumeleUnknown] at hcount; omega) hsize'
  rw [← hsplit, ← hxs.eq_layout, ← hxs.elementOffset_eq (by omega), ← lpDelete_eq] at hdel
  have hformat : Format (layoutBytes (xs.take k ++ xs.drop (k + 1)) (countPred (lpGetNumElements lp)))
      (xs.take k ++ xs.drop (k + 1)) := by
    apply format_layout hvalid
    · simp only [body_append, length_append] at hsize' ⊢
      omega
    · rw [countPred]
      split_ifs <;> omega
    · rw [countPred, lpHdrNumeleUnknown, length_append, length_take, length_drop]
      rw [lpHdrNumeleUnknown] at hcount
      split_ifs <;> omega
  refine ⟨_, _, hdel, ⟨_, hformat⟩, ?_, ?_⟩
  · rw [hformat.values_eq, hxs.values_eq, eraseIdx_eq_take_drop_succ, map_append,
      map_take, map_drop]
  · rw [hformat.elementOffset_eq (by simp; omega), hxs.elementOffset_eq (by omega), hxs.values_eq,
      length_map, take_append_of_le_length (by simp; omega), take_take, Nat.min_self]
    split_ifs with hnil hlast
    · rw [drop_eq_nil_iff] at hnil
      omega
    · rfl
    · rfl
    · rw [drop_eq_nil_iff] at hnil
      omega

/-- Insertion before, after and in the place of any element, and appending, are
correct for exactly the strings whose encoded length the code computes right, up
to listpacks that are too large anyway. Deletion always is. -/
theorem listpack_refines_list_iff (h : WellFormed lp) :
    (∀ k ele w, k < (values lp).length → ele.length < 2 ^ 32 →
      (InsertCorrect lp k ele w ↔ EnclenSuffices (keptBytes lp k w) ele)) ∧
    (∀ ele, ele.length < 2 ^ 32 → (AppendCorrect lp ele ↔ EnclenSuffices lp.length ele)) ∧
    ∀ k, k < (values lp).length → DeleteCorrect lp k :=
  ⟨fun _ _ w hk hele => insertCorrect_iff h hk w hele, fun _ hele => appendCorrect_iff h hele,
    fun _ hk => deleteCorrect_of_wellFormed h hk⟩

theorem lpNew_wellFormed : WellFormed lpNew :=
  ⟨[], format_layout (fun _ hx => absurd hx not_mem_nil) (by decide) (by decide) (.inl rfl)⟩

/-- What `hi` and 7 are appended to one after the other. -/
theorem twoElements_wellFormed : WellFormed [13, 0, 0, 0, 2, 0, 130, 104, 105, 3, 7, 1, 255] := by
  have happend : ∀ lp ele lp', WellFormed lp → 5 + ele.length < 2 ^ 32 →
      lpAppend lp ele = some lp' → WellFormed lp' := fun lp ele lp' h hele hlp =>
    (((appendCorrect_iff h (by omega)).mpr (.inl hele)).2 lp' hlp).1
  have hone : WellFormed [11, 0, 0, 0, 1, 0, 130, 104, 105, 3, 255] :=
    happend lpNew [104, 105] _ lpNew_wellFormed (by decide) (by decide)
  exact happend _ [55] _ hone (by decide) (by decide)

theorem listpack_refines_list_iff_two :
    let lp := [13, 0, 0, 0, 2, 0, 130, 104, 105, 3, 7, 1, 255]
    values lp = [[104, 105], [55]] ∧ InsertCorrect lp 1 [49, 50] .replace ∧ DeleteCorrect lp 0 := by
  obtain ⟨hinsert, -, hdelete⟩ := listpack_refines_list_iff twoElements_wellFormed
  exact ⟨by decide, (hinsert 1 [49, 50] .replace (by decide) (by decide)).mpr (.inl (by decide)),
    hdelete 0 (by decide)⟩

/-- The length of a string of 4294967291 bytes is taken for zero: it is accepted
into an empty listpack, although with it the listpack has more than 4 GB. -/
theorem lpAppend_accepts_wrapped_length :
    (List.replicate (2 ^ 32 - 5) (97 : UInt8)).length < 2 ^ 32 ∧
      uint32Max < lpNew.length + (entry (encodeElement (List.replicate (2 ^ 32 - 5) 97))).length ∧
      lpAppend lpNew (List.replicate (2 ^ 32 - 5) 97) ≠ none := by
  have hlen : (List.replicate (2 ^ 32 - 5) (97 : UInt8)).length = 2 ^ 32 - 5 :=
    length_replicate
  generalize List.replicate (2 ^ 32 - 5) (97 : UInt8) = ele at hlen ⊢
  have hbig := entry_wraps (show 2 ^ 32 ≤ 5 + ele.length by omega)
  refine ⟨by omega, by omega, ?_⟩
  obtain ⟨xs, hxs⟩ := lpNew_wellFormed
  rw [lpAppend_eq hxs, ne_eq, Option.map_eq_none_iff, lpInsertAt_wraps lpNew .before (by omega) (by omega),
    hlen, replacedLen_before]
  decide

end Operations

end Redis.Listpack
