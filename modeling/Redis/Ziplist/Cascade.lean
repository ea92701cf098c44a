import Redis.Ziplist.Layout

/-! Resizing a ziplist and the chain of updates of `__ziplistCascadeUpdate`. -/
namespace Redis.Ziplist

open ByteBuffer List

variable {es : List Entry} {a : Bytes}

/-- Growing keeps the contents, and the old end marker is still in place. -/
theorem ziplistResize_grow {a b c n : Nat} {d : Bytes} (hn : n < 2 ^ 32) (hle : d.length + 11 ≤ n) :
    ∃ pad, pad.length = n - (d.length + 11) ∧ byteAt (pad ++ [255]) 0 = zipEnd ∧
      ziplistResize (header a b c ++ d ++ [255]) n = header n b c ++ d ++ pad ++ [255] := by
  have hmod : n % 2 ^ 32 = n := Nat.mod_eq_of_lt hn
  have hlen : (header a b c ++ d ++ [255]).length = d.length + 11 := by
    simp
    omega
  have hset : setZiplistBytes (realloc (header a b c ++ d ++ [255]) n) n =
      header n b c ++ d ++ ([255] ++ replicate (n - (d.length + 11)) 0) := by
    rw [realloc_of_le (by omega), hlen]
    simp only [append_assoc]
    rw [setZiplistBytes_header]
  rw [ziplistResize, hmod, hset]
  cases hk : n - (d.length + 11) with
  | zero =>
    refine ⟨[], rfl, rfl, ?_⟩
    have h := store_append (a := header n b c ++ d) (x := [255]) (b := []) (y := [255])
      (i := n - 1) (by simp; omega) rfl
    simpa using h
  | succ k =>
    refine ⟨255 :: replicate k 0, by simp, rfl, ?_⟩
    have h := store_append (a := header n b c ++ d ++ 255 :: replicate k 0) (x := [0])
      (b := []) (y := [255]) (i := n - 1) (by simp; omega) rfl
    rw [append_nil, append_nil] at h
    rw [← h, replicate_succ']
    simp

/-- Shrinking cuts the contents off and puts the end marker in place. -/
theorem ziplistResize_cut {a b c n : Nat} {d junk : Bytes} (hn : n < 2 ^ 32)
    (hd : d.length + 11 = n) (hjunk : 0 < junk.length) :
    ziplistResize (header a b c ++ d ++ junk) n = header n b c ++ d ++ [255] := by
  obtain ⟨x, rest, rfl⟩ := exists_cons_of_length_pos hjunk
  have hmod : n % 2 ^ 32 = n := Nat.mod_eq_of_lt hn
  have hrealloc : realloc (header a b c ++ d ++ x :: rest) n = header a b c ++ (d ++ [x]) := by
    have hsub : n - (header a b c ++ d ++ x :: rest).length = 0 := by
      simp
      omega
    have htake : (header a b c ++ d ++ x :: rest).take n = header a b c ++ (d ++ [x]) := by
      have happ : header a b c ++ d ++ x :: rest = (header a b c ++ (d ++ [x])) ++ rest := by simp
      rw [happ]
      exact take_left' (by simp; omega)
    rw [realloc, hsub, htake]
    simp
  have h := store_append (a := header n b c ++ d) (x := [x]) (b := []) (y := [255])
    (i := n - 1) (by simp; omega) rfl
  rw [ziplistResize, hmod, hrealloc, setZiplistBytes_header]
  simpa using h

/-- The entries after one whose size became `prev`: a one-byte field that is
too small grows, and then the next entry is looked at. -/
def grow : Nat → List Entry → List Entry
  | _, [] => []
  | prev, e :: es =>
    if e.big = false ∧ zipBigPrevlen ≤ prev then
      { e with big := true } :: grow (e.size + 4) es
    else e :: es

theorem size_setBig (e : Entry) (h : e.big = false) : { e with big := true }.size = e.size + 4 := by
  simp [Entry.size, Entry.prevSize, h]
  omega

theorem grow_of_valid {prev : Nat} (h : ValidFrom prev es) : grow prev es = es := by
  cases es with
  | nil => rfl
  | cons e es =>
    rw [grow, if_neg]
    rintro ⟨hbig, hle⟩
    exact absurd (h.1 hbig) (by omega)

theorem total_grow_ge (prev : Nat) (es : List Entry) : total es ≤ total (grow prev es) := by
  induction es generalizing prev with
  | nil => exact le_refl _
  | cons e es ih =>
    rw [grow]
    split_ifs with h
    · have h' := ih (e.size + 4)
      rw [total_cons, total_cons, size_setBig e h.1]
      omega
    · exact le_refl _

@[simp] theorem grow_length (prev : Nat) (es : List Entry) :
    (grow prev es).length = es.length := by
  induction es generalizing prev with
  | nil => rfl
  | cons e es ih =>
    rw [grow]
    split_ifs
    · simp [ih]
    · rfl

/-- After growing, every field is wide enough. -/
theorem validFrom_grow {prev old : Nat} (h : ValidFrom old es) : ValidFrom prev (grow prev es) := by
  induction es generalizing prev old with
  | nil => trivial
  | cons e es ih =>
    rw [grow]
    split_ifs with hg
    · refine ⟨by simp [Entry.Fits], h.2.1, ?_⟩
      rw [size_setBig e hg.1]
      exact ih h.2.2
    · refine ⟨?_, h.2⟩
      intro hbig
      have hnot := not_and.mp hg hbig
      omega

theorem zipStorePrevEntryLength_eq (len : Nat) :
    zipStorePrevEntryLength len = prevField (decide (zipBigPrevlen ≤ len)) len := by
  rw [zipStorePrevEntryLength, prevField]
  by_cases h : len < zipBigPrevlen
  · simp [h]
  · simp [h, Nat.le_of_not_lt h]

/-- The tail offset moves unless it is the entry at `np` itself. -/
theorem bumpTail_header {n t c np extra : Nat} {rest : Bytes} (ht : t < 2 ^ 32) :
    (if ziplistTailOffset (header n t c ++ rest) ≠ np then
      setZiplistTailOffset (header n t c ++ rest)
        (ziplistTailOffset (header n t c ++ rest) + extra)
      else header n t c ++ rest) = header n (if t = np then t else t + extra) c ++ rest := by
  rw [ziplistTailOffset_header _ _ _ _ ht, setZiplistTailOffset_header]
  by_cases h : t = np
  · simp [h]
  · rw [if_pos h, if_neg h]

/-- Widening a one-byte `prevlen` field moves what is behind it by four bytes. -/
theorem widenPrevlen_spec (prev c : Nat) (a tl : Bytes) {n t cur p : Nat} (hn : n + 4 < 2 ^ 32)
    (ht : t + 4 < 2 ^ 32) (hlen : a.length + tl.length + 12 = n) (hp : p = 10 + a.length)
    (hcur : zipBigPrevlen ≤ cur) :
    widenPrevlen (header n t c ++ (a ++ prevField false prev ++ tl) ++ [255]) n p 1 cur =
      header (n + 4) (if t = p then t else t + 4) c ++ (a ++ prevField true cur ++ tl) ++ [255] := by
  obtain ⟨pad, hpad, _, hresize⟩ := ziplistResize_grow (a := n) (b := t) (c := c)
    (d := a ++ prevField false prev ++ tl) hn (by simp; omega)
  simp only [length_append, prevField_length, Bool.false_eq_true, if_false] at hpad
  have hfield : zipStorePrevEntryLength cur = prevField true cur := by
    rw [zipStorePrevEntryLength_eq, decide_eq_true hcur]
  simp only [widenPrevlen, hfield, prevField_length, if_true, Nat.reduceSub, hresize]
  have hassoc : header (n + 4) t c ++ (a ++ prevField false prev ++ tl) ++ pad ++ [255] =
      header (n + 4) t c ++ (a ++ prevField false prev ++ tl ++ pad ++ [255]) := by simp
  rw [hassoc, bumpTail_header (by omega)]
  generalize hH : header (n + 4) (if t = p then t else t + 4) c = hd
  have hHlen : hd.length = 10 := by rw [← hH, header_length]
  -- the block behind the field moves back by four bytes
  have hread : ((hd ++ (a ++ prevField false prev ++ tl ++ pad ++ [255])).drop (p + 1)).take
      (n - p - 1 - 1) = tl := by
    obtain ⟨w, hw, hblock⟩ := take_drop_block (p := hd ++ a ++ prevField false prev) (t := tl)
      (r := pad ++ [255]) (k := 0) (show p + 1 + 0 = _ by simp; omega)
    rw [length_eq_zero_iff.mp hw] at hblock
    have hcount : n - p - 1 - 1 = 0 + tl.length := by omega
    rw [hcount]
    simpa using hblock
  rw [memmove, hread]
  have hmove := store_gap (p := hd ++ a) (q := prevField false prev ++ tl ++ pad) (z := [255])
    (y := tl) (i := p + 5) (g := 5) (by simp; omega) (by simp; omega)
  have hstore := store_append (a := hd ++ a) (x := (prevField false prev ++ tl ++ pad).take 5)
    (b := tl ++ [255]) (y := prevField true cur) (i := p) (by simp; omega) (by simp; omega)
  have hmove' : store (hd ++ (a ++ prevField false prev ++ tl ++ pad ++ [255])) (p + 5) tl =
      hd ++ a ++ (prevField false prev ++ tl ++ pad).take 5 ++ (tl ++ [255]) := by
    simpa using hmove
  rw [hmove', hstore]
  simp

theorem zipStorePrevEntryLength_length (len : Nat) :
    (zipStorePrevEntryLength len).length = if zipBigPrevlen ≤ len then 5 else 1 := by
  rw [zipStorePrevEntryLength_eq, prevField_length]
  by_cases h : zipBigPrevlen ≤ len <;> simp [h]

/-- A ziplist in the middle of a cascade. The parts before `cur` are settled,
and the entries behind it still carry the old size of `cur`. -/
def cascadeState (a : Bytes) (cur : Entry) (pv old : Nat) (rest : List Entry) (c : Nat) : Bytes :=
  header (11 + a.length + total (cur :: rest)) (10 + a.length + backSize (cur :: rest)) c ++
    (a ++ (cur.bytes pv ++ encodeFrom old rest)) ++ [255]

/-- Every ziplist with an entry is of this form, with nothing to settle. -/
theorem layoutBytes_eq_state (pre : List Entry) (e : Entry) (rest : List Entry) (c : Nat) :
    layoutBytes (pre ++ e :: rest) c =
      cascadeState (encodeFrom 0 pre) e (lastSize 0 pre) e.size rest c := by
  have htotal : total (pre ++ e :: rest) + 11 =
      11 + (encodeFrom 0 pre).length + total (e :: rest) := by
    rw [total_append, encodeFrom_length]
    omega
  rw [layoutBytes_append, htotal, tailOffset, backSize_append, ziplistHeaderSize, ← add_assoc,
    cascadeState, encodeFrom_length, encodeFrom]

section State

variable {cur : Entry} {pv old c : Nat} {rest : List Entry}

theorem cascadeState_drop : (cascadeState a cur pv old rest c).drop (10 + a.length) =
    cur.bytes pv ++ (encodeFrom old rest ++ [255]) := by
  rw [cascadeState, drop_part (by simp), append_assoc]

theorem cascadeState_head (hpv : cur.Fits pv) :
    byteAt (cascadeState a cur pv old rest c) (10 + a.length) ≠ zipEnd := by
  have h := Entry.head_ne_end hpv (encodeFrom old rest ++ [255])
  rwa [← cascadeState_drop, byteAt_drop] at h

theorem cascadeState_next : (cascadeState a cur pv old rest c).drop (10 + a.length + cur.size) =
    encodeFrom old rest ++ [255] := by
  rw [← drop_drop, cascadeState_drop, drop_left' (Entry.bytes_length cur pv)]

theorem cascadeState_bytes (hsize : 11 + a.length + total (cur :: rest) < 2 ^ 32) :
    ziplistBytes (cascadeState a cur pv old rest c) = 11 + a.length + total (cur :: rest) := by
  rw [cascadeState, append_assoc, ziplistBytes_header _ _ _ _ hsize]

end State

/-- Storing a new size in the field of the entry behind `cur`. -/
theorem cascadeState_store {cur e : Entry} {pv old new c np : Nat}
    (hnp : np = 10 + a.length + cur.size) :
    store (cascadeState a cur pv old (e :: es) c) np (prevField e.big new) =
      cascadeState a cur pv new (e :: es) c := by
  have h := store_append
    (a := header (11 + a.length + total (cur :: e :: es))
      (10 + a.length + backSize (cur :: e :: es)) c ++ a ++ cur.bytes pv)
    (x := prevField e.big old) (b := e.body ++ encodeFrom e.size es ++ [255])
    (y := prevField e.big new) (i := np) (by simp; omega) (by simp)
  simpa [cascadeState, encodeFrom, Entry.bytes] using h

/-- The entry behind `cur` is settled as well and becomes the current one. -/
theorem cascadeState_shift (a : Bytes) (cur e : Entry) (pv new c : Nat) (es : List Entry) :
    cascadeState (a ++ cur.bytes pv) e new e.size es c = cascadeState a cur pv new (e :: es) c := by
  have htotal : 11 + (a ++ cur.bytes pv).length + total (e :: es) =
      11 + a.length + total (cur :: e :: es) := by
    simp
    omega
  have hback : 10 + (a ++ cur.bytes pv).length + backSize (e :: es) =
      10 + a.length + backSize (cur :: e :: es) := by
    simp
    omega
  rw [cascadeState, cascadeState, htotal, hback, encodeFrom]
  simp

theorem Entry.size_pos (e : Entry) : 0 < e.size := by
  rw [Entry.size, Entry.prevSize]
  split_ifs <;> omega

/-- Widening the field of the entry behind `cur` makes that entry current. -/
theorem cascadeState_widen {cur e : Entry} {pv old c : Nat} (he : e.big = false)
    (hcur : zipBigPrevlen ≤ cur.size)
    (hsize : 11 + a.length + cur.size + e.size + total es + 4 < 2 ^ 32) :
    widenPrevlen (cascadeState a cur pv old (e :: es) c) (11 + a.length + total (cur :: e :: es))
        (10 + a.length + cur.size) 1 cur.size =
      cascadeState (a ++ cur.bytes pv) { e with big := true } cur.size e.size es c := by
  have hback := backSize_le (e :: es)
  have hbytes : e.size = 1 + e.body.length := by simp [Entry.size, Entry.prevSize, he]
  have h := widenPrevlen_spec old c (a ++ cur.bytes pv) (e.body ++ encodeFrom e.size es)
    (n := 11 + a.length + total (cur :: e :: es)) (t := 10 + a.length + backSize (cur :: e :: es))
    (p := 10 + a.length + cur.size)
    (by simp; omega) (by simp at hback ⊢; omega) (by simp; omega) (by simp; omega) hcur
  have htail : (if 10 + a.length + backSize (cur :: e :: es) = 10 + a.length + cur.size then
      10 + a.length + backSize (cur :: e :: es)
      else 10 + a.length + backSize (cur :: e :: es) + 4) =
      10 + (a ++ cur.bytes pv).length + backSize ({ e with big := true } :: es) := by
    cases es with
    | nil =>
      simp
      omega
    | cons e' es =>
      rw [backSize_cons_cons, backSize_cons_cons, backSize_cons_cons, size_setBig e he,
        if_neg (by omega)]
      simp
      omega
  have htotal : 11 + a.length + total (cur :: e :: es) + 4 =
      11 + (a ++ cur.bytes pv).length + total ({ e with big := true } :: es) := by
    rw [total_cons, total_cons, total_cons, size_setBig e he]
    simp
    omega
  rw [htail, htotal] at h
  rw [cascadeState, encodeFrom, Entry.bytes, Entry.bytes, he]
  rw [cascadeState, Entry.bytes]
  simpa [Entry.bytes] using h

/-- What is stored in a field that is wide enough. -/
theorem field_kept {e : Entry} {size : Nat} (hgrow : ¬ (e.big = false ∧ zipBigPrevlen ≤ size)) :
    ¬ e.prevSize < (if zipBigPrevlen ≤ size then 5 else 1) ∧ ∀ (m : Bytes) (i : Nat),
      (if e.prevSize > if zipBigPrevlen ≤ size then 5 else 1 then
        store m i (zipStorePrevEntryLengthLarge size)
        else store m i (zipStorePrevEntryLength size)) = store m i (prevField e.big size) := by
  rw [zipStorePrevEntryLength_eq, Entry.prevSize]
  cases hb : e.big with
  | true => by_cases hle : zipBigPrevlen ≤ size <;> simp [hle, prevField]
  | false =>
    have hlt : ¬ zipBigPrevlen ≤ size := fun hle => hgrow ⟨hb, hle⟩
    simp [hlt]

/-- The loop settles every entry behind `cur`. -/
theorem cascadeLoop_spec {rest : List Entry} {cur : Entry} {fuel pv old c : Nat} (hpv : cur.Fits pv)
    (hpv' : pv < 2 ^ 32) (hbody : BodyOk cur.body) (hvalid : ValidFrom old rest)
    (hold : old < 2 ^ 32) (hsize : 11 + a.length + cur.size + total (grow cur.size rest) < 2 ^ 32)
    (hfuel : rest.length < fuel) :
    cascadeLoop fuel (cascadeState a cur pv old rest c) (11 + a.length + total (cur :: rest))
        (10 + a.length) =
      cascadeState a cur pv cur.size (grow cur.size rest) c := by
  induction rest generalizing cur fuel pv old a with
  | nil =>
    obtain ⟨fuel, rfl⟩ := Nat.exists_eq_succ_of_ne_zero (by omega : fuel ≠ 0)
    have hend : byteAt (cascadeState a cur pv old [] c) (10 + a.length + cur.size) = zipEnd := by
      rw [← add_zero (10 + a.length + cur.size), ← byteAt_drop, cascadeState_next]
      rfl
    rw [cascadeLoop, if_neg (cascadeState_head hpv)]
    simp only [cascadeState_drop, Entry.zipEntry_eq hpv hpv' hbody, Entry.size_eq hbody, if_pos hend]
    rfl
  | cons e es ih =>
    obtain ⟨fuel, rfl⟩ := Nat.exists_eq_succ_of_ne_zero (by omega : fuel ≠ 0)
    obtain ⟨hfits, hbody', hvalid'⟩ := hvalid
    have hnext : (cascadeState a cur pv old (e :: es) c).drop (10 + a.length + cur.size) =
        e.bytes old ++ (encodeFrom e.size es ++ [255]) := by
      rw [cascadeState_next, encodeFrom, append_assoc]
    have hmore : byteAt (cascadeState a cur pv old (e :: es) c) (10 + a.length + cur.size) ≠
        zipEnd := by
      have h := Entry.head_ne_end hfits (encodeFrom e.size es ++ [255])
      rwa [← hnext, byteAt_drop] at h
    rw [cascadeLoop, if_neg (cascadeState_head hpv)]
    simp only [cascadeState_drop, Entry.zipEntry_eq hpv hpv' hbody, Entry.size_eq hbody, if_neg hmore,
      hnext, Entry.zipEntry_eq hfits hold hbody', zipStorePrevEntryLength_length]
    by_cases hsame : old = cur.size
    · subst hsame
      have hsettled : ValidFrom cur.size (e :: es) := ⟨hfits, hbody', hvalid'⟩
      rw [if_pos rfl, grow_of_valid hsettled]
    · rw [if_neg hsame]
      by_cases hgrow : e.big = false ∧ zipBigPrevlen ≤ cur.size
      · obtain ⟨hbig, hle⟩ := hgrow
        have hprev : e.prevSize = 1 := by simp [Entry.prevSize, hbig]
        rw [grow, if_pos ⟨hbig, hle⟩, total_cons, size_setBig e hbig] at hsize
        have hmono := total_grow_ge (e.size + 4) es
        rw [hprev, if_pos hle, if_pos (by norm_num), cascadeState_widen hbig hle (by omega),
          grow, if_pos ⟨hbig, hle⟩, ← cascadeState_shift, size_setBig e hbig]
        have hih := ih (a := a ++ cur.bytes pv) (show Entry.Fits { e with big := true } cur.size by
          simp [Entry.Fits]) (by omega) hbody' hvalid' (by omega)
          (by rw [size_setBig e hbig]; simp; omega) (show es.length < fuel by simpa using hfuel)
        have hlen : 11 + (a ++ cur.bytes pv).length + total ({ e with big := true } :: es) =
            11 + a.length + total (cur :: e :: es) + (5 - 1) := by
          rw [total_cons, total_cons, total_cons, size_setBig e hbig]
          simp
          omega
        have hpos : 10 + (a ++ cur.bytes pv).length = 10 + a.length + cur.size := by
          simp
          omega
        rwa [hlen, hpos, size_setBig e hbig] at hih
      · obtain ⟨hsmall, hstored⟩ := field_kept hgrow
        rw [if_neg hsmall, hstored, grow, if_neg hgrow]
        exact cascadeState_store rfl

theorem length_le_total (es : List Entry) : es.length ≤ total es := by
  induction es with
  | nil => exact le_refl _
  | cons e es ih =>
    have hpos := e.size_pos
    rw [length_cons, total_cons]
    omega

theorem ziplistCascadeUpdate_spec {rest : List Entry} {cur : Entry} {pv old c : Nat}
    (hpv : cur.Fits pv) (hpv' : pv < 2 ^ 32) (hbody : BodyOk cur.body) (hvalid : ValidFrom old rest)
    (hold : old < 2 ^ 32) (hsize : 11 + a.length + cur.size + total (grow cur.size rest) < 2 ^ 32) :
    ziplistCascadeUpdate (cascadeState a cur pv old rest c) (10 + a.length) =
      cascadeState a cur pv cur.size (grow cur.size rest) c := by
  have hmono := total_grow_ge cur.size rest
  have hbytes : 11 + a.length + total (cur :: rest) < 2 ^ 32 := by
    rw [total_cons]
    omega
  have hfuel : rest.length < (cascadeState a cur pv old rest c).length := by
    have hle := length_le_total rest
    simp [cascadeState]
    omega
  rw [ziplistCascadeUpdate, cascadeState_bytes hbytes]
  exact cascadeLoop_spec hpv hpv' hbody hvalid hold hsize hfuel

end Redis.Ziplist
