import Redis.Ziplist.Cascade
import Redis.Ziplist.Encoding

/-! `__ziplistInsert` on a well-formed ziplist writes the layout with one more
entry. The entry that follows gets a field of the width its new predecessor
needs, except that a wide field stays when the new entry is too short to pay for
the move; the cascade does the rest. -/
namespace Redis.Ziplist

open ByteBuffer List

variable {e : Entry} {s : Bytes} {c : Nat} {d : Int} {force : Bool}
variable {a : Bytes} {diff : Int} {post pre rest : List Entry} {b n p prev req : Nat}

/-- The entry written for `s` behind an entry of `prev` bytes. -/
def newEntry (prev : Nat) (s : Bytes) : Entry :=
  { big := decide (zipBigPrevlen ≤ prev), body := encodeBody s }

/-- The entry behind a new one of `size` bytes. -/
def nextEntry (size : Nat) (e : Entry) : Entry :=
  { e with big := decide (zipBigPrevlen ≤ size) || (e.big && decide (size < 4)) }

/-- The entries from the insertion point on. -/
def insertEntries (prev : Nat) (s : Bytes) : List Entry → List Entry
  | [] => [newEntry prev s]
  | e :: rest =>
    let n := newEntry prev s
    let e' := nextEntry n.size e
    n :: e' :: grow e'.size rest

/-- The layout with `s` inserted between two parts. -/
def insertLayout (pre post : List Entry) (s : Bytes) : List Entry :=
  pre ++ insertEntries (lastSize 0 pre) s post

/-- The size of the entry before the insertion point. -/
theorem prevlenAt_layout (hvalid : ValidFrom 0 (pre ++ post))
    (hsize : total (pre ++ post) + 11 < 2 ^ 32) :
    prevlenAt (layoutBytes (pre ++ post) c) (10 + total pre) = lastSize 0 pre := by
  rw [prevlenAt]
  cases post with
  | cons e rest => rw [if_pos (layout_entry hvalid), layout_prevlen hvalid hsize]
  | nil =>
    rw [if_neg (not_not.mpr (layout_end pre c)), layout_tail hsize]
    rcases eq_nil_or_concat pre with rfl | ⟨front, last, rfl⟩
    · exact if_neg (not_not.mpr (layout_end [] c))
    · simp only [append_nil, concat_eq_append] at hvalid ⊢
      rw [tailOffset_concat, if_pos (layout_entry hvalid), layout_rawlen hvalid, lastSize_append]
      rfl

/-- Adding the change in size of an entry to the tail offset, unless that entry is the
last one. The sum is a 32-bit word, so an intermediate overflow does no harm. -/
theorem adjustTail_spec {c pv : Nat} {e' : Entry}
    (hfits : e'.Fits pv) (hpv : pv < 2 ^ 32) (hbody : BodyOk e'.body) (hvalid : ValidFrom e.size rest)
    (hsize : (e'.size : Int) = e.size + d) (hlt : b + total (e' :: rest) < 2 ^ 32) :
    adjustTail (header n (b + backSize (e :: rest)) c ++
        (a ++ (e'.bytes pv ++ encodeFrom e.size rest)) ++ [255]) (10 + a.length) d =
      header n (b + backSize (e' :: rest)) c ++
        (a ++ (e'.bytes pv ++ encodeFrom e.size rest)) ++ [255] := by
  generalize hzl : header n (b + backSize (e :: rest)) c ++
    (a ++ (e'.bytes pv ++ encodeFrom e.size rest)) ++ [255] = zl
  have hdrop : zl.drop (10 + a.length) = e'.bytes pv ++ (encodeFrom e.size rest ++ [255]) := by
    rw [← hzl, drop_part (by simp), append_assoc]
  have hbehind : byteAt zl (10 + a.length + e'.size) = byteAt (encodeFrom e.size rest ++ [255]) 0 := by
    have h := byteAt_append (e'.bytes pv) (encodeFrom e.size rest ++ [255]) 0
    rwa [← hdrop, byteAt_drop, Entry.bytes_length, add_zero] at h
  simp only [adjustTail, hdrop, Entry.zipEntry_eq hfits hpv hbody]
  rw [add_assoc (10 + a.length), Entry.size_eq hbody, hbehind, ← hzl]
  cases rest with
  | nil => rw [if_neg (by simp [encodeFrom, zipEnd]), backSize_singleton, backSize_singleton]
  | cons r rs =>
    have hne : byteAt (encodeFrom e.size (r :: rs) ++ [255]) 0 ≠ zipEnd := by
      rw [encodeFrom, append_assoc]
      exact Entry.head_ne_end hvalid.1 _
    have hback := backSize_le (r :: rs)
    rw [total_cons] at hlt
    rw [if_pos hne, append_assoc, ziplistTailOffset_header_mod, setZiplistTailOffset_header,
      ← append_assoc]
    congr 3
    rw [backSize_cons_cons, backSize_cons_cons]
    omega

/-- Moving the bytes from the insertion point on by `req`, and storing the new
predecessor's size in the field that comes first. -/
theorem shift_store (hd a f tl pad nf : Bytes) (req : Nat) (hhd : hd.length = 10)
    (hp : p = 10 + a.length) (hd' : (nf.length : Int) = f.length + d)
    (hpad : pad.length + f.length = req + nf.length) (hn : n = 11 + a.length + f.length + tl.length)
    (hnf : nf.length ≤ 10 + f.length) :
    ∃ gap : Bytes, gap.length = req ∧
      store (memmove (hd ++ (a ++ (f ++ tl) ++ pad) ++ [255]) (p + req) (p - d).toNat
        (n - p - 1 + d).toNat) (p + req) nf = hd ++ (a ++ gap ++ (nf ++ tl)) ++ [255] := by
  have hsrc : (p - d).toNat + nf.length = (hd ++ a ++ f).length := by
    simp only [length_append]
    omega
  have hcount : (n - p - 1 + d).toNat = nf.length + tl.length := by omega
  obtain ⟨w, hw, hblock⟩ := take_drop_block (p := hd ++ a ++ f) (t := tl) (r := pad ++ [255]) hsrc
  have hread : ((hd ++ (a ++ (f ++ tl) ++ pad) ++ [255]).drop (p - d).toNat).take
      (n - p - 1 + d).toNat = w ++ tl := by
    rw [hcount, ← hblock]
    simp
  have hgap := store_gap (p := hd ++ a) (q := f ++ tl ++ pad) (z := [255]) (y := nf ++ tl)
    (i := p + req) (g := req) (by simp; omega) (by simp; omega)
  refine ⟨(f ++ tl ++ pad).take req, by simp; omega, ?_⟩
  rw [memmove, hread, store_store_prefix (by simp; omega) hw.symm]
  simpa using hgap

/-- The space `__ziplistInsert` asks for is the size of the new entry. -/
theorem newEntry_size (prev : Nat) (s : Bytes) :
    (valueData s).length + (zipStorePrevEntryLength prev).length + (valueHeader s).length =
      (newEntry prev s).size := by
  rw [Entry.size, Entry.prevSize, newEntry, encodeBody_length, zipStorePrevEntryLength_length]
  by_cases h : zipBigPrevlen ≤ prev <;> simp [h] <;> omega

/-- `__ziplistInsert` with its lengths in terms of the entry it writes. -/
theorem ziplistInsert_eq (zl : Bytes) (p : Nat) (s : Bytes) {nextdiff : Int}
    (hprev : prevlenAt zl p = prev) (hreq : (newEntry prev s).size = req)
    (hdiff : (if byteAt zl p ≠ zipEnd then zipPrevLenByteDiff (zl.drop p) req else 0) = diff)
    (hforce : decide (diff = -4 ∧ req < 4) = force) (hnext : (if force then 0 else diff) = nextdiff) :
    ziplistInsert zl p s =
      let room := makeRoom (ziplistResize zl (ziplistBytes zl + req + nextdiff).toNat) p
        (ziplistBytes zl) req nextdiff force
      let settled := if nextdiff ≠ 0 then ziplistCascadeUpdate room (p + req) else room
      ziplistIncrLength (writeEntry settled p prev (valueHeader s) (valueData s)) 1 := by
  subst hprev hreq hdiff hforce hnext
  rw [← newEntry_size, ← valueData_length]
  rfl

variable (size : Nat)

theorem nextEntry_fits (e : Entry) : (nextEntry size e).Fits size := by
  intro h
  have hlt : ¬ zipBigPrevlen ≤ size := by
    simp [nextEntry] at h
    omega
  omega

/-- How `nextdiff` and `forcelarge` choose the width of the next field. -/
theorem nextEntry_width (e : Entry)
    (hdiff : ((zipStorePrevEntryLength size).length : Int) - e.prevSize = diff)
    (hforce : decide (diff = -4 ∧ size < 4) = force) :
    (if force then 0 else diff) = ((nextEntry size e).prevSize : Int) - e.prevSize ∧
      (if force then zipStorePrevEntryLengthLarge size else zipStorePrevEntryLength size) =
        prevField (nextEntry size e).big size := by
  subst hdiff hforce
  rw [zipStorePrevEntryLength_length, zipStorePrevEntryLength_eq]
  cases hb : e.big <;> by_cases hs : zipBigPrevlen ≤ size <;> by_cases h4 : size < 4 <;>
    simp [nextEntry, Entry.prevSize, prevField, hb, hs, h4]

/-- A field is only narrowed for an entry that is long enough to pay for it. -/
theorem nextEntry_room (e : Entry) : e.size ≤ (nextEntry size e).size + size := by
  have hbody : (nextEntry size e).body = e.body := rfl
  have hbounds := (nextEntry size e).prevSize_bounds
  rw [Entry.size, Entry.size, hbody]
  by_cases h4 : size < 4
  · have hle : e.prevSize ≤ (nextEntry size e).prevSize := by
      cases hb : e.big <;> simp [Entry.prevSize, nextEntry, hb, h4]
      split_ifs <;> omega
    omega
  · have hle := e.prevSize_bounds
    omega

/-- Room for the new entry: the bytes behind it are those of the layout that
still has to be settled, and the gap is filled in later. -/
theorem makeRoom_state {c old : Nat}
    (hfits : e.Fits old) (hbody : BodyOk e.body) (hrest : ValidFrom e.size rest)
    (hn : n = 11 + a.length + total (e :: rest))
    (hdiff : ((zipStorePrevEntryLength req).length : Int) - e.prevSize = diff)
    (hforce : decide (diff = -4 ∧ req < 4) = force)
    (hsize : 11 + a.length + req + total (nextEntry req e :: rest) < 2 ^ 32) :
    ∃ gap : Bytes, gap.length = req ∧
      makeRoom (ziplistResize (cascadeState a e old e.size rest c)
        (n + req + if force then 0 else diff).toNat) (10 + a.length) n req
        (if force then 0 else diff) force =
      cascadeState (a ++ gap) (nextEntry req e) req e.size rest c := by
  obtain ⟨hwidth, hfield⟩ := nextEntry_width req e hdiff hforce
  have hroom := nextEntry_room req e
  have hfits' := nextEntry_fits req e
  have hbody' : (nextEntry req e).body = e.body := rfl
  have hnext := Entry.size_of_body hbody'
  rw [hwidth]
  generalize nextEntry req e = e' at *
  have hback := backSize_le (e :: rest)
  have hbounds := e'.prevSize_bounds
  have hesize : e.size = e.prevSize + e.body.length := rfl
  rw [total_cons] at hsize hback
  -- the old contents, split at the field that is replaced
  generalize htl : e.body ++ encodeFrom e.size rest = tl
  have hlen : tl.length = e.body.length + total rest := by simp [← htl]
  have hbytes : e'.bytes req ++ encodeFrom e.size rest = prevField e'.big req ++ tl := by
    rw [Entry.bytes, hbody', append_assoc, htl]
  have hf : (prevField e.big old).length = e.prevSize := prevField_length _ _
  have hnf : (prevField e'.big req).length = e'.prevSize := prevField_length _ _
  have hcut : (n + req + ((e'.prevSize : Int) - e.prevSize)).toNat =
      11 + a.length + req + total (e' :: rest) := by
    rw [hn, total_cons, total_cons]
    omega
  obtain ⟨pad, hpad, _, hresize⟩ := ziplistResize_grow (a := 11 + a.length + total (e :: rest))
    (b := 10 + a.length + backSize (e :: rest)) (c := c) (d := a ++ (prevField e.big old ++ tl))
    (n := 11 + a.length + req + total (e' :: rest)) (by rw [total_cons]; omega)
    (by rw [total_cons]; simp only [length_append]; omega)
  simp only [length_append, total_cons] at hpad
  have hne : byteAt (header (11 + a.length + req + total (e' :: rest))
      (10 + a.length + backSize (e :: rest)) c ++ (a ++ (prevField e.big old ++ tl)) ++ pad ++ [255])
      (10 + a.length) ≠ zipEnd := by
    rw [append_assoc _ pad, ← add_zero (10 + _), ← byteAt_drop, drop_part (by simp),
      append_assoc]
    exact (prevField_head hfits _).1
  obtain ⟨gap, hgap, hshift⟩ := shift_store (header (11 + a.length + req + total (e' :: rest))
    (10 + a.length + backSize (e :: rest)) c) a (prevField e.big old) tl pad
    (prevField e'.big req) req (n := n) (p := 10 + a.length)
    (d := (e'.prevSize : Int) - e.prevSize) (by simp) rfl (by omega) (by omega)
    (by rw [hn, total_cons]; omega) (by omega)
  refine ⟨gap, hgap, ?_⟩
  have hite : ∀ (m : Bytes) (i : Nat) (x y : Bytes),
      (if force then store m i x else store m i y) = store m i (if force then x else y) := by
    intro m i x y
    split_ifs <;> rfl
  rw [hcut, cascadeState, Entry.bytes, append_assoc (prevField _ _), htl, hresize, makeRoom,
    if_pos hne, append_assoc _ _ pad]
  simp only [hite, hfield, hshift]
  have hpos : 10 + a.length + req = 10 + (a ++ gap).length := by
    rw [length_append, hgap, add_assoc]
  rw [append_assoc (header _ _ _), ziplistTailOffset_header _ _ _ _ (by omega),
    setZiplistTailOffset_header, ← append_assoc (header _ _ _), ← hbytes,
    add_right_comm (10 + a.length), hpos, adjustTail_spec hfits' (by omega) (hbody' ▸ hbody) hrest
      hnext (by rw [total_cons]; omega), cascadeState, add_assoc 11, ← hgap, ← length_append]

/-- The three stores fill the gap with the new entry. -/
theorem writeEntry_spec {hd gap z : Bytes} (hp : p = hd.length + a.length)
    (hgap : gap.length = (newEntry prev s).size) :
    writeEntry (hd ++ (a ++ gap ++ z) ++ [255]) p prev (valueHeader s) (valueData s) =
      hd ++ (a ++ (newEntry prev s).bytes prev ++ z) ++ [255] := by
  rw [← newEntry_size] at hgap
  obtain ⟨g1, g', rfl, hg1⟩ := exists_append_of_le
    (show (zipStorePrevEntryLength prev).length ≤ gap.length by omega)
  rw [length_append] at hgap
  obtain ⟨g2, g3, rfl, hg2⟩ := exists_append_of_le
    (show (valueHeader s).length ≤ g'.length by omega)
  rw [length_append] at hgap
  have h1 := store_append (a := hd ++ a) (x := g1) (b := g2 ++ g3 ++ z ++ [255])
    (y := zipStorePrevEntryLength prev) (i := p) (by simp [hp]) hg1.symm
  have h2 := store_append (a := hd ++ a ++ zipStorePrevEntryLength prev) (x := g2)
    (b := g3 ++ z ++ [255]) (y := valueHeader s) (i := p + (zipStorePrevEntryLength prev).length)
    (by simp [hp]; omega) hg2.symm
  have h3 := store_append (a := hd ++ a ++ zipStorePrevEntryLength prev ++ valueHeader s) (x := g3)
    (b := z ++ [255]) (y := valueData s)
    (i := p + (zipStorePrevEntryLength prev).length + (valueHeader s).length)
    (by simp [hp]; omega) (by omega)
  have hbytes : (newEntry prev s).bytes prev =
      zipStorePrevEntryLength prev ++ valueHeader s ++ valueData s := by
    rw [Entry.bytes, newEntry, zipStorePrevEntryLength_eq, encodeBody, append_assoc]
  simp only [append_assoc] at h1 h2 h3
  simp only [writeEntry, append_assoc, h1, h2, h3, hbytes]

theorem ziplistIncrLength_header {a c : Nat} (hc : c < 2 ^ 16) (rest : Bytes) (incr : Int) :
    ziplistIncrLength (header a b c ++ rest) incr =
      header a b (if c < uint16Max then ((c + incr) % 2 ^ 16).toNat else c) ++ rest := by
  rw [ziplistIncrLength, ziplistLength_header _ _ _ _ hc]
  split_ifs
  · rw [setZiplistLength_header]
  · rfl

/-- The count field after an insertion; it saturates. -/
def countSucc (c : Nat) : Nat := if c < uint16Max then c + 1 else c

theorem ziplistIncrLength_one {a c : Nat} (hc : c < 2 ^ 16) (rest : Bytes) :
    ziplistIncrLength (header a b c ++ rest) 1 = header a b (countSucc c) ++ rest := by
  rw [ziplistIncrLength_header hc, countSucc]
  congr 2
  split_ifs with h
  · rw [uint16Max] at h
    omega
  · rfl

/-- Insertion at the end. -/
theorem ziplistInsert_end {es : List Entry} (hvalid : ValidFrom 0 es) (hc : c < 2 ^ 16)
    (hsize : total (insertLayout es [] s) + 11 < 2 ^ 32) :
    ziplistInsert (layoutBytes es c) (10 + total es) s =
      layoutBytes (insertLayout es [] s) (countSucc c) := by
  have htotal : total (insertLayout es [] s) = total es + (newEntry (lastSize 0 es) s).size := by
    simp [insertLayout, insertEntries]
  rw [htotal] at hsize
  have hold : total es + 11 < 2 ^ 32 := by omega
  have hend := layout_end es c
  have hprev := prevlenAt_layout (c := c) (show ValidFrom 0 (es ++ []) by simpa using hvalid)
    (by simpa using hold)
  rw [append_nil] at hend hprev
  have hsmall : decide ((0 : Int) = -4 ∧ (newEntry (lastSize 0 es) s).size < 4) = false := by simp
  rw [ziplistInsert_eq (layoutBytes es c) (10 + total es) s hprev rfl
    (if_neg (not_not.mpr hend)) hsmall (if_neg Bool.false_ne_true)]
  obtain ⟨pad, hpad, hmark, hresize⟩ := ziplistResize_grow (a := total es + 11)
    (b := tailOffset es) (c := c) (d := encodeFrom 0 es)
    (n := total es + (newEntry (lastSize 0 es) s).size + 11) hsize (by simp)
  rw [encodeFrom_length] at hpad
  have hgap : pad.length = (newEntry (lastSize 0 es) s).size := by omega
  generalize hreq : (newEntry (lastSize 0 es) s).size = req at hgap hresize hpad hsize htotal
  have hcut : ((ziplistBytes (layoutBytes es c) : Int) + req + 0).toNat = total es + req + 11 := by
    rw [layout_bytes hold]
    omega
  have hroom : makeRoom (ziplistResize (layoutBytes es c) (total es + req + 11)) (10 + total es)
      (ziplistBytes (layoutBytes es c)) req 0 false =
      header (total es + req + 11) (10 + total es) c ++ (encodeFrom 0 es ++ pad ++ []) ++ [255] := by
    have hmark' : byteAt (header (total es + req + 11) (tailOffset es) c ++ encodeFrom 0 es ++ pad ++
        [255]) (10 + total es) = zipEnd := by
      rw [append_assoc _ pad, ← hmark, ← add_zero (10 + _), ← byteAt_drop, drop_left' (by simp)]
    rw [layoutBytes, hresize, makeRoom, if_neg (not_not.mpr hmark'), append_assoc,
      append_assoc, setZiplistTailOffset_header]
    simp
  have hlayout : layoutBytes (insertLayout es [] s) (countSucc c) =
      header (total es + req + 11) (10 + total es) (countSucc c) ++
        (encodeFrom 0 es ++ (newEntry (lastSize 0 es) s).bytes (lastSize 0 es) ++ []) ++ [255] := by
    rw [layoutBytes, htotal, insertLayout, insertEntries, tailOffset_concat, encodeFrom_append]
    simp [encodeFrom]
  simp only [hcut, hroom, ne_eq, not_true_eq_false, if_false]
  rw [writeEntry_spec (by simp) (by omega), append_assoc, ziplistIncrLength_one hc, hlayout,
    ← append_assoc]

theorem insertLayout_total_ge (pre post : List Entry) (s : Bytes) :
    total (pre ++ post) ≤ total (insertLayout pre post s) := by
  cases post with
  | nil => simp [insertLayout, insertEntries]
  | cons e rest =>
    have hroom := nextEntry_room (newEntry (lastSize 0 pre) s).size e
    have hgrow := total_grow_ge (nextEntry (newEntry (lastSize 0 pre) s).size e).size rest
    simp only [insertLayout, insertEntries, total_append, total_cons]
    omega

/-- Insertion before an entry. -/
theorem ziplistInsert_before (hvalid : ValidFrom 0 (pre ++ e :: rest))
    (hc : c < 2 ^ 16) (hsize : total (insertLayout pre (e :: rest) s) + 11 < 2 ^ 32) :
    ziplistInsert (layoutBytes (pre ++ e :: rest) c) (10 + total pre) s =
      layoutBytes (insertLayout pre (e :: rest) s) (countSucc c) := by
  have hge := insertLayout_total_ge pre (e :: rest) s
  obtain ⟨_, hfits, hbody, hrest⟩ := (validFrom_append 0 pre (e :: rest)).mp hvalid
  have hprev := prevlenAt_layout (c := c) hvalid (by omega)
  generalize hnew : newEntry (lastSize 0 pre) s = new
  generalize hreq : new.size = req
  generalize hpre : encodeFrom 0 pre = a
  have hlen : total pre = a.length := by rw [← hpre, encodeFrom_length]
  have hlayout : insertLayout pre (e :: rest) s =
      (pre ++ [new]) ++ nextEntry req e :: grow (nextEntry req e).size rest := by
    simp [insertLayout, insertEntries, hnew, hreq]
  have hgrow := total_grow_ge (nextEntry req e).size rest
  rw [hlayout] at hsize hge ⊢
  simp only [total_append, total_cons, total_nil, hreq, hlen] at hsize hge
  rw [layoutBytes_eq_state, hpre, hlen] at hprev ⊢
  have hdiff : (if byteAt (cascadeState a e (lastSize 0 pre) e.size rest c) (10 + a.length) ≠ zipEnd
      then zipPrevLenByteDiff ((cascadeState a e (lastSize 0 pre) e.size rest c).drop (10 + a.length))
        req else 0) = ((zipStorePrevEntryLength req).length : Int) - e.prevSize := by
    rw [if_pos (cascadeState_head hfits), zipPrevLenByteDiff, cascadeState_drop,
      Entry.decodePrevlensize hfits]
  obtain ⟨gap, hgap, hroom⟩ := makeRoom_state (c := c) (a := a) hfits hbody hrest rfl rfl rfl
    (show 11 + a.length + req + total (nextEntry req e :: rest) < 2 ^ 32 by rw [total_cons]; omega)
  have hpos : 10 + a.length + req = 10 + (a ++ gap).length := by
    rw [length_append, hgap, add_assoc]
  have hcascade := ziplistCascadeUpdate_spec (a := a ++ gap) (c := c) (nextEntry_fits req e)
    (by omega) hbody hrest (by omega) (by rw [length_append, hgap]; omega)
  rw [ziplistInsert_eq _ _ s hprev (hnew ▸ hreq) hdiff rfl rfl,
    cascadeState_bytes (by rw [total_cons]; omega)]
  simp only [hroom, hpos, hcascade]
  -- a field of the same width leaves the entries behind it settled
  rw [ite_eq_left_iff.mpr fun hd => ?_]
  rotate_left
  · have hsame : (nextEntry req e).size = e.size := by
      have hnext := @Entry.size_of_body e (nextEntry req e) rfl
      have hwidth := (nextEntry_width req e rfl rfl).1
      omega
    rw [hsame, grow_of_valid hrest]
  have hsame : (a ++ gap).length = (a ++ new.bytes (lastSize 0 pre)).length := by simp [hgap, hreq]
  rw [cascadeState, writeEntry_spec (by simp) (by rw [hnew, hgap, hreq]), append_assoc,
    ziplistIncrLength_one hc, layoutBytes_eq_state, encodeFrom_append, lastSize_append, hpre, hnew,
    hsame, ← append_assoc]
  simp [cascadeState, encodeFrom, lastSize, hreq]

theorem ziplistInsert_layout (hvalid : ValidFrom 0 (pre ++ post))
    (hc : c < 2 ^ 16) (hsize : total (insertLayout pre post s) + 11 < 2 ^ 32) :
    ziplistInsert (layoutBytes (pre ++ post) c) (10 + total pre) s =
      layoutBytes (insertLayout pre post s) (countSucc c) := by
  cases post with
  | nil =>
    rw [append_nil] at hvalid ⊢
    exact ziplistInsert_end hvalid hc hsize
  | cons e rest => exact ziplistInsert_before hvalid hc hsize

end Redis.Ziplist
