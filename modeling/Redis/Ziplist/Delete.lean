import Redis.Ziplist.Insert

/-! `__ziplistDelete` on a well-formed ziplist writes the layout without the
deleted entries. -/
namespace Redis.Ziplist

open ByteBuffer List

variable {e : Entry} {del post pre rest : List Entry} {c k num prev : Nat}

/-- An entry whose field gets the width its new predecessor needs. -/
def refit (prev : Nat) (e : Entry) : Entry := { e with big := decide (zipBigPrevlen ≤ prev) }

/-- The layout that is left when everything between two parts is deleted. -/
def deleteLayout (pre post : List Entry) : List Entry :=
  match post with
  | [] => pre
  | e :: rest =>
    let e' := refit (lastSize 0 pre) e
    pre ++ e' :: grow e'.size rest

theorem refit_fits (prev : Nat) (e : Entry) : (refit prev e).Fits prev := by
  intro h
  have hlt : ¬ zipBigPrevlen ≤ prev := by simpa [refit] using h
  omega

theorem backSize_add_lastSize (es : List Entry) : backSize es + lastSize 0 es = total es := by
  rcases eq_nil_or_concat es with rfl | ⟨front, last, rfl⟩
  · rfl
  · rw [concat_eq_append, backSize_append, lastSize_append, backSize_singleton]
    simp [lastSize]

/-- The walk over the entries to delete. -/
theorem skipEntries_spec (hvalid : ValidFrom 0 (pre ++ (del ++ post))) (hnum : del.length ≤ num)
    (hlast : num = del.length ∨ post = []) :
    skipEntries num (layoutBytes (pre ++ (del ++ post)) c) (10 + total pre) k =
      (10 + total pre + total del, k + del.length) := by
  induction del generalizing pre num k with
  | nil =>
    cases num with
    | zero => rfl
    | succ num =>
      obtain rfl : post = [] := by simpa using hlast
      rw [skipEntries, if_pos (by simpa using layout_end pre c)]
      rfl
  | cons e del ih =>
    cases num with
    | zero => simp at hnum
    | succ num =>
      rw [cons_append] at hvalid ⊢
      rw [skipEntries, if_neg (layout_entry hvalid), layout_rawlen hvalid]
      have happ : pre ++ e :: (del ++ post) = (pre ++ [e]) ++ (del ++ post) := by simp
      have hvalid' : ValidFrom 0 ((pre ++ [e]) ++ (del ++ post)) := by rwa [← happ]
      have hnum' : del.length ≤ num := by simpa using hnum
      have hih := ih (k := k + 1) hvalid' hnum' (by simpa using hlast)
      rw [happ]
      rw [total_append] at hih
      simp only [total_cons, total_nil, add_zero] at hih
      rw [add_assoc 10, hih, total_cons, length_cons]
      congr 1 <;> omega

/-- The new field fits in front of the entry that follows: a wide field is only
needed where the first deleted entry had one. -/
theorem refit_room (hdel : del ≠ []) (hvalid : ValidFrom prev (del ++ rest)) :
    (refit prev e).prevSize ≤ total del + e.prevSize := by
  obtain ⟨first, del, rfl⟩ := exists_cons_of_ne_nil hdel
  have hfits : first.Fits prev := hvalid.1
  have hfirst : (refit prev e).prevSize ≤ first.prevSize := by
    by_cases h : zipBigPrevlen ≤ prev
    · have hbig : first.big = true := by
        by_contra hsmall
        have hlt := hfits (by simpa using hsmall)
        omega
      simp [Entry.prevSize, hbig]
      split_ifs <;> omega
    · have hone : (refit prev e).prevSize = 1 := by simp [Entry.prevSize, refit, h]
      have := first.prevSize_bounds
      omega
  rw [total_cons, Entry.size]
  omega

theorem closeGap_end (pre del : List Entry) (c : Nat) :
    closeGap (layoutBytes (pre ++ del) c) (10 + total pre) (10 + total pre + total del)
        (lastSize 0 pre) =
      (header (total (pre ++ del) + 11) (tailOffset pre) c ++ encodeFrom 0 pre ++
        (encodeFrom (lastSize 0 pre) del ++ [255]), 0) := by
  have hend := layout_end (pre ++ del) c
  rw [append_nil, total_append, ← add_assoc] at hend
  have htail : 10 + total pre - lastSize 0 pre = tailOffset pre := by
    have h := backSize_add_lastSize pre
    rw [tailOffset, ziplistHeaderSize]
    omega
  simp only [closeGap]
  rw [if_neg (not_not.mpr hend), htail, layoutBytes_append, append_assoc,
    setZiplistTailOffset_header]
  simp

/-- Closing the gap in front of an entry. -/
theorem closeGap_state {a q : Bytes} {old : Nat}
    (hfits : e.Fits old) (hbody : BodyOk e.body) (hrest : ValidFrom e.size rest)
    (hprev : prev ≤ a.length) (hroom : (refit prev e).prevSize ≤ q.length + e.prevSize)
    (hsize : 11 + (a ++ q).length + total (e :: rest) < 2 ^ 32) :
    ∃ junk : Bytes,
      closeGap (cascadeState (a ++ q) e old e.size rest c) (10 + a.length) (10 + (a ++ q).length)
          prev =
        (header (11 + (a ++ q).length + total (e :: rest))
            (10 + a.length + backSize (refit prev e :: rest)) c ++
          (a ++ ((refit prev e).bytes prev ++ encodeFrom e.size rest)) ++ (junk ++ [255]),
          ((refit prev e).prevSize : Int) - e.prevSize) := by
  have hfield : zipStorePrevEntryLength prev = prevField (refit prev e).big prev :=
    zipStorePrevEntryLength_eq prev
  have hfits' := refit_fits prev e
  have hbody' : (refit prev e).body = e.body := rfl
  have hrefit := Entry.size_of_body hbody'
  generalize refit prev e = e' at *
  have hback := backSize_le (e :: rest)
  have hnf : (prevField e'.big prev).length = e'.prevSize := prevField_length _ _
  have hf : (prevField e.big old).length = e.prevSize := prevField_length _ _
  have hlen : (a ++ q).length = a.length + q.length := length_append
  rw [total_cons] at hback
  obtain ⟨g, hg⟩ : ∃ g, g + e'.prevSize = q.length + e.prevSize := ⟨_, Nat.sub_add_cancel hroom⟩
  have hp : ((10 + (a ++ q).length : Nat) - ((e'.prevSize : Int) - e.prevSize)).toNat =
      10 + a.length + g := by omega
  generalize hy : e'.bytes prev ++ encodeFrom e.size rest = y
  have hylen : y.length = e'.size + total rest := by simp [← hy]
  -- the new field is stored in front of the body, at the end of the gap
  obtain ⟨gap, hgap, hstore⟩ : ∃ gap : Bytes, gap.length = g ∧
      store (cascadeState (a ++ q) e old e.size rest c) (10 + a.length + g) (prevField e'.big prev) =
        header (11 + (a ++ q).length + total (e :: rest))
          (10 + (a ++ q).length + backSize (e :: rest)) c ++ (a ++ gap ++ y) ++ [255] := by
    refine ⟨(q ++ prevField e.big old).take g, by simp only [length_take, length_append]; omega, ?_⟩
    have h := store_gap (p := header (11 + (a ++ q).length + total (e :: rest))
        (10 + (a ++ q).length + backSize (e :: rest)) c ++ a) (q := q ++ prevField e.big old)
      (z := e.body ++ encodeFrom e.size rest ++ [255]) (y := prevField e'.big prev)
      (i := 10 + a.length + g) (g := g) (by simp) (by rw [length_append]; omega)
    simpa only [cascadeState, Entry.bytes, append_assoc, ← hy, hbody'] using h
  have htail : 10 + (a ++ q).length + backSize (e :: rest) - q.length =
      10 + a.length + backSize (e :: rest) := by omega
  have hpos : 10 + a.length + g = 10 + (a ++ gap).length := by
    rw [length_append, hgap, add_assoc]
  have hcount : 11 + (a ++ q).length + total (e :: rest) - (10 + a.length + g) - 1 = y.length := by
    rw [total_cons] at hsize ⊢
    omega
  have hadjust := adjustTail_spec (n := 11 + (a ++ q).length + total (e :: rest)) (c := c)
    (a := a ++ gap) (b := 10 + a.length) hfits' (by omega) (hbody' ▸ hbody) hrest hrefit
    (by rw [total_cons] at hsize ⊢; omega)
  rw [hy] at hadjust
  simp only [closeGap]
  rw [if_pos (cascadeState_head hfits), zipPrevLenByteDiff, cascadeState_drop,
    Entry.decodePrevlensize hfits, hfield, hnf, hp, hstore, hlen, Nat.add_sub_add_left,
    Nat.add_sub_cancel_left, ← hlen, append_assoc (header _ _ _),
    ziplistTailOffset_header _ _ _ _ (by rw [total_cons] at hsize; omega),
    setZiplistTailOffset_header, htail, ← append_assoc (header _ _ _), hpos, hadjust, ← hpos,
    append_assoc (header _ _ _), ziplistBytes_header _ _ _ _ hsize, ← append_assoc (header _ _ _),
    hcount]
  obtain ⟨junk, hmove⟩ := memmove_forward (m := 0) (i := 10 + a.length) (j := 10 + a.length + g)
    (a := header (11 + (a ++ q).length + total (e :: rest))
      (10 + a.length + backSize (e' :: rest)) c ++ a) (x := gap) (b := y) (z := [255])
    (Nat.zero_le _) (by simp) (by simp [hgap])
  refine ⟨junk, Prod.ext ?_ rfl⟩
  simpa only [append_assoc, take_zero, nil_append] using hmove

/-- The count field after `k` deletions; a saturated one stays. -/
def countSub (c k : Nat) : Nat := if c < uint16Max then c - k else c

theorem ziplistIncrLength_sub {a b : Nat} (hc : c < 2 ^ 16) (hk : c < uint16Max → k ≤ c)
    (rest : Bytes) :
    ziplistIncrLength (header a b c ++ rest) (-(k : Int)) = header a b (countSub c k) ++ rest := by
  rw [ziplistIncrLength_header hc, countSub]
  congr 2
  split_ifs with h
  · omega
  · rfl

/-- What `__ziplistDelete` reads before it starts. -/
theorem ziplistDeleteAt_eq {es : List Entry}
    (hes : es = pre ++ (del ++ post)) (hdel : del ≠ []) (hvalid : ValidFrom 0 es)
    (hsize : total es + 11 < 2 ^ 32) (hnum : del.length ≤ num)
    (hlast : num = del.length ∨ post = []) {zl : Bytes} {nextdiff : Int}
    (hprev : lastSize 0 pre = prev)
    (hclose : closeGap (layoutBytes es c) (10 + total pre) (10 + total pre + total del) prev =
    (zl, nextdiff)) :
    ziplistDeleteAt (layoutBytes es c) (10 + total pre) num =
      let zl := ziplistIncrLength
        (ziplistResize zl (ziplistBytes zl - total del + nextdiff).toNat) (-(del.length : Int))
      if nextdiff ≠ 0 then ziplistCascadeUpdate zl (10 + total pre) else zl := by
  subst hes hprev
  obtain ⟨first, del', rfl⟩ := exists_cons_of_ne_nil hdel
  have hprev : (zipEntry ((layoutBytes (pre ++ (first :: del' ++ post)) c).drop
      (10 + total pre))).prevrawlen = lastSize 0 pre := by
    rw [cons_append] at hvalid ⊢
    obtain ⟨behind, hat, hfits, hbody⟩ := layout_at hvalid c
    rw [hat, Entry.zipEntry_eq hfits (lastSize_lt hsize) hbody]
  have hpos : total (first :: del') > 0 := by
    have := first.size_pos
    rw [total_cons]
    omega
  have hlen : 10 + total pre + total (first :: del') - (10 + total pre) = total (first :: del') := by
    omega
  simp only [ziplistDeleteAt, hprev, skipEntries_spec hvalid hnum hlast, hclose, hlen, if_pos hpos,
    zero_add]

/-- Deleting up to the end of the list. -/
theorem ziplistDeleteAt_end (hdel : del ≠ [])
    (hvalid : ValidFrom 0 (pre ++ del)) (hsize : total (pre ++ del) + 11 < 2 ^ 32)
    (hnum : del.length ≤ num) (hc : c < 2 ^ 16) (hcount : c < uint16Max → del.length ≤ c) :
    ziplistDeleteAt (layoutBytes (pre ++ del) c) (10 + total pre) num =
      layoutBytes pre (countSub c del.length) := by
  have hbytes : ((total (pre ++ del) + 11 : Nat) - total del + (0 : Int)).toNat = total pre + 11 := by
    rw [total_append]
    omega
  rw [ziplistDeleteAt_eq (show _ = pre ++ (del ++ []) by simp) hdel hvalid hsize hnum (.inr rfl)
    rfl (closeGap_end pre del c)]
  simp only [ne_eq, not_true_eq_false, if_false]
  rw [append_assoc, ziplistBytes_header _ _ _ _ hsize, hbytes, ← append_assoc]
  rw [total_append] at hsize
  rw [ziplistResize_cut (by omega) (by simp) (by simp), append_assoc,
    ziplistIncrLength_sub hc hcount, layoutBytes, append_assoc]

/-- Deleting in front of an entry that stays. -/
theorem ziplistDeleteAt_before (hdel : del ≠ []) (hvalid : ValidFrom 0 (pre ++ (del ++ e :: rest)))
    (hold : total (pre ++ (del ++ e :: rest)) + 11 < 2 ^ 32)
    (hsize : total (deleteLayout pre (e :: rest)) + 11 < 2 ^ 32) (hc : c < 2 ^ 16)
    (hcount : c < uint16Max → del.length ≤ c) :
    ziplistDeleteAt (layoutBytes (pre ++ (del ++ e :: rest)) c) (10 + total pre) del.length =
      layoutBytes (deleteLayout pre (e :: rest)) (countSub c del.length) := by
  obtain ⟨_, hdelrest⟩ := (validFrom_append 0 pre (del ++ e :: rest)).mp hvalid
  obtain ⟨_, hfits, hbody, hrest⟩ := (validFrom_append _ del (e :: rest)).mp hdelrest
  have hroom := refit_room (e := e) hdel hdelrest
  have hlast := lastSize_le 0 pre
  have hrefit := @Entry.size_of_body e (refit (lastSize 0 pre) e) rfl
  have hfits' := refit_fits (lastSize 0 pre) e
  have hstate := layoutBytes_eq_state (pre ++ del) e rest c
  have hbody' : BodyOk (refit (lastSize 0 pre) e).body := hbody
  rw [append_assoc, encodeFrom_append, lastSize_append] at hstate
  rw [deleteLayout] at hsize ⊢
  simp only [total_append, total_cons] at hsize hold hlast
  rw [layoutBytes_eq_state]
  generalize hprev : lastSize 0 pre = prev at *
  generalize he' : refit prev e = e' at *
  have ha : (encodeFrom 0 pre).length = total pre := encodeFrom_length 0 pre
  have hq : (encodeFrom prev del).length = total del := encodeFrom_length prev del
  generalize encodeFrom 0 pre = a at *
  generalize encodeFrom prev del = q at *
  obtain ⟨junk, hclose⟩ := closeGap_state (c := c) (a := a) (q := q) hfits hbody hrest
    (show prev ≤ a.length by omega) (by rw [he']; omega) (by rw [length_append, total_cons]; omega)
  rw [he', length_append, ← add_assoc, ← add_assoc, ha, hq, ← hstate] at hclose
  rw [ziplistDeleteAt_eq rfl hdel hvalid (by simp only [total_append, total_cons]; omega)
    (le_refl _) (.inl rfl) hprev hclose]
  have hbytes : ((11 + total pre + total del + total (e :: rest) : Nat) - (total del : Int) +
      ((e'.prevSize : Int) - e.prevSize)).toNat = 11 + total pre + total (e' :: rest) := by
    rw [total_cons, total_cons]
    omega
  have hstart : ziplistIncrLength (ziplistResize (header (11 + total pre + total del +
      total (e :: rest)) (10 + total pre + backSize (e' :: rest)) c ++ (a ++ (e'.bytes prev ++
        encodeFrom e.size rest)) ++ (junk ++ [255])) (11 + total pre + total (e' :: rest)))
      (-(del.length : Int)) = cascadeState a e' prev e.size rest (countSub c del.length) := by
    rw [ziplistResize_cut (by rw [total_cons]; omega) (by simp [ha]; omega) (by simp), append_assoc,
      ziplistIncrLength_sub hc hcount, cascadeState, ha, ← append_assoc]
  rw [append_assoc (header _ _ _), ziplistBytes_header _ _ _ _ (by rw [total_cons]; omega), hbytes,
    ← append_assoc (header _ _ _), hstart]
  split_ifs with hzero
  · have hcascade := ziplistCascadeUpdate_spec (a := a) (c := countSub c del.length)
      hfits' (by omega) hbody' hrest (by omega) (by omega)
    rwa [ha] at hcascade
  · have hsame : e'.size = e.size := by omega
    rw [hsame, grow_of_valid hrest]

end Redis.Ziplist
