import Redis.Ziplist.Walk

/-! What the editing operations do to a well-formed ziplist: the format is kept,
and the decoded values change as the list operation says. -/
namespace Redis.Ziplist

open ByteBuffer List

/-- A byte string in ziplist format with these entries: `zlbytes` is its length,
`zltail` the offset of the last entry, or of the terminator when there is none,
`zllen` the number of entries or 65535, and the entries follow each other, each
with the size of the one before it in its `prevlen` field, up to the `0xFF`. -/
structure Format (zl : Bytes) (es : List Entry) : Prop where
  zlbytes : ziplistBytes zl = zl.length
  zltail : ziplistTailOffset zl = tailOffset es
  zllen : ziplistLength zl = es.length ∨ ziplistLength zl = uint16Max
  entries : zl.drop ziplistHeaderSize = encodeFrom 0 es ++ [255]
  valid : ValidFrom 0 es

def WellFormed (zl : Bytes) : Prop := ∃ es, Format zl es

/-- The size of the ziplist with `s` inserted before the `k`-th entry. -/
def insertedBytes (zl : Bytes) (k : Nat) (s : Bytes) : Nat :=
  total (insertLayout ((entriesOf zl).take k) ((entriesOf zl).drop k) s) + 11

/-- The size of the ziplist without the `num` entries from the `k`-th on. -/
def deletedBytes (zl : Bytes) (k num : Nat) : Nat :=
  total (deleteLayout ((entriesOf zl).take k) ((entriesOf zl).drop (k + num))) + 11

section Format

variable {zl : Bytes} {es pre post : List Entry} {c k : Nat} {s : Bytes}

theorem format_layout (hvalid : ValidFrom 0 es) (hsize : total es + 11 < 2 ^ 32) (hc : c < 2 ^ 16)
    (hlen : c = es.length ∨ c = uint16Max) : Format (layoutBytes es c) es := by
  have hbytes := layoutBytes_length es c
  have hdrop : (layoutBytes ([] ++ es) c).drop ziplistHeaderSize = _ := layoutBytes_drop rfl
  have hzllen : ziplistLength (layoutBytes es c) = c := by
    rw [layoutBytes, append_assoc, ziplistLength_header _ _ _ _ hc]
  refine ⟨?_, layout_tail hsize, by rwa [hzllen], hdrop, hvalid⟩
  rw [layout_bytes hsize, hbytes]

variable (h : Format zl es)
include h

/-- The entries, the header and the terminator take the memory of the ziplist. -/
theorem Format.bytes_eq : ziplistBytes zl = total es + 11 := by
  have hlen := congrArg length h.entries
  simp [ziplistHeaderSize] at hlen
  rw [h.zlbytes]
  omega

theorem Format.size_lt : total es + 11 < 2 ^ 32 := h.bytes_eq ▸ readLE_lt 4 zl

omit h in
theorem Format.zllen_lt (_h : Format zl es) : ziplistLength zl < 2 ^ 16 := readLE_lt 2 _

/-- The format leaves no choice but the value of `zllen`. -/
theorem Format.eq_layout : zl = layoutBytes es (ziplistLength zl) := by
  have hlen : zl.length = total es + 11 := h.zlbytes.symm.trans h.bytes_eq
  have hbytes : leBytes 4 (total es + 11) = zl.take 4 := by
    rw [← h.bytes_eq, ziplistBytes, leBytes_readLE (by omega)]
  have htail : leBytes 4 (tailOffset es) = (zl.drop 4).take 4 := by
    rw [← h.zltail]
    exact leBytes_readLE (by simp; omega)
  have hcount : leBytes 2 (ziplistLength zl) = (zl.drop 8).take 2 :=
    leBytes_readLE (by simp; omega)
  have hhead : header (total es + 11) (tailOffset es) (ziplistLength zl) = zl.take 10 := by
    rw [header, hbytes, htail, hcount, ← take_add, ← take_add]
  rw [layoutBytes, hhead, append_assoc, ← h.entries]
  exact (take_append_drop 10 zl).symm

theorem Format.entriesOf_eq : entriesOf zl = es := by
  rw [h.eq_layout]
  exact entriesOf_layout h.valid h.size_lt

theorem Format.values_eq : values zl = es.map Entry.text := by
  rw [h.eq_layout]
  exact values_layout h.valid h.size_lt

theorem Format.entryOffset_eq (hk : k ≤ es.length) : entryOffset zl k = 10 + total (es.take k) := by
  rw [h.eq_layout]
  exact entryOffset_layout h.valid hk

end Format

section Edit

variable {zl : Bytes} {es pre del post : List Entry} {c k num : Nat} {s : Bytes}

@[simp] theorem grow_texts (prev : Nat) (es : List Entry) :
    (grow prev es).map Entry.text = es.map Entry.text := by
  induction es generalizing prev with
  | nil => rfl
  | cons e es ih =>
    rw [grow]
    split_ifs
    · rw [map_cons, ih, map_cons]
      rfl
    · rfl

theorem newEntry_text (prev : Nat) (hs : s.length < 2 ^ 32) : (newEntry prev s).text = s := by
  rw [Entry.text, newEntry, (encodeBody_spec hs).2, valueOf_text]

theorem newEntry_fits (prev : Nat) : (newEntry prev s).Fits prev := by
  intro hbig
  simpa [newEntry] using hbig

/-- Only the new entry is added; what a cascade widens keeps its value. -/
theorem insertLayout_texts (pre post : List Entry) (hs : s.length < 2 ^ 32) :
    (insertLayout pre post s).map Entry.text =
      pre.map Entry.text ++ s :: post.map Entry.text := by
  cases post with
  | nil => simp [insertLayout, insertEntries, newEntry_text _ hs]
  | cons e rest =>
    have hnext : ∀ n, (nextEntry n e).text = e.text := fun n => rfl
    simp [insertLayout, insertEntries, newEntry_text _ hs, hnext]

theorem insertLayout_valid (hvalid : ValidFrom 0 (pre ++ post)) (hs : s.length < 2 ^ 32) :
    ValidFrom 0 (insertLayout pre post s) := by
  obtain ⟨hpre, hpost⟩ := (validFrom_append 0 pre post).mp hvalid
  rw [insertLayout, validFrom_append]
  refine ⟨hpre, ?_⟩
  cases post with
  | nil => exact ⟨newEntry_fits _, (encodeBody_spec hs).1, trivial⟩
  | cons e rest =>
    exact ⟨newEntry_fits _, (encodeBody_spec hs).1, nextEntry_fits _ e, hpost.2.1,
      validFrom_grow hpost.2.2⟩

theorem insertLayout_length (pre post : List Entry) (s : Bytes) :
    (insertLayout pre post s).length = (pre ++ post).length + 1 := by
  cases post with
  | nil => simp [insertLayout, insertEntries]
  | cons e rest =>
    simp [insertLayout, insertEntries]
    omega

/-- A string that fits into a ziplist has a 32-bit length. -/
theorem insertLayout_string_lt (hsize : total (insertLayout pre post s) + 11 < 2 ^ 32) :
    s.length < 2 ^ 32 := by
  have hbody : (encodeBody s).length ≤ total (insertLayout pre post s) := by
    cases post with
    | nil | cons e rest =>
      simp [insertLayout, insertEntries, Entry.size, newEntry]
      omega
  rcases valueData_length_le s with h | h
  · omega
  · omega

theorem deleteLayout_texts (pre post : List Entry) :
    (deleteLayout pre post).map Entry.text = pre.map Entry.text ++ post.map Entry.text := by
  cases post with
  | nil => simp [deleteLayout]
  | cons e rest =>
    have hrefit : ∀ n, (refit n e).text = e.text := fun n => rfl
    simp [deleteLayout, hrefit]

theorem deleteLayout_valid (hvalid : ValidFrom 0 es) (k num : Nat) :
    ValidFrom 0 (deleteLayout (es.take k) (es.drop (k + num))) := by
  have hpre := (validFrom_append 0 (es.take k) (es.drop k)).mp (by rwa [take_append_drop])
  have hpost := (validFrom_append 0 (es.take (k + num)) (es.drop (k + num))).mp
    (by rwa [take_append_drop])
  cases hdrop : es.drop (k + num) with
  | nil => exact hpre.1
  | cons e rest =>
    rw [hdrop] at hpost
    rw [deleteLayout, validFrom_append]
    exact ⟨hpre.1, refit_fits _ e, hpost.2.2.1, validFrom_grow hpost.2.2.2⟩

theorem deleteLayout_length (pre post : List Entry) :
    (deleteLayout pre post).length = pre.length + post.length := by
  cases post with
  | nil => rfl
  | cons e rest => simp [deleteLayout]

theorem ziplistDeleteAt_zero (zl : Bytes) (p : Nat) : ziplistDeleteAt zl p 0 = zl := by
  simp [ziplistDeleteAt, skipEntries]

/-- Deleting `num` entries from the `k`-th on, as many as there are. -/
theorem ziplistDeleteAt_layout (hvalid : ValidFrom 0 es) (hold : total es + 11 < 2 ^ 32)
    (hk : k < es.length) (hnum : num ≠ 0)
    (hsize : total (deleteLayout (es.take k) (es.drop (k + num))) + 11 < 2 ^ 32) (hc : c < 2 ^ 16)
    (hcount : c < uint16Max → es.length ≤ c) :
    ziplistDeleteAt (layoutBytes es c) (10 + total (es.take k)) num =
      layoutBytes (deleteLayout (es.take k) (es.drop (k + num)))
        (countSub c (min num (es.length - k))) := by
  have hdel : (es.drop k).take num ≠ [] := by
    simp
    omega
  have hdellen : ((es.drop k).take num).length = min num (es.length - k) := by simp
  have hsplit : es = es.take k ++ ((es.drop k).take num ++ es.drop (k + num)) := by
    rw [← drop_drop, take_append_drop, take_append_drop]
  have hcount' : c < uint16Max → ((es.drop k).take num).length ≤ c := by
    intro hlt
    have := hcount hlt
    omega
  cases hpost : es.drop (k + num) with
  | nil =>
    rw [hpost, append_nil] at hsplit
    have hend := ziplistDeleteAt_end hdel (hsplit ▸ hvalid) (hsplit ▸ hold)
      (length_take_le num _) hc hcount'
    rw [← hsplit, hdellen] at hend
    exact hend
  | cons e rest =>
    rw [hpost] at hsplit hsize
    have hmid := ziplistDeleteAt_before hdel (hsplit ▸ hvalid) (hsplit ▸ hold) hsize hc hcount'
    have hnumlen : min num (es.length - k) = num := by
      have hlen := congrArg length hpost
      simp at hlen
      omega
    rw [← hsplit, hdellen, hnumlen] at hmid
    rwa [hnumlen]

theorem Format.insert (h : Format zl (pre ++ post))
    (hsize : total (insertLayout pre post s) + 11 < 2 ^ 32) :
    Format (ziplistInsert zl (10 + total pre) s) (insertLayout pre post s) := by
  have hs := insertLayout_string_lt hsize
  have hlen := insertLayout_length pre post s
  have hc := h.zllen_lt
  have hzllen := h.zllen
  rw [h.eq_layout, ziplistInsert_layout h.valid hc hsize]
  apply format_layout (insertLayout_valid h.valid hs) hsize
  · rw [countSucc]
    split_ifs <;> simp only [uint16Max] at * <;> omega
  · rw [countSucc, hlen]
    split_ifs <;> simp only [uint16Max] at * <;> omega

theorem Format.insertAt (h : Format zl es) (hk : k ≤ es.length)
    (hsize : insertedBytes zl k s < 2 ^ 32) :
    Format (ziplistInsert zl (entryOffset zl k) s) (insertLayout (es.take k) (es.drop k) s) ∧
      s.length < 2 ^ 32 := by
  rw [insertedBytes, h.entriesOf_eq] at hsize
  rw [h.entryOffset_eq hk]
  exact ⟨Format.insert (by rwa [take_append_drop]) hsize, insertLayout_string_lt hsize⟩

theorem Format.deleteAt (h : Format zl es) (hk : k < es.length) (hnum : num ≠ 0)
    (hsize : total (deleteLayout (es.take k) (es.drop (k + num))) + 11 < 2 ^ 32) :
    Format (ziplistDeleteAt zl (10 + total (es.take k)) num)
      (deleteLayout (es.take k) (es.drop (k + num))) := by
  have hc := h.zllen_lt
  have hzllen := h.zllen
  have hcount : ziplistLength zl < uint16Max → es.length ≤ ziplistLength zl := by omega
  rw [h.eq_layout, ziplistDeleteAt_layout h.valid h.size_lt hk hnum hsize hc hcount]
  apply format_layout (deleteLayout_valid h.valid k num) hsize
  · rw [countSub]
    split_ifs <;> omega
  · rw [countSub, deleteLayout_length, length_take, length_drop]
    split_ifs <;> simp only [uint16Max] at * <;> omega

end Edit

section Operations

variable {zl s : Bytes} {k num : Nat}

section

variable (h : WellFormed zl)
include h

theorem ziplistInsert_refines (hk : k ≤ (values zl).length)
    (hsize : insertedBytes zl k s < 2 ^ 32) :
    WellFormed (ziplistInsert zl (entryOffset zl k) s) ∧
      values (ziplistInsert zl (entryOffset zl k) s) =
        (values zl).take k ++ s :: (values zl).drop k := by
  obtain ⟨es, hes⟩ := h
  rw [hes.values_eq, length_map] at hk
  obtain ⟨hins, hs⟩ := hes.insertAt hk hsize
  refine ⟨⟨_, hins⟩, ?_⟩
  rw [hins.values_eq, hes.values_eq, insertLayout_texts _ _ hs, map_take, map_drop]

theorem ziplistPush_eq (w : Where) : ziplistPush zl s w =
      ziplistInsert zl (entryOffset zl (match w with | .head => 0 | .tail => (values zl).length)) s := by
  obtain ⟨es, hes⟩ := h
  cases w with
  | head => rfl
  | tail =>
    have hoff : ziplistBytes zl - 1 = 10 + total es := by
      rw [hes.bytes_eq]
      omega
    simp only [ziplistPush]
    rw [hes.values_eq, length_map, hes.entryOffset_eq (le_refl _), take_length, hoff]

theorem ziplistDeleteAt_refines (hk : k < (values zl).length)
    (hsize : deletedBytes zl k num < 2 ^ 32) :
    WellFormed (ziplistDeleteAt zl (entryOffset zl k) num) ∧
      values (ziplistDeleteAt zl (entryOffset zl k) num) =
        (values zl).take k ++ (values zl).drop (k + num) := by
  rcases Nat.eq_zero_or_pos num with rfl | hnum
  · rw [ziplistDeleteAt_zero]
    exact ⟨h, by rw [add_zero, take_append_drop]⟩
  · obtain ⟨es, hes⟩ := h
    rw [hes.values_eq, length_map] at hk
    rw [deletedBytes, hes.entriesOf_eq] at hsize
    have hdel := hes.deleteAt hk (by omega) hsize
    rw [hes.entryOffset_eq (by omega)]
    refine ⟨⟨_, hdel⟩, ?_⟩
    rw [hdel.values_eq, hes.values_eq, deleteLayout_texts, map_take, map_drop]

theorem ziplistIndex_eq (index : Int) :
    ziplistIndex zl index = (position (values zl).length index).map (entryOffset zl) := by
  obtain ⟨es, hes⟩ := h
  have hindex := ziplistIndex_layout (c := ziplistLength zl) hes.valid hes.size_lt index
  rw [← hes.eq_layout] at hindex
  rw [hindex, hes.values_eq, length_map]
  apply Option.map_congr
  intro k hk
  exact (hes.entryOffset_eq (le_of_lt (position_lt hk))).symm

/-- The list that `ziplistDeleteRange` leaves. -/
def deleteRange (l : List Bytes) (index : Int) (num : Nat) : List Bytes :=
  match position l.length index with
  | none => l
  | some k => l.take k ++ l.drop (k + num)

/-- The size of the ziplist that `ziplistDeleteRange` leaves. -/
def deletedRangeBytes (zl : Bytes) (index : Int) (num : Nat) : Nat :=
  match position (values zl).length index with
  | none => zl.length
  | some k => deletedBytes zl k num

theorem ziplistDeleteRange_refines (index : Int) (hsize : deletedRangeBytes zl index num < 2 ^ 32) :
    WellFormed (ziplistDeleteRange zl index num) ∧
      values (ziplistDeleteRange zl index num) = deleteRange (values zl) index num := by
  rw [ziplistDeleteRange, ziplistIndex_eq h, deleteRange]
  rw [deletedRangeBytes] at hsize
  cases hpos : position (values zl).length index with
  | none => exact ⟨h, rfl⟩
  | some k =>
    rw [hpos] at hsize
    exact ziplistDeleteAt_refines h (position_lt hpos) hsize

end

/-- Insertion at any position, a push at either end, and deletion of an entry or
of a range keep the format and act on the decoded values as on a list, as long
as the result is smaller than 4 GB. -/
theorem ziplist_refines_list (h : WellFormed zl) :
    (∀ k s, k ≤ (values zl).length → insertedBytes zl k s < 2 ^ 32 →
      WellFormed (ziplistInsert zl (entryOffset zl k) s) ∧
        values (ziplistInsert zl (entryOffset zl k) s) =
          (values zl).take k ++ s :: (values zl).drop k) ∧
    (∀ s, insertedBytes zl 0 s < 2 ^ 32 →
      WellFormed (ziplistPush zl s .head) ∧ values (ziplistPush zl s .head) = s :: values zl) ∧
    (∀ s, insertedBytes zl (values zl).length s < 2 ^ 32 →
      WellFormed (ziplistPush zl s .tail) ∧
        values (ziplistPush zl s .tail) = values zl ++ [s]) ∧
    (∀ k, k < (values zl).length → deletedBytes zl k 1 < 2 ^ 32 →
      WellFormed (ziplistDelete zl (entryOffset zl k)) ∧
        values (ziplistDelete zl (entryOffset zl k)) = (values zl).eraseIdx k) ∧
    (∀ index num, deletedRangeBytes zl index num < 2 ^ 32 →
      WellFormed (ziplistDeleteRange zl index num) ∧
        values (ziplistDeleteRange zl index num) = deleteRange (values zl) index num) := by
  refine ⟨fun k s hk hsize => ziplistInsert_refines h hk hsize, ?_, ?_, ?_, ?_⟩
  · intro s hsize
    rw [ziplistPush_eq h]
    exact ziplistInsert_refines h (Nat.zero_le _) hsize
  · intro s hsize
    have hins := ziplistInsert_refines h (Nat.le_refl _) hsize
    rw [take_length, drop_length] at hins
    rwa [ziplistPush_eq h]
  · intro k hk hsize
    rw [eraseIdx_eq_take_drop_succ]
    exact ziplistDeleteAt_refines h hk hsize
  · exact fun index num hsize => ziplistDeleteRange_refines h index hsize

/-- Two entries of 253 bytes, each of which widens the next when it is widened. -/
def nearlyWide : List Entry :=
  [⟨false, encodeBody (List.replicate 250 97)⟩, ⟨false, encodeBody (List.replicate 250 98)⟩]

theorem nearlyWide_wellFormed : WellFormed (layoutBytes nearlyWide 2) := by
  have hbody : ∀ b, BodyOk (encodeBody (replicate 250 b)) := fun b =>
    (encodeBody_spec (by rw [length_replicate]; norm_num)).1
  have hvalid : ValidFrom 0 nearlyWide :=
    ⟨fun _ => by decide, hbody 97, fun _ => by decide +kernel, hbody 98, trivial⟩
  exact ⟨_, format_layout hvalid (by decide +kernel) (by norm_num) (.inl rfl)⟩

theorem ziplist_refines_list_cascade :
    WellFormed (layoutBytes nearlyWide 2) ∧
      values (ziplistPush (layoutBytes nearlyWide 2) (List.replicate 300 99) .head) =
        List.replicate 300 99 :: values (layoutBytes nearlyWide 2) :=
  ⟨nearlyWide_wellFormed,
    ((ziplist_refines_list nearlyWide_wellFormed).2.1 (List.replicate 300 99) (by decide +kernel)).2⟩

end Operations

end Redis.Ziplist
