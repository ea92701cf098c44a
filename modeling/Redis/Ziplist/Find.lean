import Redis.Ziplist.Refinement

/-! Searching and counting the entries of a ziplist, and how many bytes they take. -/
namespace Redis.Ziplist

open ByteBuffer Util List Option

/-- The comparison in `ziplistFind` of the data `q` of an entry with a string. Whether the string
is an integer is remembered there. -/
def entryEquals (q : Bytes) (encoding len : Nat) (vstr : Bytes) : Bool :=
  if zipIsStr encoding then len = vstr.length && q.take vstr.length = vstr
  else
    match zipTryEncoding vstr with
    | none => false
    | some (vll, _) => zipLoadInteger q encoding = vll

def ziplistCompare (p sstr : Bytes) : Bool :=
  if byteAt p 0 = zipEnd then false
  else
    let entry := zipEntry p
    entryEquals (p.drop entry.headersize) entry.encoding entry.len sstr

/-- The loop of `ziplistFind`; `skip` entries are skipped after each comparison. -/
def findLoop (zl vstr : Bytes) (skip : Nat) : Nat → Nat → Nat → Option Nat
  | 0, _, _ => none
  | fuel + 1, p, skipcnt =>
    if byteAt zl p = zipEnd then none
    else
      let prevlensize := zipDecodePrevlensize (zl.drop p)
      let (encoding, lensize, len) := zipDecodeLength (zl.drop (p + prevlensize))
      let q := p + prevlensize + lensize
      match skipcnt with
      | 0 =>
        if entryEquals (zl.drop q) encoding len vstr then some p
        else findLoop zl vstr skip fuel (q + len) skip
      | skipcnt + 1 => findLoop zl vstr skip fuel (q + len) skipcnt

/-- There are fewer entries than bytes. -/
def ziplistFind (zl : Bytes) (p : Nat) (vstr : Bytes) (skip : Nat) : Option Nat :=
  findLoop zl vstr skip zl.length p 0

/-- The loop of `ziplistLen`. -/
def lenLoop (zl : Bytes) : Nat → Nat → Nat → Nat
  | 0, _, len => len
  | fuel + 1, p, len =>
    if byteAt zl p = zipEnd then len
    else lenLoop zl fuel (p + zipRawEntryLength (zl.drop p)) (len + 1)

/-- `ziplistLen`, which stores a length that fits again. -/
def ziplistLen (zl : Bytes) : Nat × Bytes :=
  if ziplistLength zl < uint16Max then (ziplistLength zl, zl)
  else
    let len := lenLoop zl zl.length ziplistHeaderSize 0
    (len, if len < uint16Max then setZiplistLength zl len else zl)

section Compare

theorem loadInt_range {n : Nat} (hn : n ≤ 8) (p : Bytes) :
    -2 ^ 63 ≤ loadInt n p ∧ loadInt n p < 2 ^ 63 := by
  have hpow : (256 : Nat) ^ n ≤ 256 ^ 8 := Nat.pow_le_pow_right (by norm_num) hn
  have hpos : 0 < (256 : Nat) ^ n := by positivity
  have hlo := Int.le_bmod (x := (readLE n p : Int)) hpos
  have hhi := Int.bmod_lt (x := (readLE n p : Int)) hpos
  rw [loadInt]
  generalize (256 : Nat) ^ n = m at *
  constructor
  · omega
  · omega

theorem zipLoadInteger_range (p : Bytes) (encoding : Nat) :
    -2 ^ 63 ≤ zipLoadInteger p encoding ∧ zipLoadInteger p encoding < 2 ^ 63 := by
  have hload := fun n hn q => loadInt_range (n := n) hn q
  unfold zipLoadInteger
  split_ifs
  · exact hload 1 (by norm_num) p
  · exact hload 2 (by norm_num) p
  · exact hload 4 (by norm_num) p
  · have h := hload 4 (by norm_num) (0 :: p)
    omega
  · exact hload 8 (by norm_num) p
  · have h : encoding &&& 0x0f ≤ 0x0f := Nat.and_le_right
    omega

/-- A string stands for an integer if it is what the integer prints as. -/
theorem zipTryEncoding_eq_iff (vstr : Bytes) {v : Int} (hlo : -2 ^ 63 ≤ v) (hhi : v < 2 ^ 63) :
    (∃ encoding, zipTryEncoding vstr = some (v, encoding)) ↔ ll2string v = vstr := by
  constructor
  · rintro ⟨encoding, h⟩
    unfold zipTryEncoding at h
    split_ifs at h
    obtain ⟨w, hw, heq⟩ := map_eq_some_iff.mp h
    obtain rfl : w = v := congrArg Prod.fst heq
    exact (string2ll_ll2string hw).1
  · rintro rfl
    have hparse := string2ll_of_ll2string hlo hhi
    have hlen := string2ll_length hparse
    have hne : (ll2string v).length ≠ 0 := by
      intro hzero
      rw [eq_nil_of_length_eq_zero hzero] at hparse
      cases hparse
    refine ⟨zipIntEncoding v, ?_⟩
    rw [zipTryEncoding, if_neg (by omega), hparse]
    rfl

/-- The comparison is that of the strings that the entries stand for. -/
theorem entryEquals_eq {body rest vstr : Bytes} (hbody : BodyOk body) :
    entryEquals (body.drop (zipDecodeLength body).2.1 ++ rest) (zipDecodeLength body).1
      (zipDecodeLength body).2.2 vstr = decide ((bodyValue body).text = vstr) := by
  obtain ⟨hlen, henc⟩ := hbody
  have hdata : (body.drop (zipDecodeLength body).2.1).length = (zipDecodeLength body).2.2 := by
    rw [length_drop]
    omega
  rw [entryEquals]
  cases hstr : zipIsStr (zipDecodeLength body).1 with
  | true =>
    have hval : bodyValue body = .str (body.drop (zipDecodeLength body).2.1) := by
      simp only [bodyValue, hstr, if_true]
      rw [take_of_length_le (le_of_eq hdata)]
    rw [hval, Value.text, if_pos rfl, ← hdata]
    generalize body.drop (zipDecodeLength body).2.1 = data
    by_cases heq : data.length = vstr.length
    · rw [← heq, take_left]
      simp
    · have hne : data ≠ vstr := fun h => heq (congrArg List.length h)
      simp [heq, hne]
  | false =>
    obtain ⟨n, hn⟩ : ∃ n, zipIntSize (zipDecodeLength body).1 = some n := by
      rw [hstr] at henc
      exact isSome_iff_exists.mp (henc.resolve_left (by decide))
    have hsize : n ≤ (body.drop (zipDecodeLength body).2.1).length := by
      rw [hdata, zipDecodeLength_notStr hstr, hn]
      exact le_refl _
    have hval : bodyValue body =
        .int (zipLoadInteger (body.drop (zipDecodeLength body).2.1) (zipDecodeLength body).1) := by
      simp only [bodyValue, hstr]
      rfl
    rw [hval, Value.text, zipLoadInteger_append hn hsize]
    obtain ⟨hlo, hhi⟩ := zipLoadInteger_range (body.drop (zipDecodeLength body).2.1)
      (zipDecodeLength body).1
    generalize zipLoadInteger (body.drop (zipDecodeLength body).2.1) (zipDecodeLength body).1 = v at *
    have hiff := zipTryEncoding_eq_iff vstr hlo hhi
    cases htry : zipTryEncoding vstr with
    | none =>
      rw [htry] at hiff
      have hne : ¬ ll2string v = vstr := by
        rw [← hiff]
        simp
      simp [hne]
    | some found =>
      obtain ⟨w, enc⟩ := found
      rw [htry] at hiff
      simp only [some.injEq, Prod.mk.injEq, exists_eq_right'] at hiff
      exact decide_eq_decide.mpr (eq_comm.trans hiff)

theorem Entry.compare_eq {e : Entry} {prev : Nat} (hfits : e.Fits prev) (hlt : prev < 2 ^ 32)
    (hbody : BodyOk e.body) (rest sstr : Bytes) :
    ziplistCompare (e.bytes prev ++ rest) sstr = decide (e.text = sstr) := by
  rw [ziplistCompare, if_neg (Entry.head_ne_end hfits rest)]
  simp only [Entry.zipEntry_eq hfits hlt hbody, Entry.drop_data _ hbody]
  exact entryEquals_eq hbody

end Compare

section Search

variable {pre post rest es : List Entry} {e : Entry} {c fuel skip : Nat} {vstr : Bytes}

/-- One round at an entry. -/
theorem findLoop_entry (hvalid : ValidFrom 0 (pre ++ e :: rest)) (skipcnt : Nat) :
    findLoop (layoutBytes (pre ++ e :: rest) c) vstr skip (fuel + 1) (10 + total pre) skipcnt =
      match skipcnt with
      | 0 =>
        if e.text = vstr then some (10 + total pre)
        else findLoop (layoutBytes (pre ++ e :: rest) c) vstr skip fuel (10 + total (pre ++ [e])) skip
      | skipcnt + 1 =>
        findLoop (layoutBytes (pre ++ e :: rest) c) vstr skip fuel (10 + total (pre ++ [e]))
          skipcnt := by
  obtain ⟨behind, hdrop, hfits, hbody⟩ := layout_at hvalid c
  have hentry := layout_entry (c := c) hvalid
  have hnext : 10 + total pre + e.prevSize + (zipDecodeLength e.body).2.1 +
      (zipDecodeLength e.body).2.2 = 10 + total (pre ++ [e]) := by
    have hsize := Entry.size_eq hbody
    simp only [total_append, total_cons, total_nil]
    omega
  generalize layoutBytes (pre ++ e :: rest) c = zl at *
  generalize 10 + total pre = p at *
  have hprev : zipDecodePrevlensize (zl.drop p) = e.prevSize := by
    rw [hdrop, Entry.decodePrevlensize hfits]
  have hdecode : zipDecodeLength (zl.drop (p + e.prevSize)) = zipDecodeLength e.body := by
    rw [← drop_drop, hdrop, Entry.decodeLength hbody]
  have hdata : zl.drop (p + e.prevSize + (zipDecodeLength e.body).2.1) =
      e.body.drop (zipDecodeLength e.body).2.1 ++ behind := by
    rw [add_assoc, ← drop_drop, hdrop, Entry.drop_data _ hbody]
  rw [findLoop.eq_def]
  simp only [if_neg hentry, hprev, hdecode, hdata, hnext]
  cases skipcnt with
  | zero =>
    simp only [entryEquals_eq hbody]
    rw [show e.text = (bodyValue e.body).text from rfl]
    simp
  | succ skipcnt => rfl

/-- The elements of a list that are compared when `skipcnt` of them are left out first and `skip`
after each one. -/
def every {α : Type} (skip : Nat) : Nat → List α → List α
  | _, [] => []
  | 0, a :: l => a :: every skip skip l
  | skipcnt + 1, _ :: l => every skip skipcnt l

theorem getElem?_every {α : Type} (skip skipcnt : Nat) (l : List α) (j : Nat) :
    (every skip skipcnt l)[j]? = l[skipcnt + j * (skip + 1)]? := by
  induction l generalizing skipcnt j with
  | nil => simp [every]
  | cons a l ih =>
    cases skipcnt with
    | zero =>
      cases j with
      | zero => simp [every]
      | succ j =>
        rw [every, getElem?_cons_succ, ih, ← getElem?_cons_succ (a := a)]
        congr 1
        ring
    | succ skipcnt => rw [every, ih, add_right_comm, getElem?_cons_succ]

theorem findIdx?_eq_some_iff_getElem? {l : List Bytes} {t : Bytes} {j : Nat} :
    l.findIdx? (· = t) = some j ↔ l[j]? = some t ∧ ∀ i < j, l[i]? ≠ some t := by
  rw [findIdx?_eq_some_iff_getElem]
  constructor
  · rintro ⟨hj, heq, hbefore⟩
    refine ⟨by simpa [getElem?_eq_getElem hj] using heq, fun i hi => ?_⟩
    simpa [getElem?_eq_getElem (hi.trans hj)] using hbefore i hi
  · rintro ⟨heq, hbefore⟩
    have hj : j < l.length := (List.getElem?_eq_some_iff.mp heq).1
    refine ⟨hj, by simpa [getElem?_eq_getElem hj] using heq, fun i hi => ?_⟩
    simpa [getElem?_eq_getElem (hi.trans hj)] using hbefore i hi

/-- The loop finds the first of the compared entries that holds the string. -/
theorem findLoop_layout (c : Nat) (vstr : Bytes) (skipcnt : Nat)
    (hvalid : ValidFrom 0 (pre ++ post)) (hfuel : post.length < fuel) :
    findLoop (layoutBytes (pre ++ post) c) vstr skip fuel (10 + total pre) skipcnt =
      ((every skip skipcnt (post.map Entry.text)).findIdx? (· = vstr)).map fun i =>
        10 + total (pre ++ post.take (skipcnt + i * (skip + 1))) := by
  induction post generalizing pre fuel skipcnt with
  | nil =>
    obtain ⟨fuel, rfl⟩ := Nat.exists_eq_succ_of_ne_zero (by omega : fuel ≠ 0)
    rw [findLoop, if_pos (layout_end pre c)]
    simp [every]
  | cons e rest ih =>
    obtain ⟨fuel, rfl⟩ := Nat.exists_eq_succ_of_ne_zero (by omega : fuel ≠ 0)
    have hsplit : pre ++ e :: rest = (pre ++ [e]) ++ rest := by simp
    have hloop := fun skipcnt => @ih (pre ++ [e]) fuel skipcnt (hsplit ▸ hvalid)
      (by simpa using hfuel)
    rw [← hsplit] at hloop
    rw [findLoop_entry hvalid]
    cases skipcnt with
    | zero =>
      by_cases heq : e.text = vstr
      · simp [every, findIdx?_cons, heq]
      · simp only [heq, if_false, hloop, map_cons, every, findIdx?_cons, decide_false,
          Bool.false_eq_true, Option.map_map]
        congr 1
        funext i
        have hnext : 0 + (i + 1) * (skip + 1) = skip + i * (skip + 1) + 1 := by ring
        rw [Function.comp_apply, hnext, take_succ_cons, ← append_cons]
    | succ skipcnt =>
      simp only [hloop, map_cons, every]
      congr 1
      funext i
      rw [add_right_comm, take_succ_cons, ← append_cons]

theorem lenLoop_layout (c : Nat) (hvalid : ValidFrom 0 es) (hfuel : es.length < fuel) :
    lenLoop (layoutBytes es c) fuel ziplistHeaderSize 0 = es.length := by
  have hwalk := walk_layout (f := fun fuel p n => lenLoop (layoutBytes es c) fuel p n)
    (g := fun es n => n + es.length) (fun fuel => ?_) ?_ hfuel
  · exact (congrFun hwalk 0).trans (zero_add _)
  · have hend := layout_end es c
    rw [append_nil] at hend
    funext n
    exact if_pos hend
  · rintro pre e rest fuel rfl hrest
    funext n
    rw [lenLoop, if_neg (layout_entry hvalid), layout_rawlen hvalid, congrFun hrest (n + 1),
      length_cons]
    omega

end Search

section WellFormed

variable {zl vstr : Bytes} {k : Nat}

theorem Format.length_lt {es : List Entry} (h : Format zl es) : es.length < zl.length := by
  have hlt := length_lt_layoutBytes es (ziplistLength zl)
  rwa [← h.eq_layout] at hlt

/-- `ziplistFind` finds the first of the entries it compares that holds the string. -/
theorem ziplistFind_eq (vstr : Bytes) (skip : Nat) (h : WellFormed zl) :
    ziplistFind zl ziplistHeaderSize vstr skip =
      ((every skip 0 (values zl)).findIdx? (· = vstr)).map fun i => entryOffset zl (i * (skip + 1)) := by
  obtain ⟨es, hes⟩ := h
  have hloop := @findLoop_layout [] es _ skip (ziplistLength zl) vstr 0 hes.valid hes.length_lt
  rw [nil_append, ← hes.eq_layout] at hloop
  rw [ziplistFind, hes.values_eq]
  refine hloop.trans ?_
  apply Option.map_congr
  intro i hi
  have hsome : (every skip 0 (es.map Entry.text))[i]? ≠ none := by
    rw [getElem?_eq_getElem (findIdx?_eq_some_iff_getElem.mp hi).1]
    simp
  rw [getElem?_every, Ne, getElem?_eq_none_iff, length_map] at hsome
  rw [hes.entryOffset_eq (by omega), nil_append, zero_add]

/-- In a ziplist of pairs, `ziplistFind` with one entry skipped finds a first component. -/
theorem ziplistFind_pairs (vstr : Bytes) {pairs : List (Bytes × Bytes)} (h : WellFormed zl)
    (hvalues : values zl = pairs.flatMap fun p => [p.1, p.2]) :
    ziplistFind zl ziplistHeaderSize vstr 1 =
      (pairs.findIdx? (·.1 = vstr)).map fun i => entryOffset zl (2 * i) := by
  have hevery : every 1 0 (values zl) = pairs.map Prod.fst := by
    rw [hvalues]
    clear hvalues
    induction pairs with
    | nil => rfl
    | cons p pairs ih => exact congrArg (p.1 :: ·) ih
  rw [ziplistFind_eq vstr 1 h, hevery, findIdx?_map]
  simp only [mul_comm 2]
  rfl

theorem ziplistNext_eq (h : WellFormed zl) (hk : k < (values zl).length) :
    ziplistNext zl (entryOffset zl k) =
      if k + 1 < (values zl).length then some (entryOffset zl (k + 1)) else none := by
  obtain ⟨es, hes⟩ := h
  rw [hes.values_eq, length_map] at hk ⊢
  have hend := fun j => layout_end_take (c := ziplistLength zl) hes.valid j
  rw [← hes.eq_layout] at hend
  have hhere : byteAt zl (entryOffset zl k) ≠ zipEnd := by
    rw [hes.entryOffset_eq (by omega), Ne, hend]
    omega
  rw [ziplistNext, if_neg hhere]
  have hstep : entryOffset zl k + zipRawEntryLength (zl.drop (entryOffset zl k)) =
      entryOffset zl (k + 1) := rfl
  simp only [hstep]
  by_cases hlast : k + 1 < es.length
  · rw [if_pos hlast, if_neg]
    rw [hes.entryOffset_eq (by omega), hend]
    omega
  · rw [if_neg hlast, if_pos]
    rw [hes.entryOffset_eq (by omega), hend]
    omega

/-- What stands at the `k`-th entry. -/
theorem Format.drop_entry {es : List Entry} (h : Format zl es) (hk : k < es.length) :
    ∃ prev rest, zl.drop (entryOffset zl k) = es[k].bytes prev ++ rest ∧ es[k].Fits prev ∧
      prev < 2 ^ 32 ∧ BodyOk es[k].body := by
  have hsplit : es = es.take k ++ es[k] :: es.drop (k + 1) := by simp
  obtain ⟨behind, hat, hfits, hbody⟩ := layout_at (hsplit ▸ h.valid) (ziplistLength zl)
  rw [← hsplit, ← h.eq_layout, ← h.entryOffset_eq hk.le] at hat
  exact ⟨_, behind, hat, hfits, lastSize_lt (hsplit ▸ h.size_lt), hbody⟩

/-- Each value is read as a string, or as an integer that prints as the string. -/
theorem ziplistGet_eq (h : WellFormed zl) (hk : k < (values zl).length) :
    ∃ v, ziplistGet (zl.drop (entryOffset zl k)) = some v ∧ some v.text = (values zl)[k]? ∧
      ∀ n, v = .int n → -2 ^ 63 ≤ n ∧ n < 2 ^ 63 := by
  obtain ⟨es, hes⟩ := h
  rw [hes.values_eq, length_map] at hk
  obtain ⟨prev, rest, hdrop, hfits, hlt, hbody⟩ := hes.drop_entry hk
  refine ⟨bodyValue es[k].body, ?_, ?_, ?_⟩
  · rw [hdrop, Entry.get_eq hfits hlt hbody]
  · rw [hes.values_eq, getElem?_map, getElem?_eq_getElem hk]
    rfl
  · intro n hn
    unfold bodyValue at hn
    split at hn
    split_ifs at hn
    cases hn
    exact zipLoadInteger_range _ _

theorem ziplistCompare_eq (h : WellFormed zl) (hk : k < (values zl).length) (sstr : Bytes) :
    ziplistCompare (zl.drop (entryOffset zl k)) sstr = decide ((values zl)[k]? = some sstr) := by
  obtain ⟨es, hes⟩ := h
  rw [hes.values_eq, length_map] at hk
  obtain ⟨prev, rest, hdrop, hfits, hlt, hbody⟩ := hes.drop_entry hk
  rw [hdrop, Entry.compare_eq hfits hlt hbody, hes.values_eq, getElem?_map, getElem?_eq_getElem hk]
  simp

/-- The entries before the insertion point stay where they are. -/
theorem entryOffset_insert {s : Bytes} (h : WellFormed zl) (hk : k ≤ (values zl).length)
    (hsize : insertedBytes zl k s < 2 ^ 32) :
    entryOffset (ziplistInsert zl (entryOffset zl k) s) k = entryOffset zl k := by
  obtain ⟨es, hes⟩ := h
  rw [hes.values_eq, length_map] at hk
  rw [(hes.insertAt hk hsize).1.entryOffset_eq, insertLayout, take_left' (length_take_of_le hk),
    hes.entryOffset_eq hk]
  rw [insertLayout_length, take_append_drop]
  omega

/-- What an insertion of `s` before the `k`-th entry has to do: the memory is that of all entries,
these are the old ones with `s` among them, and there `s` is read back, as it is or as the integer
that prints as `s`. -/
def InsertsAt (zl : Bytes) (k : Nat) (s : Bytes) : Prop :=
  let inserted := ziplistInsert zl (entryOffset zl k) s
  ziplistBytes inserted = insertedBytes zl k s ∧ WellFormed inserted ∧
    values inserted = (values zl).take k ++ s :: (values zl).drop k ∧
    ∃ v, ziplistGet (inserted.drop (entryOffset zl k)) = some v ∧
      (v = .str s ∨ ∃ n, v = .int n ∧ ll2string n = s)

theorem insertsAt_of_lt {s : Bytes} (h : WellFormed zl) (hk : k ≤ (values zl).length)
    (hsize : insertedBytes zl k s < 2 ^ 32) : InsertsAt zl k s := by
  have hbytes : ziplistBytes (ziplistInsert zl (entryOffset zl k) s) = insertedBytes zl k s := by
    obtain ⟨es, hes⟩ := h
    rw [hes.values_eq, length_map] at hk
    rw [(hes.insertAt hk hsize).1.bytes_eq, insertedBytes, hes.entriesOf_eq]
  obtain ⟨hwf, hvalues⟩ := ziplistInsert_refines h hk hsize
  have hat : (values (ziplistInsert zl (entryOffset zl k) s))[k]? = some s := by
    rw [hvalues, getElem?_append_right (by simp), length_take, min_eq_left hk, Nat.sub_self]
    rfl
  obtain ⟨v, hv, htext, -⟩ := ziplistGet_eq hwf (List.getElem?_eq_some_iff.mp hat).1
  rw [hat] at htext
  rw [entryOffset_insert h hk hsize] at hv
  refine ⟨hbytes, hwf, hvalues, v, hv, ?_⟩
  cases v with
  | str b => exact Or.inl (congrArg _ (Option.some.inj htext))
  | int n => exact Or.inr ⟨n, rfl, Option.some.inj htext⟩

/-- A string that is inserted anywhere is read back, exactly if the new size of the ziplist fits its
32-bit field. A search compares every `skip + 1`-th entry with a string, like `ziplistCompare`, and
stops at the first one that holds it. -/
theorem ziplist_values_round_trip_iff (h : WellFormed zl) :
    (∀ k s, k ≤ (values zl).length → (InsertsAt zl k s ↔ insertedBytes zl k s < 2 ^ 32)) ∧
    (∀ t skip p, ziplistFind zl ziplistHeaderSize t skip = some p ↔
      ∃ j, p = entryOffset zl (j * (skip + 1)) ∧ (values zl)[j * (skip + 1)]? = some t ∧
        ∀ i < j, (values zl)[i * (skip + 1)]? ≠ some t) ∧
    ∀ t k, k < (values zl).length →
      (ziplistCompare (zl.drop (entryOffset zl k)) t = true ↔ (values zl)[k]? = some t) := by
  refine ⟨fun k s hk => ⟨fun hinserts => ?_, insertsAt_of_lt h hk⟩, fun t skip p => ?_, fun t k hk => ?_⟩
  · rw [← hinserts.1]
    exact readLE_lt 4 _
  · rw [ziplistFind_eq t skip h, Option.map_eq_some_iff]
    simp only [findIdx?_eq_some_iff_getElem?, getElem?_every, Nat.zero_add]
    exact exists_congr fun j => and_comm.trans (and_congr_left' eq_comm)
  · rw [ziplistCompare_eq h hk, decide_eq_true_iff]

/-- A number is inserted between two entries. -/
theorem ziplist_values_round_trip_digit : WellFormed (layoutBytes nearlyWide 2) ∧
    InsertsAt (layoutBytes nearlyWide 2) 1 [53] :=
  ⟨nearlyWide_wellFormed, ((ziplist_values_round_trip_iff nearlyWide_wellFormed).1 1 [53]
    (by decide +kernel)).mpr (by decide +kernel)⟩

/-- With a string of `2^32 - 1` bytes in an empty ziplist, `ziplistResize` is asked for `2^32 + 16`
bytes, which it takes for 16. The string is written behind them. -/
theorem ziplistInsert_long {s : Bytes} (hs : s.length = 2 ^ 32 - 1) :
    ziplistInsert ziplistNew ziplistHeaderSize s =
      [16, 0, 0, 0, 10, 0, 0, 0, 1, 0, 0, 128, 255, 255, 255, 255] ++ s := by
  have hraw : zipTryEncoding s = none := by
    rw [zipTryEncoding, if_pos (.inl (by omega))]
  have hheader : valueHeader s = [128, 255, 255, 255, 255] := by
    rw [valueHeader, valueEncoding, hraw, hs]
    rfl
  have hdata : valueData s = s := by
    rw [valueData, valueEncoding, hraw]
    rfl
  have hreq : (newEntry 0 s).size = 2 ^ 32 + 5 := by
    rw [← newEntry_size, hheader, hdata, hs]
    rfl
  have hsmall : decide ((0 : Int) = -4 ∧ 2 ^ 32 + 5 < 4) = false := rfl
  have hnext : (if false then 0 else (0 : Int)) = 0 := rfl
  have hbytes : ziplistBytes ziplistNew = 11 := by decide
  have hcut : (((11 : Nat) : Int) + (2 ^ 32 + 5 : Nat) + 0).toNat = 2 ^ 32 + 16 := by omega
  have hroom : makeRoom (ziplistResize ziplistNew (2 ^ 32 + 16)) ziplistHeaderSize 11 (2 ^ 32 + 5) 0
      false = [16, 0, 0, 0, 10, 0, 0, 0, 0, 0, 255, 0, 0, 0, 0, 255] := by decide
  have hstore : ∀ m : Bytes, m.length = 16 → store m 16 s = m ++ s := fun m hm => by
    rw [store, take_of_length_le (by omega), drop_of_length_le (by omega), append_nil]
  have hwrite : writeEntry [16, 0, 0, 0, 10, 0, 0, 0, 0, 0, 255, 0, 0, 0, 0, 255] ziplistHeaderSize 0
      [128, 255, 255, 255, 255] s =
        [16, 0, 0, 0, 10, 0, 0, 0, 0, 0, 0, 128, 255, 255, 255, 255] ++ s := hstore _ rfl
  rw [ziplistInsert_eq ziplistNew ziplistHeaderSize s (by decide) hreq (if_neg (by decide)) hsmall hnext]
  dsimp only
  rw [hbytes, hcut, if_neg (not_not_intro rfl), hroom, hheader, hdata, hwrite]
  exact ziplistIncrLength_one (a := 16) (b := 10) (c := 0) (by decide) ([0, 128, 255, 255, 255, 255] ++ s)

theorem ziplistNew_wellFormed : WellFormed ziplistNew :=
  have hformat : Format (layoutBytes [] 0) [] :=
    format_layout trivial (by decide) (by decide) (.inl rfl)
  ⟨[], hformat⟩

/-- The memory of 16 bytes is not that of a ziplist with this string. -/
theorem long_string_overflows_resize :
    WellFormed ziplistNew ∧ ¬ InsertsAt ziplistNew 0 (replicate (2 ^ 32 - 1) 97) := by
  refine ⟨ziplistNew_wellFormed, fun ⟨_, ⟨es, hes⟩, _⟩ => ?_⟩
  have hbytes := hes.zlbytes
  rw [show entryOffset ziplistNew 0 = ziplistHeaderSize from rfl,
    ziplistInsert_long (length_replicate ..), length_append, length_replicate] at hbytes
  have hfield : ziplistBytes ([16, 0, 0, 0, 10, 0, 0, 0, 1, 0, 0, 128, 255, 255, 255, 255] ++
    replicate (2 ^ 32 - 1) 97) = 16 := rfl
  rw [hfield] at hbytes
  exact absurd hbytes (by decide)

theorem ziplistLen_eq (h : WellFormed zl) :
    (ziplistLen zl).1 = (values zl).length ∧ WellFormed (ziplistLen zl).2 ∧
      values (ziplistLen zl).2 = values zl := by
  obtain ⟨es, hes⟩ := h
  have hcount := hes.zllen
  rw [hes.values_eq, length_map]
  unfold ziplistLen
  by_cases hsmall : ziplistLength zl < uint16Max
  · rw [if_pos hsmall]
    refine ⟨?_, ⟨es, hes⟩, hes.values_eq⟩
    omega
  · rw [if_neg hsmall]
    have hloop := lenLoop_layout (ziplistLength zl) hes.valid hes.length_lt
    rw [← hes.eq_layout] at hloop
    simp only [hloop]
    split_ifs with hfits
    · have hset : setZiplistLength zl es.length = layoutBytes es es.length := by
        conv_lhs => rw [hes.eq_layout]
        rw [layoutBytes, append_assoc, setZiplistLength_header, ← append_assoc, layoutBytes]
      have hformat : Format (layoutBytes es es.length) es :=
        format_layout hes.valid hes.size_lt (by simp only [uint16Max] at hfits; omega) (.inl rfl)
      rw [hset]
      exact ⟨trivial, ⟨es, hformat⟩, hformat.values_eq⟩
    · exact ⟨trivial, ⟨es, hes⟩, hes.values_eq⟩

end WellFormed

section Sizes

variable {zl s : Bytes} {es : List Entry} {k num : Nat}

/-- A bound on the bytes of a ziplist with these values, whatever the widths of its fields. -/
def textBytes (l : List Bytes) : Nat := (l.map fun s => s.length + 14).sum + 11

theorem zipDecodeLength_sizes (body : Bytes) :
    (zipDecodeLength body).2.1 ≤ 5 ∧
      (zipIsStr (zipDecodeLength body).1 = false →
        (zipDecodeLength body).2.1 = 1 ∧ (zipDecodeLength body).2.2 ≤ 8) := by
  constructor
  · simp only [zipDecodeLength]
    split_ifs <;> simp
  · intro hstr
    have hlen := zipDecodeLength_notStr hstr
    refine ⟨?_, ?_⟩
    · simp only [zipDecodeLength] at hstr ⊢
      split_ifs with hlt h6 h14
      · rfl
      · simp [h14, zipIsStr] at hstr
      · rw [if_pos hlt, if_neg h6, if_neg h14] at hstr
        have hle : zipEntryEncoding body &&& 0xc0 ≤ zipEntryEncoding body := Nat.and_le_left
        simp only [zipIsStr, decide_eq_false_iff_not] at hstr
        omega
      · rfl
    · rw [hlen]
      unfold zipIntSize
      split_ifs <;> simp

theorem Entry.size_le_text {e : Entry} (hbody : BodyOk e.body) : e.size ≤ e.text.length + 14 := by
  have hlen := hbody.1
  have hprev := e.prevSize_bounds
  obtain ⟨hheader, hint⟩ := zipDecodeLength_sizes e.body
  rw [Entry.size]
  cases hstr : zipIsStr (zipDecodeLength e.body).1 with
  | true =>
    have htext : e.text = (e.body.drop (zipDecodeLength e.body).2.1).take
        (zipDecodeLength e.body).2.2 := by
      simp only [Entry.text, bodyValue, hstr, if_true, Value.text]
    rw [htext, length_take, length_drop]
    omega
  | false =>
    have hsizes := hint hstr
    omega

theorem total_le_texts {prev : Nat} (hvalid : ValidFrom prev es) :
    total es + 11 ≤ textBytes (es.map Entry.text) := by
  induction es generalizing prev with
  | nil => exact le_refl _
  | cons e es ih =>
    have hrest := ih hvalid.2.2
    have he := Entry.size_le_text hvalid.2.1
    simp only [textBytes, map_cons, sum_cons, total_cons] at hrest ⊢
    omega

theorem textBytes_append (l l' : List Bytes) : textBytes (l ++ l') + 11 = textBytes l + textBytes l' := by
  simp only [textBytes, map_append, sum_append]
  omega

theorem insertedBytes_le (h : WellFormed zl) (hs : s.length < 2 ^ 32) :
    insertedBytes zl k s ≤ textBytes ((values zl).take k ++ s :: (values zl).drop k) := by
  obtain ⟨es, hes⟩ := h
  have hvalid : ValidFrom 0 (es.take k ++ es.drop k) := by
    rw [take_append_drop]
    exact hes.valid
  have hle := total_le_texts (insertLayout_valid hvalid hs)
  rw [insertLayout_texts _ _ hs, map_take, map_drop] at hle
  rw [insertedBytes, hes.entriesOf_eq, hes.values_eq]
  exact hle

theorem deletedBytes_le (k num : Nat) (h : WellFormed zl) :
    deletedBytes zl k num ≤ textBytes ((values zl).take k ++ (values zl).drop (k + num)) := by
  obtain ⟨es, hes⟩ := h
  have hle := total_le_texts (deleteLayout_valid hes.valid k num)
  rw [deleteLayout_texts, map_take, map_drop] at hle
  rw [deletedBytes, hes.entriesOf_eq, hes.values_eq]
  exact hle

end Sizes

end Redis.Ziplist
