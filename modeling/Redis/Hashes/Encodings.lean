import Redis.Hashes.Basic

/-! What the functions on a hash compute in its two encodings, in terms of the finite map that
the hash represents. -/
namespace Redis.Hashes

open ByteBuffer Util Ziplist List Option AList Finmap
open Keyspace (Table)

variable {s old : Bytes} {e : Sigma fun _ : Bytes => Bytes}
variable {a b : List Bytes} {fuel v : Nat} {α : Type}

abbrev Map : Type := Finmap fun _ : Bytes => Bytes

/-! ### The ziplist encoding -/

abbrev Entries : Type := List (Sigma fun _ : Bytes => Bytes)

def toPair (e : Sigma fun _ : Bytes => Bytes) : Bytes × Bytes := (e.1, e.2)

/-- Fields and values in turn. -/
def flat (l : Entries) : List Bytes := (l.map toPair).flatMap fun p => [p.1, p.2]

@[simp] theorem flat_nil : flat [] = [] := rfl

@[simp] theorem flat_cons (e : Sigma fun _ : Bytes => Bytes) (l : Entries) :
    flat (e :: l) = e.1 :: e.2 :: flat l := rfl

@[simp] theorem flat_append (l l' : Entries) : flat (l ++ l') = flat l ++ flat l' := by
  simp [flat]

@[simp] theorem flat_length (l : Entries) : (flat l).length = 2 * l.length := by
  induction l with
  | nil => rfl
  | cons e l ih =>
    simp only [flat_cons, length_cons, ih]
    omega

/-- A ziplist with these fields and values, small enough for its header. -/
structure ZiplistHolds (zl : Bytes) (l : Entries) : Prop where
  wellFormed : WellFormed zl
  values : values zl = flat l
  size : textBytes (flat l) < 2 ^ 32

theorem uintArg_of_lt (hs : s.length < 2 ^ 32) : uintArg s = s := by
  rw [uintArg, Nat.mod_eq_of_lt hs, take_length]

/-- A field is not there, or there is one place where it stands. -/
theorem findIdx_cases (l : Entries) (field : Bytes) :
    (l.dlookup field = none ∧ (l.map toPair).findIdx? (·.1 = field) = none) ∨
      ∃ pre old post, l = pre ++ ⟨field, old⟩ :: post ∧ field ∉ pre.keys ∧
        l.dlookup field = some old ∧
        (l.map toPair).findIdx? (·.1 = field) = some pre.length := by
  induction l with
  | nil => exact .inl ⟨rfl, rfl⟩
  | cons e l ih =>
    obtain ⟨key, value⟩ := e
    rcases eq_or_ne key field with rfl | hkey
    · exact .inr ⟨[], value, l, rfl, not_mem_nil, by simp,
        by simp [toPair, findIdx?_cons]⟩
    · have hlookup : dlookup field (⟨key, value⟩ :: l) = l.dlookup field :=
        dlookup_cons_ne l _ (Ne.symm hkey)
      rcases ih with ⟨hnone, hidx⟩ | ⟨pre, old, post, rfl, hpre, hsome, hidx⟩
      · left
        refine ⟨hlookup.trans hnone, ?_⟩
        simp only [map_cons, findIdx?_cons, toPair, hkey, decide_false,
          Bool.false_eq_true, if_false, map_eq_none_iff]
        exact hidx
      · right
        refine ⟨⟨key, value⟩ :: pre, old, post, rfl, ?_, hlookup.trans hsome, ?_⟩
        · rw [keys_cons, mem_cons]
          exact fun h => h.elim (Ne.symm hkey) hpre
        · simp only [map_cons, findIdx?_cons, toPair, hkey, decide_false,
            Bool.false_eq_true, if_false]
          rw [hidx]
          rfl

variable {zl field value : Bytes} {l pre post : Entries}

theorem position_zero {n : Nat} (hn : 0 < n) : position n 0 = some 0 := by
  rw [position, if_neg (by norm_num), if_pos (by exact_mod_cast hn)]
  rfl

/-- The search for a field. -/
theorem ZiplistHolds.findField_cases (h : ZiplistHolds zl l) (hfield : field.length < 2 ^ 32) :
    (l.dlookup field = none ∧ findField zl field = none) ∨
      ∃ pre old post, l = pre ++ ⟨field, old⟩ :: post ∧ field ∉ pre.keys ∧
        l.dlookup field = some old ∧
        findField zl field = some (entryOffset zl (2 * pre.length)) := by
  have hindex := ziplistIndex_eq h.wellFormed 0
  have hfind := ziplistFind_pairs field h.wellFormed h.values
  rw [findField, hindex, h.values, flat_length, uintArg_of_lt hfield]
  cases l with
  | nil => exact .inl ⟨rfl, rfl⟩
  | cons e l =>
    rw [position_zero (by simp)]
    simp only [map_some]
    rw [show entryOffset zl 0 = ziplistHeaderSize from rfl, hfind]
    rcases findIdx_cases (e :: l) field with ⟨hnone, hidx⟩ | ⟨pre, old, post, hl, hpre, hsome, hidx⟩
    · exact .inl ⟨hnone, by rw [hidx]; rfl⟩
    · exact .inr ⟨pre, old, post, hl, hpre, hsome, by rw [hidx]; rfl⟩

theorem getElem?_flat (i : Nat) :
    (flat (pre ++ e :: post))[2 * pre.length + i]? = (e.1 :: e.2 :: flat post)[i]? := by
  rw [flat_append, getElem?_append_right (by simp), flat_length, Nat.add_sub_cancel_left, flat_cons]

theorem ZiplistHolds.length_values (h : ZiplistHolds zl (pre ++ e :: post)) :
    (Ziplist.values zl).length = 2 * (pre.length + (post.length + 1)) := by
  rw [h.values, flat_length, length_append, length_cons]

/-- The value after a field. -/
theorem ZiplistHolds.next_field (h : ZiplistHolds zl (pre ++ e :: post)) :
    ziplistNext zl (entryOffset zl (2 * pre.length)) = some (entryOffset zl (2 * pre.length + 1)) := by
  have hlen := h.length_values
  rw [ziplistNext_eq h.wellFormed (by omega), if_pos (by omega)]

/-- The field after a value, if there is one. -/
theorem ZiplistHolds.next_value (h : ZiplistHolds zl (pre ++ e :: post)) :
    ziplistNext zl (entryOffset zl (2 * pre.length + 1)) =
      if post = [] then none else some (entryOffset zl (2 * (pre ++ [e]).length)) := by
  have hlen := h.length_values
  rw [ziplistNext_eq h.wellFormed (by omega)]
  cases post with
  | nil => rw [if_neg (by rw [hlen]; simp; omega), if_pos rfl]
  | cons e' post =>
    rw [if_pos (by rw [hlen]; simp; omega), if_neg (by simp), length_append]
    rfl

/-- Reading the value of a field. -/
theorem ZiplistHolds.getFromZiplist (h : ZiplistHolds zl l) (hfield : field.length < 2 ^ 32) :
    ∃ found, hashTypeGetFromZiplist zl field = some found ∧ found.map Value.text = l.dlookup field ∧
      ∀ n, found = some (.int n) → -2 ^ 63 ≤ n ∧ n < 2 ^ 63 := by
  rw [hashTypeGetFromZiplist]
  rcases h.findField_cases hfield with ⟨hnone, hfind⟩ | ⟨pre, old, post, rfl, -, hsome, hfind⟩
  · rw [hfind]
    exact ⟨none, rfl, hnone.symm, fun n hn => nomatch hn⟩
  · have hlen := h.length_values
    obtain ⟨v, hget, htext, hrange⟩ :=
      ziplistGet_eq (k := 2 * pre.length + 1) h.wellFormed (by omega)
    have hvalue : some v.text = some old := htext.trans (by rw [h.values, getElem?_flat 1]; rfl)
    rw [hfind]
    simp only [h.next_field, bind_eq_bind, bind_some, hget]
    refine ⟨some v, rfl, ?_, fun n hn => hrange n (Option.some.inj hn)⟩
    rw [hsome, map_some, hvalue]

/-- The offset of an entry depends on those before it only. -/
theorem entryOffset_delete {k : Nat} (h : WellFormed zl) (hk : k < (values zl).length)
    (hsize : deletedBytes zl k 1 < 2 ^ 32) :
    entryOffset (ziplistDelete zl (entryOffset zl k)) k = entryOffset zl k := by
  obtain ⟨es, hes⟩ := h
  rw [hes.values_eq, length_map] at hk
  rw [deletedBytes, hes.entriesOf_eq] at hsize
  have hdel := hes.deleteAt hk (by norm_num) hsize
  have htake : (deleteLayout (es.take k) (es.drop (k + 1))).take k = es.take k := by
    have hlen : (es.take k).length = k := by
      rw [length_take]
      omega
    cases es.drop (k + 1) with
    | nil => rw [deleteLayout, take_of_length_le (le_of_eq hlen)]
    | cons e rest => rw [deleteLayout, take_append_of_le_length (by omega), take_of_length_le
        (le_of_eq hlen)]
  have hle : k ≤ (deleteLayout (es.take k) (es.drop (k + 1))).length := by
    rw [deleteLayout_length, length_take]
    omega
  rw [ziplistDelete, hes.entryOffset_eq (by omega), hdel.entryOffset_eq hle, htake]

theorem textBytes_cons (s : Bytes) (l : List Bytes) :
    textBytes (s :: l) = s.length + 14 + textBytes l := by
  simp only [textBytes, map_cons, sum_cons]
  omega

theorem textBytes_middle (l : List Bytes) (s : Bytes) (l' : List Bytes) :
    textBytes (l ++ s :: l') = textBytes (l ++ l') + (s.length + 14) := by
  have h := textBytes_append l (s :: l')
  have h' := textBytes_append l l'
  rw [textBytes_cons] at h
  omega

/-- Deleting one entry, at its offset. -/
theorem delete_entry (h : WellFormed zl) (hvalues : values zl = a ++ s :: b)
    (hsize : textBytes (values zl) < 2 ^ 32) :
    WellFormed (ziplistDelete zl (entryOffset zl a.length)) ∧
      values (ziplistDelete zl (entryOffset zl a.length)) = a ++ b ∧
      entryOffset (ziplistDelete zl (entryOffset zl a.length)) a.length = entryOffset zl a.length := by
  have hk : a.length < (values zl).length := by simp [hvalues]
  have hparts : (values zl).take a.length ++ (values zl).drop (a.length + 1) = a ++ b := by
    rw [hvalues, take_left, ← drop_drop, drop_left]
    rfl
  have hdeleted : deletedBytes zl a.length 1 < 2 ^ 32 := by
    have hle := deletedBytes_le a.length 1 h
    rw [hparts] at hle
    rw [hvalues, textBytes_middle] at hsize
    omega
  obtain ⟨hwell, hvals⟩ := ziplistDeleteAt_refines h hk hdeleted
  exact ⟨hwell, hvals.trans hparts, entryOffset_delete h hk hdeleted⟩

theorem insert_entry (h : WellFormed zl) (hvalues : values zl = a ++ b)
    (hs : s.length < 2 ^ 32) (hsize : textBytes (a ++ s :: b) < 2 ^ 32) :
    WellFormed (ziplistInsert zl (entryOffset zl a.length) s) ∧
      values (ziplistInsert zl (entryOffset zl a.length) s) = a ++ s :: b := by
  have hparts : (values zl).take a.length ++ s :: (values zl).drop a.length = a ++ s :: b := by
    rw [hvalues, take_left, drop_left]
  have hinserted : insertedBytes zl a.length s < 2 ^ 32 := by
    have hle := insertedBytes_le (k := a.length) h hs
    rw [hparts] at hle
    omega
  have hk : a.length ≤ (values zl).length := by simp [hvalues]
  obtain ⟨hwell, hvals⟩ := ziplistInsert_refines h hk hinserted
  exact ⟨hwell, hvals.trans hparts⟩

theorem push_entry (h : WellFormed zl) (hs : s.length < 2 ^ 32)
    (hsize : textBytes (values zl ++ [s]) < 2 ^ 32) :
    WellFormed (ziplistPush zl s .tail) ∧ values (ziplistPush zl s .tail) = values zl ++ [s] := by
  rw [ziplistPush_eq h]
  exact insert_entry h (append_nil _).symm hs hsize

theorem flat_middle (pre : Entries) (field value : Bytes) (post : Entries) :
    flat (pre ++ ⟨field, value⟩ :: post) = (flat pre ++ [field]) ++ value :: flat post := by
  simp

/-- A field that is there gets another value. -/
theorem ZiplistHolds.set_present (h : ZiplistHolds zl (pre ++ ⟨field, old⟩ :: post))
    (hvalue : value.length < 2 ^ 32)
    (hsize : textBytes (flat (pre ++ ⟨field, value⟩ :: post)) < 2 ^ 32) :
    ZiplistHolds (ziplistInsert (ziplistDelete zl (entryOffset zl (2 * pre.length + 1)))
      (entryOffset zl (2 * pre.length + 1)) value) (pre ++ ⟨field, value⟩ :: post) := by
  have hlen : (flat pre ++ [field]).length = 2 * pre.length + 1 := by simp
  have hvals := h.values
  have hold := h.size
  rw [flat_middle] at hvals hold hsize
  rw [← hlen]
  obtain ⟨hwell, hdel, hoff⟩ := delete_entry h.wellFormed hvals (hvals ▸ hold)
  obtain ⟨hwell', hins⟩ := insert_entry hwell hdel hvalue hsize
  rw [hoff] at hwell' hins
  refine ⟨hwell', ?_, ?_⟩
  · rw [hins, flat_middle]
  · rw [flat_middle]
    exact hsize

/-- A new field goes to the end. -/
theorem ZiplistHolds.set_absent (h : ZiplistHolds zl l) (hfield : field.length < 2 ^ 32)
    (hvalue : value.length < 2 ^ 32) (hsize : textBytes (flat (l ++ [⟨field, value⟩])) < 2 ^ 32) :
    ZiplistHolds (ziplistPush (ziplistPush zl field .tail) value .tail) (l ++ [⟨field, value⟩]) := by
  have hflat : flat (l ++ [⟨field, value⟩]) = flat l ++ [field] ++ [value] := by simp
  have hsizeField : textBytes (Ziplist.values zl ++ [field]) < 2 ^ 32 := by
    have hmiddle := textBytes_middle (flat l ++ [field]) value []
    rw [hflat] at hsize
    rw [append_nil] at hmiddle
    rw [h.values]
    omega
  obtain ⟨hwell, hvals⟩ := push_entry h.wellFormed hfield hsizeField
  have hvals' : Ziplist.values (ziplistPush zl field .tail) ++ [value] = flat (l ++ [⟨field, value⟩]) := by
    rw [hvals, h.values, hflat]
  obtain ⟨hwell', hvals''⟩ := push_entry hwell hvalue (hvals' ▸ hsize)
  exact ⟨hwell', hvals''.trans hvals', hsize⟩

/-- A field and its value are deleted at the same offset. -/
theorem ZiplistHolds.delete_present (h : ZiplistHolds zl (pre ++ ⟨field, old⟩ :: post)) :
    ZiplistHolds (ziplistDelete (ziplistDelete zl (entryOffset zl (2 * pre.length)))
      (entryOffset zl (2 * pre.length))) (pre ++ post) := by
  have hvals := h.values
  have hold := h.size
  rw [flat_append, flat_cons] at hvals hold
  have hsizes := textBytes_middle (flat pre) field (old :: flat post)
  have hsizes' := textBytes_middle (flat pre) old (flat post)
  obtain ⟨hwell, hdel, hoff⟩ := delete_entry h.wellFormed hvals (hvals ▸ hold)
  have hsmall : textBytes (flat pre ++ old :: flat post) < 2 ^ 32 := by
    simp only at hold hsizes
    omega
  obtain ⟨hwell', hdel', -⟩ := delete_entry hwell hdel (hdel ▸ hsmall)
  rw [hoff, flat_length] at hwell' hdel'
  refine ⟨hwell', ?_, ?_⟩
  · rw [hdel', flat_append]
  · rw [flat_append]
    omega

/-! ### Iteration -/

/-- The pointers after some pairs. -/
def cursorAt (zl : Bytes) : Nat → Option (Nat × Nat)
  | 0 => none
  | i + 1 => some (entryOffset zl (2 * i), entryOffset zl (2 * i + 1))

theorem ZiplistHolds.next_cons (h : ZiplistHolds zl (pre ++ e :: post)) :
    hashTypeNext zl (cursorAt zl pre.length) = some (cursorAt zl (pre.length + 1)) := by
  have hstart : advanceCursor zl (cursorAt zl pre.length) =
      some (entryOffset zl (2 * pre.length)) := by
    rcases eq_nil_or_concat' pre with rfl | ⟨front, last, rfl⟩
    · have hindex := ziplistIndex_eq h.wellFormed 0
      rw [position_zero (by simp [h.values])] at hindex
      exact hindex
    · have hsplit : (front ++ [last]) ++ e :: post = front ++ last :: e :: post := by simp
      rw [hsplit] at h
      have hnext := h.next_value
      rw [if_neg (by simp)] at hnext
      rw [show (front ++ [last]).length = front.length + 1 by simp] at hnext ⊢
      exact hnext
  rw [hashTypeNext, hstart]
  simp only [h.next_field, bind_eq_bind, bind_some]
  rfl

theorem ZiplistHolds.next_end (h : ZiplistHolds zl l) :
    hashTypeNext zl (cursorAt zl l.length) = some none := by
  rcases eq_nil_or_concat' l with rfl | ⟨front, last, rfl⟩
  · have hindex := ziplistIndex_eq h.wellFormed 0
    rw [h.values] at hindex
    have hnone : ziplistIndex zl 0 = none := hindex
    rw [hashTypeNext, length_nil, cursorAt, advanceCursor, hnone]
  · have hnext := h.next_value
    rw [if_pos rfl] at hnext
    rw [show (front ++ [last]).length = front.length + 1 by simp, hashTypeNext, cursorAt,
      advanceCursor, hnext]

theorem ZiplistHolds.current (h : ZiplistHolds zl (pre ++ e :: post)) :
    hashTypeCurrent zl (entryOffset zl (2 * pre.length)) = some e.1 ∧
      hashTypeCurrent zl (entryOffset zl (2 * pre.length + 1)) = some e.2 := by
  have hlen := h.length_values
  have hread : ∀ k s, k < (Ziplist.values zl).length → (Ziplist.values zl)[k]? = some s →
      hashTypeCurrent zl (entryOffset zl k) = some s := by
    intro k s hk hs
    obtain ⟨v, hget, htext, -⟩ := ziplistGet_eq h.wellFormed hk
    rw [hashTypeCurrent, hget, map_some, htext, hs]
  constructor
  · exact hread _ _ (by omega) (by rw [h.values]; exact getElem?_flat 0)
  · exact hread _ _ (by omega) (by rw [h.values]; exact getElem?_flat 1)

/-- A loop over the iterator is a loop over the fields and values. -/
theorem ZiplistHolds.iterate_eq (pre : Entries) (body : α → Bytes → Bytes → Option α)
    (h : ZiplistHolds zl (pre ++ post)) (hfuel : post.length ≤ fuel) (acc : α) :
    iterate zl body (fuel + 1) (cursorAt zl pre.length) acc =
      post.foldlM (fun acc e => body acc e.1 e.2) acc := by
  induction post generalizing pre fuel acc with
  | nil =>
    rw [append_nil] at h
    rw [iterate, h.next_end]
    rfl
  | cons e post ih =>
    obtain ⟨fuel, rfl⟩ := Nat.exists_eq_add_of_le' (Nat.zero_lt_of_lt hfuel)
    obtain ⟨hfield, hvalue⟩ := h.current
    rw [iterate, h.next_cons]
    simp only [cursorAt, hfield, hvalue, bind_eq_bind, bind_some, foldlM_cons]
    cases hbody : body acc e.1 e.2 with
    | none => rfl
    | some acc' =>
      have hsplit : pre ++ e :: post = (pre ++ [e]) ++ post := by simp
      have hrest := ih (pre ++ [e]) (hsplit ▸ h) (Nat.le_of_succ_le_succ hfuel) acc'
      rw [length_append] at hrest
      exact hrest

theorem ZiplistHolds.length_le (h : ZiplistHolds zl l) : l.length ≤ zl.length := by
  obtain ⟨es, hes⟩ := h.wellFormed
  have hlen := congrArg length (hes.values_eq.symm.trans h.values)
  rw [length_map, flat_length] at hlen
  have hlt := hes.length_lt
  omega

theorem ZiplistHolds.iterate_all (body : α → Bytes → Bytes → Option α)
    (h : ZiplistHolds zl l) (acc : α) :
    iterate zl body (zl.length + 1) none acc = l.foldlM (fun acc e => body acc e.1 e.2) acc := by
  exact ZiplistHolds.iterate_eq [] body h h.length_le acc

/-! ### The map that a hash represents -/

/-- The number of fields. -/
def size (m : Map) : Nat := Multiset.card m.entries

inductive Represents : Hash → Map → Prop where
  | ziplist {zl : Bytes} {m : Map} (t : Table Bytes) (h : ZiplistHolds zl t.entries)
      (hm : t.toFinmap = m) : Represents (.ziplist zl) m
  | ht {m : Map} (t : Table Bytes)
      (hshort : ∀ e ∈ t.entries, e.1.length < 2 ^ 32 ∧ e.2.length < 2 ^ 32) (hm : t.toFinmap = m) :
      Represents (.ht t) m

/-- A ziplist has this many bytes left. -/
def Room : Hash → Nat → Prop
  | .ziplist zl, n => textBytes (values zl) + n < 2 ^ 32
  | .ht _, _ => True

theorem Room.mono {h : Hash} {n n' : Nat} (hroom : Room h n') (hle : n ≤ n') : Room h n := by
  cases h with
  | ziplist zl =>
    simp only [Room] at hroom ⊢
    omega
  | ht t => trivial

section Maps

variable {t : Table Bytes}

/-- The entries in another order. -/
theorem exists_table {l : Entries} (hperm : l.Perm t.entries) :
    ∃ t' : Table Bytes, t'.entries = l ∧ t'.toFinmap = t.toFinmap :=
  ⟨⟨l, (perm_nodupKeys hperm).mpr t.nodupKeys⟩, rfl, toFinmap_eq.mpr hperm⟩

theorem kerase_split (hpre : field ∉ pre.keys) :
    (pre ++ ⟨field, old⟩ :: post).kerase field = pre ++ post := by
  rw [kerase_append_right hpre]
  exact congrArg (pre ++ ·) (kerase_cons_eq rfl)

theorem size_erase (m : Map) (field : Bytes) :
    size m = size (m.erase field) + if (m.lookup field).isSome then 1 else 0 := by
  induction m using induction_on with
  | H t =>
    rw [erase_toFinmap, lookup_toFinmap]
    change t.entries.length = (t.entries.kerase field).length + _
    rcases findIdx_cases t.entries field with ⟨hnone, -⟩ | ⟨pre, old, post, hl, hpre, hsome, -⟩
    · have hlookup : t.lookup field = none := hnone
      rw [kerase_of_notMem_keys (dlookup_eq_none.mp hnone), hlookup]
      rfl
    · have hlookup : t.lookup field = some old := hsome
      rw [hl, kerase_split hpre, hlookup]
      simp
      omega

theorem size_insert (m : Map) (field value : Bytes) :
    size (m.insert field value) = size m + if (m.lookup field).isSome then 0 else 1 := by
  have herase := size_erase m field
  have hinsert : size (m.insert field value) = size (m.erase field) + 1 := by
    induction m using induction_on with
    | H t =>
      rw [insert_toFinmap, erase_toFinmap]
      rfl
  split_ifs at herase ⊢ <;> omega

/-- No field is added twice, so that the conversion does not panic. -/
theorem foldlM_dictAdd (l : Entries) (t : Table Bytes) (hnodup : (l ++ t.entries).NodupKeys) :
    ∃ t', l.foldlM (fun acc e => dictAdd acc e.1 e.2) t = some t' ∧
      t'.entries.Perm (l ++ t.entries) := by
  induction l generalizing t with
  | nil => exact ⟨t, rfl, List.Perm.refl _⟩
  | cons e l ih =>
    have hperm : (e :: l ++ t.entries).Perm (l ++ e :: t.entries) := perm_middle.symm
    have hnew : e.1 ∉ t.entries.keys := by
      have hnotin := (nodupKeys_cons.mp hnodup).1
      exact fun hmem => hnotin (by
        change e.1 ∈ (l ++ t.entries).map Sigma.fst
        rw [map_append, mem_append]
        exact .inr hmem)
    have hlookup : t.lookup e.1 = none := dlookup_eq_none.mpr hnew
    have hentries : (t.insert e.1 e.2).entries = e :: t.entries := by
      rw [entries_insert, kerase_of_notMem_keys hnew]
    have hnodup' : (l ++ (t.insert e.1 e.2).entries).NodupKeys := by
      rw [hentries]
      exact (perm_nodupKeys hperm).mp hnodup
    obtain ⟨t', hfold, hperm'⟩ := ih (t.insert e.1 e.2) hnodup'
    refine ⟨t', ?_, ?_⟩
    · rw [foldlM_cons, dictAdd, hlookup]
      exact hfold
    · rw [hentries] at hperm'
      exact hperm'.trans hperm.symm

end Maps

section Functions

variable {h' : Hash} {m : Map} {cfg : Config} {n : Nat}

theorem length_lt_of_mem_flat {l : List Bytes} (hmem : s ∈ l) (hsize : textBytes l < 2 ^ 32) :
    s.length < 2 ^ 32 := by
  obtain ⟨a, b, rfl⟩ := append_of_mem hmem
  rw [textBytes_middle] at hsize
  omega

theorem mem_flat {l : Entries} (hmem : e ∈ l) : e.1 ∈ flat l ∧ e.2 ∈ flat l := by
  obtain ⟨a, b, rfl⟩ := append_of_mem hmem
  simp

/-- The conversion does not panic and keeps the map. -/
theorem Represents.convert {zl : Bytes} (h : Represents (.ziplist zl) m) :
    ∃ t, hashTypeConvert (.ziplist zl) = some (.ht t) ∧ Represents (.ht t) m := by
  cases h with
  | ziplist t hzl hm =>
    obtain ⟨t', hfold, hperm⟩ := foldlM_dictAdd t.entries ∅ (by
      change (t.entries ++ []).NodupKeys
      rw [append_nil]
      exact t.nodupKeys)
    have hperm' : t'.entries.Perm t.entries := by
      change t'.entries.Perm (t.entries ++ []) at hperm
      rwa [append_nil] at hperm
    refine ⟨t', ?_, .ht t' ?_ ((toFinmap_eq.mpr hperm').trans hm)⟩
    · rw [hashTypeConvert, hzl.iterate_all, hfold]
      rfl
    · intro e he
      obtain ⟨hfield, hvalue⟩ := mem_flat (hperm'.mem_iff.mp he)
      exact ⟨length_lt_of_mem_flat hfield hzl.size, length_lt_of_mem_flat hvalue hzl.size⟩

/-- The ziplist part of a change: the map is updated, and what is used up is bounded. -/
theorem ZiplistHolds.ziplistSet_eq {zl : Bytes} {t : Table Bytes} (h : ZiplistHolds zl t.entries)
    (hfield : field.length < 2 ^ 32) (hvalue : value.length < 2 ^ 32)
    (hroom : textBytes (flat t.entries) + (field.length + value.length + 28 + n) < 2 ^ 32) :
    ∃ (zl' : Bytes) (t' : Table Bytes),
      ziplistSet zl field value = some (zl', (t.lookup field).isSome) ∧
      ZiplistHolds zl' t'.entries ∧ t'.toFinmap = (t.insert field value).toFinmap ∧
      textBytes (flat t'.entries) + n < 2 ^ 32 := by
  rw [ziplistSet, uintArg_of_lt hfield, uintArg_of_lt hvalue]
  rcases h.findField_cases hfield with ⟨hnone, hfind⟩ | ⟨pre, old, post, hl, hpre, hsome, hfind⟩
  · have hlookup : t.lookup field = none := hnone
    have hsize : textBytes (flat (t.entries ++ [⟨field, value⟩])) =
        textBytes (flat t.entries) + (field.length + value.length + 28) := by
      have h1 := textBytes_middle (flat t.entries) field [value]
      have h2 := textBytes_middle (flat t.entries) value []
      rw [append_nil] at h2
      rw [flat_append, flat_cons, flat_nil]
      simp only at h1 h2 ⊢
      omega
    have hperm : List.Perm (t.entries ++ [⟨field, value⟩]) (t.insert field value).entries := by
      rw [entries_insert, kerase_of_notMem_keys (dlookup_eq_none.mp hnone)]
      exact perm_append_singleton _ _
    obtain ⟨t', hentries, hmap⟩ := exists_table hperm
    rw [hfind, hlookup]
    refine ⟨_, t', rfl, ?_, hmap, ?_⟩
    · rw [hentries]
      exact h.set_absent hfield hvalue (by omega)
    · rw [hentries]
      omega
  · have hlookup : t.lookup field = some old := hsome
    rw [hl] at h hroom
    have hsize : textBytes (flat (pre ++ ⟨field, value⟩ :: post)) + old.length =
        textBytes (flat (pre ++ ⟨field, old⟩ :: post)) + value.length := by
      have h1 := textBytes_middle (flat pre ++ [field]) value (flat post)
      have h2 := textBytes_middle (flat pre ++ [field]) old (flat post)
      rw [flat_middle, flat_middle]
      omega
    have hperm : (pre ++ ⟨field, value⟩ :: post).Perm (t.insert field value).entries := by
      rw [entries_insert, hl, kerase_split hpre]
      exact perm_middle
    obtain ⟨t', hentries, hmap⟩ := exists_table hperm
    rw [hfind, hlookup]
    simp only [h.next_field, bind_eq_bind, bind_some]
    refine ⟨_, t', rfl, ?_, hmap, ?_⟩
    · rw [hentries]
      exact h.set_present hvalue (by omega)
    · rw [hentries]
      omega

variable (h : Represents h' m)
include h

theorem Represents.getValue (hfield : field.length < 2 ^ 32) :
    ∃ found, hashTypeGetValue h' field = some found ∧ found.map Value.text = m.lookup field ∧
      ∀ n, found = some (.int n) → -2 ^ 63 ≤ n ∧ n < 2 ^ 63 := by
  cases h with
  | ziplist t hzl hm =>
    rw [← hm, lookup_toFinmap]
    exact hzl.getFromZiplist hfield
  | ht t hshort hm =>
    rw [← hm, lookup_toFinmap]
    refine ⟨_, rfl, ?_, fun n hn => ?_⟩
    · cases hlookup : t.lookup field with
      | none => rfl
      | some value =>
        have hmem : ⟨field, value⟩ ∈ t.entries := mem_lookup_iff.mp hlookup
        rw [map_some, map_some, Value.text, uintArg_of_lt (hshort _ hmem).2]
    · cases hlookup : t.lookup field with
      | none | some value => simp [hlookup] at hn

theorem Represents.getValueLength (hfield : field.length < 2 ^ 32) :
    hashTypeGetValueLength h' field = some (((m.lookup field).map length).getD 0) := by
  obtain ⟨found, hget, htext, hrange⟩ := h.getValue hfield
  cases h with
  | ziplist t hzl hm =>
    rw [hashTypeGetValueLength, show hashTypeGetFromZiplist _ _ = _ from hget, ← htext]
    cases found with
    | none => rfl
    | some v =>
      cases v with
      | str s => rfl
      | int n =>
        obtain ⟨hlo, hhi⟩ := hrange n rfl
        exact congrArg some (sdigits10_eq hlo hhi)
  | ht t hshort hm =>
    rw [← hm, lookup_toFinmap]
    rfl

theorem Represents.exists (hfield : field.length < 2 ^ 32) :
    hashTypeExists h' field = some (m.lookup field).isSome := by
  obtain ⟨found, hget, htext, -⟩ := h.getValue hfield
  cases h with
  | ziplist t hzl hm =>
    rw [hashTypeExists, show hashTypeGetFromZiplist _ _ = _ from hget, ← htext, isSome_map]
    rfl
  | ht t hshort hm =>
    rw [← hm, lookup_toFinmap]
    rfl

theorem Represents.length :
    (hashTypeLength h').1 = size m ∧ Represents (hashTypeLength h').2 m := by
  cases h with
  | ziplist t hzl hm =>
    obtain ⟨hlen, hwell, hvals⟩ := ziplistLen_eq hzl.wellFormed
    refine ⟨?_, .ziplist t ⟨hwell, hvals.trans hzl.values, hzl.size⟩ hm⟩
    rw [hashTypeLength, hlen, hzl.values, flat_length, ← hm]
    exact Nat.mul_div_cancel_left _ (by norm_num)
  | ht t hshort hm =>
    refine ⟨?_, .ht t hshort hm⟩
    rw [← hm]
    rfl

theorem Room.length (hroom : Room h' n) : Room (hashTypeLength h').2 n := by
  cases h with
  | ziplist t hzl hm =>
    obtain ⟨-, -, hvals⟩ := ziplistLen_eq hzl.wellFormed
    simp only [Room, hashTypeLength] at hroom ⊢
    rwa [hvals]
  | ht t hshort hm => trivial

/-- Arguments that are too long for a ziplist convert it first. -/
theorem Represents.tryConversion (args : List Bytes)
    (hroom : (∀ a ∈ args, a.length ≤ cfg.hashMaxZiplistValue) → Room h' n) :
    ∃ h'', hashTypeTryConversion cfg h' args = some h'' ∧ Represents h'' m ∧ Room h'' n := by
  cases h' with
  | ht t => exact ⟨.ht t, rfl, h, trivial⟩
  | ziplist zl =>
    rw [hashTypeTryConversion]
    split_ifs with hlong
    · obtain ⟨t, hconvert, hrep⟩ := h.convert
      exact ⟨.ht t, hconvert, hrep, trivial⟩
    · refine ⟨_, rfl, h, hroom ?_⟩
      intro a ha
      by_contra hbig
      exact hlong (any_eq_true.mpr ⟨a, ha, decide_eq_true (not_le.mp hbig)⟩)

theorem Represents.set (cfg : Config) (hfield : field.length < 2 ^ 32)
    (hvalue : value.length < 2 ^ 32) (hroom : Room h' (field.length + value.length + 28 + n)) :
    ∃ h'', hashTypeSet cfg h' field value = some (h'', (m.lookup field).isSome) ∧
      Represents h'' (m.insert field value) ∧ Room h'' n := by
  cases h with
  | ziplist t hzl hm =>
    simp only [Room, hzl.values] at hroom
    obtain ⟨zl', t', hset, hholds, hmap, hroom'⟩ := hzl.ziplistSet_eq hfield hvalue hroom
    have hrep : Represents (.ziplist zl') (m.insert field value) := by
      refine .ziplist t' hholds ?_
      rw [hmap, ← hm, insert_toFinmap]
    have hroomLen : Room (.ziplist zl') n := by
      simp only [Room, hholds.values]
      exact hroom'
    have hlookup : (t.lookup field).isSome = (m.lookup field).isSome := by
      rw [← hm, lookup_toFinmap]
    obtain ⟨-, hrepLen⟩ := hrep.length
    rw [hashTypeSet, hset, hlookup]
    simp only [bind_eq_bind, bind_some]
    by_cases hbig : (hashTypeLength (.ziplist zl')).1 > cfg.hashMaxZiplistEntries
    · have hlength : (hashTypeLength (.ziplist zl')).2 = .ziplist (ziplistLen zl').2 := rfl
      rw [hlength] at hrepLen ⊢
      obtain ⟨t'', hconvert, hrep''⟩ := hrepLen.convert
      rw [if_pos hbig, hconvert]
      exact ⟨_, rfl, hrep'', trivial⟩
    · rw [if_neg hbig]
      exact ⟨_, rfl, hrepLen, Room.length hrep hroomLen⟩
  | ht t hshort hm =>
    refine ⟨_, by rw [hashTypeSet, ← hm, lookup_toFinmap], .ht _ ?_ ?_, trivial⟩
    · intro e he
      rw [entries_insert, mem_cons] at he
      rcases he with rfl | he
      · exact ⟨hfield, hvalue⟩
      · exact hshort e ((kerase_sublist _ _).mem he)
    · rw [← hm, insert_toFinmap]

theorem Represents.delete (hfield : field.length < 2 ^ 32) :
    Represents (hashTypeDelete h' field).1 (m.erase field) ∧
      (hashTypeDelete h' field).2 = (m.lookup field).isSome := by
  cases h with
  | ziplist t hzl hm =>
    rw [← hm, lookup_toFinmap, erase_toFinmap, hashTypeDelete]
    rcases hzl.findField_cases hfield with ⟨hnone, hfind⟩ | ⟨pre, old, post, hl, hpre, hsome, hfind⟩
    · have hlookup : t.lookup field = none := hnone
      have hentries : (t.erase field).entries = t.entries :=
        kerase_of_notMem_keys (dlookup_eq_none.mp hnone)
      rw [hfind, hlookup]
      exact ⟨.ziplist (t.erase field) (hentries ▸ hzl) rfl, rfl⟩
    · have hlookup : t.lookup field = some old := hsome
      have hentries : (t.erase field).entries = pre ++ post := by
        change t.entries.kerase field = pre ++ post
        rw [hl, kerase_split hpre]
      rw [hl] at hzl
      rw [hfind, hlookup]
      exact ⟨.ziplist (t.erase field) (hentries ▸ hzl.delete_present) rfl, rfl⟩
  | ht t hshort hm =>
    rw [← hm, lookup_toFinmap, erase_toFinmap]
    exact ⟨.ht _ (fun e he => hshort e ((kerase_sublist _ _).mem he)) rfl, rfl⟩

/-- Iteration yields each field once, with its value. -/
theorem Represents.entries :
    ∃ t : Table Bytes, hashTypeEntries h' = some (t.entries.map toPair) ∧ t.toFinmap = m := by
  cases h with
  | ziplist t hzl hm =>
    refine ⟨t, ?_, hm⟩
    rw [hashTypeEntries, hzl.iterate_all]
    have hfold : ∀ (l : Entries) (acc : List (Bytes × Bytes)),
        l.foldlM (fun acc e => some (acc ++ [(e.1, e.2)])) acc = some (acc ++ l.map toPair) := by
      intro l
      induction l with
      | nil =>
        intro acc
        simp
      | cons e l ih =>
        intro acc
        rw [foldlM_cons]
        change l.foldlM _ (acc ++ [(e.1, e.2)]) = _
        rw [ih, append_assoc]
        rfl
    exact hfold t.entries []
  | ht t hshort hm => exact ⟨t, rfl, hm⟩

end Functions

end Redis.Hashes
