import Redis.Intset.Refinement
import Redis.Sets.Basic

/-! What the operations on a set do to its members, in both encodings. -/
namespace Redis.Sets

open ByteBuffer Util Intsets List Function

variable {v : Int} {α : Type} {value : Bytes}

/-- The members in the order of the iterator. -/
def Represents (s : SetObject) (l : List Bytes) : Prop :=
  match s with
  | .intset is => ∃ ints, Holds is ints ∧ l = ints.map ll2string
  | .ht keys => keys = l ∧ l.Nodup

section Integers

variable {is : Intset} {ints : List Int}

variable (h : Holds is ints)
include h

theorem Holds.fits_eight (hv : v ∈ ints) : Fits 8 v :=
  (h.fits v hv).mono h.encoding.bounds.2

omit h in
theorem string2ll_text (hv : Fits 8 v) : string2ll (ll2string v) = some v :=
  string2ll_of_ll2string (fits_eight.mp hv).1 (fits_eight.mp hv).2

omit h in
theorem fits_of_string2ll (h : string2ll value = some v) : Fits 8 v ∧ ll2string v = value :=
  ⟨fits_eight.mpr (string2ll_ll2string h).2, (string2ll_ll2string h).1⟩

theorem ll2string_injOn : ∀ v ∈ ints, ∀ w, Fits 8 w → ll2string v = ll2string w → v = w := by
  intro v hv w hw heq
  have htext := string2ll_text (Holds.fits_eight h hv)
  rw [heq, string2ll_text hw] at htext
  exact (Option.some.inj htext).symm

/-- A text is among those of the integers if it is that of one of them. -/
theorem mem_texts (hv : Fits 8 v) : ll2string v ∈ ints.map ll2string ↔ v ∈ ints := by
  rw [mem_map]
  constructor
  · rintro ⟨w, hw, heq⟩
    exact ll2string_injOn h w hw v hv heq ▸ hw
  · exact fun hmem => ⟨v, hmem, rfl⟩

theorem not_mem_texts (hvalue : string2ll value = none) : value ∉ ints.map ll2string := by
  intro hmem
  obtain ⟨v, hv, rfl⟩ := mem_map.mp hmem
  rw [string2ll_text (Holds.fits_eight h hv)] at hvalue
  cases hvalue

theorem nodup_texts : (ints.map ll2string).Nodup := by
  refine List.Nodup.map_on ?_ (h.sorted.imp fun hlt => hlt.ne)
  exact fun v hv w hw heq => ll2string_injOn h v hv w (Holds.fits_eight h hw) heq

end Integers

section Specs

variable {s : SetObject} {l : List Bytes}

section

variable (h : Represents s l)
include h

theorem Represents.nodup : l.Nodup := by
  cases s with
  | intset is =>
    obtain ⟨ints, hholds, rfl⟩ := h
    exact nodup_texts hholds
  | ht keys => exact h.2

theorem Represents.size : setTypeSize s = l.length := by
  cases s with
  | intset is =>
    obtain ⟨ints, hholds, rfl⟩ := h
    rw [length_map]
    exact hholds.length
  | ht keys => exact congrArg List.length h.1

omit h in
theorem represents_createIntsetObject : Represents createIntsetObject [] :=
  ⟨[], holds_intsetNew, rfl⟩

variable (value)

omit h in
theorem represents_setTypeCreate : Represents (setTypeCreate value) [] := by
  rw [setTypeCreate]
  split_ifs
  · exact represents_createIntsetObject
  · exact ⟨rfl, nodup_nil⟩

theorem Represents.isMember : setTypeIsMember s value = some (decide (value ∈ l)) := by
  cases s with
  | intset is =>
    obtain ⟨ints, hholds, rfl⟩ := h
    rw [setTypeIsMember, isSdsRepresentableAsLongLong]
    cases hvalue : string2ll value with
    | none => simp [not_mem_texts hholds hvalue]
    | some v =>
      obtain ⟨hv, rfl⟩ := fits_of_string2ll hvalue
      simp only [hholds.find hv, mem_texts hholds hv]
  | ht keys =>
    obtain ⟨rfl, _⟩ := h
    rfl

theorem Represents.remove : ∃ s', setTypeRemove s value = some (s', decide (value ∈ l)) ∧
      Represents s' (l.erase value) := by
  cases s with
  | intset is =>
    obtain ⟨ints, hholds, rfl⟩ := h
    rw [setTypeRemove, isSdsRepresentableAsLongLong]
    cases hvalue : string2ll value with
    | none =>
      have hnot := not_mem_texts hholds hvalue
      exact ⟨.intset is, by simp [hnot], ints, hholds, erase_of_not_mem hnot⟩
    | some v =>
      obtain ⟨hv, rfl⟩ := fits_of_string2ll hvalue
      obtain ⟨is', hremove, hholds', _⟩ := hholds.remove hv
      refine ⟨.intset is', by simp only [hremove, Option.map_some, mem_texts hholds hv], ?_⟩
      refine ⟨_, hholds', ?_⟩
      by_cases hmem : v ∈ ints
      · obtain ⟨pre, post, hnot, hsplit, herase⟩ := exists_erase_eq hmem
        have hnot' : ll2string v ∉ pre.map ll2string := by
          intro hin
          obtain ⟨w, hw, heq⟩ := mem_map.mp hin
          exact hnot (ll2string_injOn hholds w (by simp [hsplit, hw]) v hv heq ▸ hw)
        rw [herase, hsplit, map_append, map_cons, erase_append_right _ hnot',
          erase_cons_head, map_append]
      · rw [erase_of_not_mem hmem,
          erase_of_not_mem (mt (mem_texts hholds hv).mp hmem)]
  | ht keys =>
    obtain ⟨rfl, hnodup⟩ := h
    exact ⟨_, rfl, rfl, hnodup.erase value⟩

/-- The elements as the iterator gives them, as strings or as integers. -/
structure Elements (s : SetObject) (l : List Bytes) (elems : List Value) : Prop where
  texts : elems.map Value.text = l
  ints : ∀ v, Value.int v ∈ elems → Fits 8 v
  next : ∀ ii, setTypeNext s ii = some elems[ii]?

theorem Represents.elements : ∃ elems, Elements s l elems := by
  cases s with
  | intset is =>
    obtain ⟨ints, hholds, rfl⟩ := h
    refine ⟨ints.map .int, by simp [comp_def, Value.text], ?_, fun ii => ?_⟩
    · intro v hv
      obtain ⟨w, hw, heq⟩ := mem_map.mp hv
      cases heq
      exact Holds.fits_eight hholds hw
    · rw [setTypeNext, hholds.intsetGet, getElem?_map]
      rfl
  | ht keys =>
    obtain ⟨rfl, _⟩ := h
    refine ⟨keys.map .str, by simp [comp_def, Value.text], by simp, fun ii => ?_⟩
    rw [setTypeNext, getElem?_map]

omit h in
theorem Elements.iterate {elems : List Value} (h : Elements s l elems) (body : α → Value → Option α)
    {fuel ii : Nat} (hii : ii ≤ elems.length) (hfuel : elems.length < fuel + ii) (acc : α) :
    iterate s body fuel ii acc = (elems.drop ii).foldlM body acc := by
  induction fuel generalizing ii acc with
  | zero => omega
  | succ fuel ih =>
    rw [Sets.iterate, h.next]
    cases hget : elems[ii]? with
    | none =>
      rw [drop_of_length_le (List.getElem?_eq_none_iff.mp hget)]
      rfl
    | some ele =>
      obtain ⟨hlt, rfl⟩ := List.getElem?_eq_some_iff.mp hget
      rw [drop_eq_getElem_cons hlt, foldlM_cons]
      exact congrArg (body acc elems[ii] >>= ·) (funext fun acc' => ih hlt (by omega) acc')

omit h in
/-- A loop over all elements. -/
theorem Elements.forEach {elems : List Value} (h : Elements s l elems) (hs : Represents s l)
    (body : α → Value → Option α) (acc : α) : forEach s body acc = elems.foldlM body acc := by
  have hlen : elems.length = l.length := by rw [← h.texts, length_map]
  rw [Sets.forEach, h.iterate body (Nat.zero_le _) (by rw [hs.size]; omega),
    drop_zero]

/-- A loop that only looks at the strings. -/
theorem Represents.forEach_text (body : α → Bytes → Option α) (acc : α) :
    forEach s (fun acc ele => body acc ele.text) acc = l.foldlM body acc := by
  obtain ⟨elems, helems⟩ := h.elements
  rw [helems.forEach h, ← helems.texts, foldlM_map]

end

theorem foldlM_dictAdd (pre : List Bytes) (h : (pre ++ l).Nodup) :
    l.foldlM dictAdd pre = some (pre ++ l) := by
  induction l generalizing pre with
  | nil => simp
  | cons value l ih =>
    have hnot : value ∉ pre := by
      intro hmem
      exact (nodup_append.mp h).2.2 value hmem value (by simp) rfl
    have hrest : (pre ++ [value] ++ l).Nodup := by simpa using h
    rw [foldlM_cons, dictAdd, if_neg hnot]
    simpa using ih _ hrest

theorem convert_spec {is : Intset} (h : Represents (.intset is) l) :
    setTypeConvert is = some l := by
  rw [setTypeConvert, h.forEach_text dictAdd, foldlM_dictAdd [] h.nodup, nil_append]

theorem foldlM_collect (l acc : List Bytes) :
    l.foldlM (fun acc text => some (acc ++ [text])) acc = some (acc ++ l) := by
  induction l generalizing acc with
  | nil => simp
  | cons text l ih => simp [ih]

/-- Collecting the strings of all elements. -/
theorem Represents.collect (h : Represents s l) :
    forEach s (fun elements ele => some (elements ++ [ele.text])) [] = some l := by
  rw [h.forEach_text (fun acc text => some (acc ++ [text])), foldlM_collect, nil_append]

/-- Adding one value, whether or not it is new. -/
def addOne (cfg : Config) (s : SetObject) (value : Bytes) : Option SetObject :=
  (setTypeAdd cfg s value).map Prod.fst

/-- Adding a string and counting. -/
def addText (cfg : Config) (acc : SetObject × Int) (value : Bytes) : Option (SetObject × Int) :=
  addCounting cfg acc (.str value)

theorem foldlM_addOne (cfg : Config) (l : List Bytes) (s : SetObject) (n : Int) :
    l.foldlM (addOne cfg) s = (l.foldlM (addText cfg) (s, n)).map Prod.fst := by
  induction l generalizing s n with
  | nil => rfl
  | cons value l ih =>
    rw [foldlM_cons, foldlM_cons, addOne, addText, addCounting]
    dsimp only [Value.text]
    cases setTypeAdd cfg s value with
    | none => rfl
    | some r => exact ih r.1 _

theorem cInt_succ (k : Nat) : cInt (cInt k + 1) = cInt ((k + 1 : Nat) : Int) := by
  rw [cInt, cInt, cInt, Int.bmod_add_bmod]
  rfl

/-- The width of the cells of an intset. -/
def SetObject.width : SetObject → Option Nat
  | .intset is => some is.encoding
  | .ht _ => none

/-- The array of an intset has a size below `2^32` with one more value. -/
def Room (s : SetObject) (n : Nat) (value : Bytes) : Prop :=
  ∀ e v, s.width = some e → string2ll value = some v →
    (n + 1) * max e (intsetValueEncoding v) < 2 ^ 32

/-- The width after a value was added to a set of so many: only an integer leaves an intset as
one, and only up to the limit. -/
def grownWidth (cfg : Config) (width : Option Nat) (n : Nat) (value : Bytes) : Option Nat :=
  if n + 1 ≤ cfg.setMaxIntsetEntries then
    width.bind fun e => (string2ll value).map fun v => max e (intsetValueEncoding v)
  else none

/-- What `setTypeAdd` does. -/
theorem Represents.add (cfg : Config) (h : Represents s l) (value : Bytes) :
    (value ∈ l → setTypeAdd cfg s value = some (s, false)) ∧
      (value ∉ l → Room s l.length value → ∃ s' l', setTypeAdd cfg s value = some (s', true) ∧
        Represents s' l' ∧ l'.Perm (value :: l) ∧
        s'.width = grownWidth cfg s.width l.length value) ∧
      (value ∉ l → ¬ Room s l.length value → setTypeAdd cfg s value = none) := by
  cases s with
  | ht keys =>
    obtain ⟨rfl, hnodup⟩ := h
    refine ⟨fun hmem => by rw [setTypeAdd, if_pos hmem], fun hnot _ => ?_, fun _ hroom => ?_⟩
    · rw [setTypeAdd, if_neg hnot]
      refine ⟨.ht (keys ++ [value]), keys ++ [value], rfl, ⟨rfl, ?_⟩,
        perm_append_singleton value keys, by simp [SetObject.width, grownWidth]⟩
      exact nodup_append.mpr ⟨hnodup, nodup_singleton value,
        fun a ha b hb => by rintro rfl; exact hnot (mem_singleton.mp hb ▸ ha)⟩
    · exact absurd (fun e v he => by cases he) hroom
  | intset is =>
    have hrep := h
    obtain ⟨ints, hholds, rfl⟩ := h
    cases hvalue : string2ll value with
    | none =>
      have hnot := not_mem_texts hholds hvalue
      refine ⟨fun hmem => absurd hmem hnot, fun _ _ => ?_, fun _ hroom => ?_⟩
      · simp only [setTypeAdd, isSdsRepresentableAsLongLong, hvalue, convert_spec hrep,
          Option.bind_eq_bind, Option.bind_some, dictAdd, if_neg hnot]
        refine ⟨_, _, rfl, ⟨rfl, ?_⟩, perm_append_singleton value _, ?_⟩
        · exact (perm_append_singleton value _).nodup_iff.mpr
            (nodup_cons.mpr ⟨hnot, hrep.nodup⟩)
        · simp [SetObject.width, grownWidth, hvalue]
      · exact absurd (fun e v _ hv => by rw [hvalue] at hv; cases hv) hroom
    | some v =>
      obtain ⟨hv, rfl⟩ := fits_of_string2ll hvalue
      have hroomiff : Room (.intset is) (ints.map ll2string).length (ll2string v) ↔
          (ints.length + 1) * max is.encoding (intsetValueEncoding v) < 2 ^ 32 := by
        simp [Room, SetObject.width, hvalue]
      rw [mem_texts hholds hv, hroomiff, not_lt]
      obtain ⟨hold, hnew, hfull⟩ := hholds.add hv
      refine ⟨fun hmem => ?_, fun hnot hroom => ?_, fun hnot hover => ?_⟩
      · simp [setTypeAdd, isSdsRepresentableAsLongLong, hvalue, hold hmem]
      · obtain ⟨is', ints', hadd, hholds', hperm, henc⟩ := hnew hnot hroom
        have hrep' : Represents (.intset is') (ints'.map ll2string) := ⟨ints', hholds', rfl⟩
        have hwidth : grownWidth cfg (SetObject.intset is).width (ints.map ll2string).length
            (ll2string v) =
              if ints'.length ≤ cfg.setMaxIntsetEntries then some is'.encoding else none := by
          rw [hperm.length_eq, henc]
          simp [grownWidth, SetObject.width, hvalue]
        simp only [setTypeAdd, isSdsRepresentableAsLongLong, hvalue, hadd, Option.bind_eq_bind,
          Option.bind_some, if_true, intsetLen, hholds'.length, hwidth]
        split_ifs
        · omega
        · rw [convert_spec hrep']
          exact ⟨_, _, rfl, ⟨rfl, hrep'.nodup⟩, hperm.map ll2string, rfl⟩
        · exact ⟨_, _, rfl, hrep', hperm.map ll2string, rfl⟩
        · omega
      · simp [setTypeAdd, isSdsRepresentableAsLongLong, hvalue, hfull hnot hover]

end Specs

end Redis.Sets
