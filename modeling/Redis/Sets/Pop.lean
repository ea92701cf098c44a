import Redis.Sets.Members

/-! `SPOP` with a count: it removes what it reports, and its replicas follow. The bounds are those
of the length that is announced for a whole set, and of the intset that is built on the way. -/
namespace Redis.Sets

open ByteBuffer Util Intsets Shared List Function

variable {count : Nat} {db : Db}

section Choices

/-- The elements that are chosen one after another, by the random numbers from the `i`-th on. -/
def picks (rand : Nat → Nat) : Nat → Nat → List Bytes → List Bytes
  | 0, _, _ => []
  | count + 1, i, l =>
    let ele := l.getD (rand i % l.length) []
    ele :: picks rand count (i + 1) (l.erase ele)

variable {l : List Bytes}

theorem chosen_mem (hl : l ≠ []) (r : Nat) : l.getD (r % l.length) [] ∈ l := by
  have hlt : r % l.length < l.length := Nat.mod_lt _ (length_pos_iff.mpr hl)
  rw [getD_eq_getElem _ _ hlt]
  exact getElem_mem hlt

variable (rand : Nat → Nat)

theorem picks_perm (i : Nat) (hcount : count ≤ l.length) :
    (picks rand count i l ++ l.diff (picks rand count i l)).Perm l := by
  induction count generalizing i l with
  | zero => simp [picks]
  | succ count ih =>
    have hne : l ≠ [] := ne_nil_of_length_pos (by omega)
    have hmem := chosen_mem hne (rand i)
    rw [picks]
    generalize l.getD (rand i % l.length) [] = ele at hmem
    have hlen := length_erase_of_mem hmem
    rw [diff_cons, cons_append]
    exact ((ih (i + 1) (by omega)).cons ele).trans (perm_cons_erase hmem).symm

theorem picks_length (count i : Nat) (l : List Bytes) : (picks rand count i l).length = count := by
  induction count generalizing i l with
  | zero => rfl
  | succ count ih => rw [picks, length_cons, ih]

/-- What is chosen and what is left are two parts of the set. -/
theorem picks_split (hcount : count ≤ l.length) (hl : l.Nodup) :
    (picks rand count 0 l).Nodup ∧ picks rand count 0 l ⊆ l ∧
      (picks rand count 0 l).toFinset = l.toFinset \ (l.diff (picks rand count 0 l)).toFinset ∧
      (l.diff (picks rand count 0 l)).toFinset = l.toFinset \ (picks rand count 0 l).toFinset := by
  have hperm := picks_perm rand 0 hcount
  have hnodup := hperm.nodup_iff.mpr hl
  obtain ⟨hpicks, _, hdisj⟩ := nodup_append'.mp hnodup
  rw [← disjoint_toFinset_iff_disjoint] at hdisj
  refine ⟨hpicks, fun x hx => hperm.mem_iff.mp (mem_append_left _ hx), ?_, ?_⟩
  all_goals rw [← toFinset_eq_of_perm _ _ hperm, toFinset_append]
  · exact (Finset.union_sdiff_cancel_right hdisj).symm
  · exact (Finset.union_sdiff_cancel_left hdisj).symm

end Choices

section Chosen

variable {s : SetObject} {l : List Bytes}

variable (h : Represents s l)
include h

theorem Represents.random (hl : l ≠ []) (r : Nat) :
    ∃ ele, setTypeRandomElement s r = some ele ∧ ele.text = l.getD (r % l.length) [] ∧
      (∀ v, ele = .int v → Fits 8 v) := by
  have hlt : r % l.length < l.length := Nat.mod_lt _ (length_pos_iff.mpr hl)
  cases s with
  | intset is =>
    obtain ⟨ints, hholds, rfl⟩ := h
    rw [length_map] at hlt ⊢
    refine ⟨.int (ints.get ⟨r % ints.length, hlt⟩), ?_, ?_, ?_⟩
    · rw [setTypeRandomElement, hholds.length, hholds.get hlt]
      rfl
    · rw [getD_eq_getElem _ _ (by rwa [length_map]), getElem_map]
      rfl
    · intro v hv
      cases hv
      exact Holds.fits_eight hholds (get_mem _ _)
  | ht keys =>
    obtain ⟨rfl, _⟩ := h
    refine ⟨.str (keys.get ⟨r % keys.length, hlt⟩), ?_, ?_, by simp⟩
    · simp [setTypeRandomElement, hlt]
    · rw [getD_eq_getElem _ _ hlt]
      rfl

theorem Represents.removeChosen {ele : Value} (hfits : ∀ v, ele = .int v → Fits 8 v) :
    ∃ s', removeChosen s ele = some s' ∧ Represents s' (l.erase ele.text) := by
  obtain ⟨s', hremove, hrep⟩ := h.remove ele.text
  refine ⟨s', ?_, hrep⟩
  have hsame : Sets.removeChosen s ele = (setTypeRemove s ele.text).map Prod.fst := by
    cases ele with
    | str value => rfl
    | int v =>
      cases s with
      | ht keys => rfl
      | intset is =>
        have hv := string2ll_text (hfits v rfl)
        simp only [Sets.removeChosen, setTypeRemove, isSdsRepresentableAsLongLong, Value.text,
          hv, Option.map_map]
        rfl
  rw [hsame, hremove]
  rfl

/-- The loop over the elements that are returned. -/
theorem Represents.popLoop (rand : Nat → Nat) (i : Nat) (hcount : count ≤ l.length) :
    ∃ s', popLoop rand count i s = some (s', picks rand count i l) ∧
      Represents s' (l.diff (picks rand count i l)) := by
  induction count generalizing i s l with
  | zero => exact ⟨s, rfl, h⟩
  | succ count ih =>
    have hne : l ≠ [] := ne_nil_of_length_pos (by omega)
    obtain ⟨ele, hrandom, htext, hfits⟩ := h.random hne (rand i)
    obtain ⟨s₁, hremove, hrep⟩ := h.removeChosen hfits
    have hlen := length_erase_of_mem (htext ▸ chosen_mem hne (rand i))
    obtain ⟨s₂, hloop, hrep₂⟩ := ih hrep (i + 1) (by omega)
    rw [picks, ← htext, diff_cons]
    refine ⟨s₂, ?_, hrep₂⟩
    simp [Sets.popLoop, hrandom, hremove, hloop]

/-- The loop over the elements that stay. -/
theorem Represents.keepLoop (cfg : Config) (rand : Nat → Nat) (i : Nat)
    (hcount : count ≤ l.length) (newset : Option SetObject) :
    ∃ s', Represents s' (l.diff (picks rand count i l)) ∧
      keepLoop cfg rand count i s newset =
        ((picks rand count i l).foldlM (addOne cfg) (newset.getD createIntsetObject)).map
          fun new => (s', if newset = none ∧ count = 0 then none else some new) := by
  induction count generalizing i s l newset with
  | zero =>
    refine ⟨s, h, ?_⟩
    cases newset with
    | none | some new => rfl
  | succ count ih =>
    have hne : l ≠ [] := ne_nil_of_length_pos (by omega)
    obtain ⟨ele, hrandom, htext, _⟩ := h.random hne (rand i)
    obtain ⟨s₁, hremove, hrep⟩ := h.remove ele.text
    have hlen := length_erase_of_mem (htext ▸ chosen_mem hne (rand i))
    have hadd : setTypeAdd cfg (newset.getD (setTypeCreate ele.text)) ele.text =
        setTypeAdd cfg (newset.getD createIntsetObject) ele.text := by
      cases newset with
      | none =>
        -- the first value decides how a set is created, and the first addition decides as well
        rw [Option.getD_none, setTypeCreate]
        split_ifs with hint
        · rfl
        · have hnone : string2ll ele.text = none := by
            simpa [isSdsRepresentableAsLongLong] using hint
          have hconvert := convert_spec (l := []) represents_createIntsetObject
          simp [createIntsetObject, createSetObject, setTypeAdd, isSdsRepresentableAsLongLong,
            hnone, hconvert, dictAdd]
      | some new => rfl
    rw [picks, ← htext, diff_cons]
    cases hnew : setTypeAdd cfg (newset.getD createIntsetObject) ele.text with
    | none =>
      obtain ⟨s₂, hrep₂, _⟩ := ih hrep (i + 1) (by omega) none
      refine ⟨s₂, hrep₂, ?_⟩
      simp [Sets.keepLoop, hrandom, hadd, hnew, addOne]
    | some new =>
      obtain ⟨s₂, hrep₂, hloop⟩ := ih hrep (i + 1) (by omega) (some new.1)
      refine ⟨s₂, hrep₂, ?_⟩
      simp only [Sets.keepLoop, hrandom, hadd, hnew, hremove, hloop, addOne, foldlM_cons,
        Option.bind_eq_bind, Option.bind_some, Option.map_some, Option.getD_some]
      simp

end Chosen

section Building

/-- The width of the cells that a list of integers needs; none if a string is among them. -/
def intEncoding (l : List Bytes) : Option Nat :=
  l.foldlM (fun e value => (string2ll value).map fun v => max e (intsetValueEncoding v))
    intsetEncInt16

/-- The arrays of the intsets that hold the first elements of the list, from the `k`-th on, have
sizes below `2^32`, up to the point where the set becomes a hash table. -/
def FitsFrom (cfg : Config) (k : Nat) (l : List Bytes) : Prop :=
  ∀ n e, k ≤ n → n < l.length → n ≤ cfg.setMaxIntsetEntries →
    intEncoding (l.take (n + 1)) = some e → (n + 1) * e < 2 ^ 32

/-- The width of a set to which these elements were added one after another. -/
def widthAfter (cfg : Config) (l : List Bytes) : Option Nat :=
  if l.length ≤ cfg.setMaxIntsetEntries then intEncoding l else none

variable {cfg : Config} {s : SetObject} {l pre : List Bytes}

theorem intEncoding_append (pre : List Bytes) (value : Bytes) :
    intEncoding (pre ++ [value]) = (intEncoding pre).bind fun e =>
      (string2ll value).map fun v => max e (intsetValueEncoding v) := by
  simp [intEncoding, foldlM_append]

theorem room_iff {value : Bytes} (hw : s.width = widthAfter cfg pre) :
    Room s pre.length value ↔ (pre.length ≤ cfg.setMaxIntsetEntries →
      ∀ e, intEncoding (pre ++ [value]) = some e → (pre.length + 1) * e < 2 ^ 32) := by
  rw [Room, hw, widthAfter, intEncoding_append]
  constructor
  · intro hroom hle e he
    obtain ⟨e', he', hrest⟩ := Option.bind_eq_some_iff.mp he
    obtain ⟨v, hv, rfl⟩ := Option.map_eq_some_iff.mp hrest
    exact hroom e' v (by rw [if_pos hle, he']) hv
  · intro hroom e v he hv
    split_ifs at he with hle
    exact hroom hle _ (by simp [he, hv])

theorem widthAfter_append (pre : List Bytes) (value : Bytes) :
    widthAfter cfg (pre ++ [value]) =
      grownWidth cfg (widthAfter cfg pre) pre.length value := by
  rw [widthAfter, grownWidth, widthAfter, length_append, length_singleton]
  split_ifs with hnew hold
  · exact intEncoding_append pre value
  · omega
  · rfl

theorem fitsFrom_cons {value : Bytes} :
    FitsFrom cfg pre.length (pre ++ value :: l) ↔
      (pre.length ≤ cfg.setMaxIntsetEntries →
        ∀ e, intEncoding (pre ++ [value]) = some e → (pre.length + 1) * e < 2 ^ 32) ∧
      FitsFrom cfg (pre ++ [value]).length (pre ++ [value] ++ l) := by
  have htake : (pre ++ value :: l).take (pre.length + 1) = pre ++ [value] := by
    rw [append_cons, take_append_of_le_length (by simp), take_of_length_le (by simp)]
  rw [← append_cons, length_append, length_singleton]
  constructor
  · intro h
    refine ⟨fun hle e he => ?_, fun n e hn => h n e (by omega)⟩
    exact h pre.length e le_rfl (by simp) hle (by rw [htake, he])
  · rintro ⟨hfirst, hrest⟩ n e hn hlt hle he
    rcases Nat.eq_or_lt_of_le hn with rfl | hn
    · rw [htake] at he
      exact hfirst hle e he
    · exact hrest n e hn hlt hle he

/-- Adding new elements one after another to a set that was built like this succeeds exactly if
the intsets on the way fit. -/
theorem addAll_spec (cfg : Config) {lp pre : List Bytes} (k : Nat) (h : Represents s lp)
    (hperm : lp.Perm pre) (hnodup : (pre ++ l).Nodup) (hw : s.width = widthAfter cfg pre) :
    (FitsFrom cfg pre.length (pre ++ l) → ∃ s' l', l.foldlM (addText cfg) (s, cInt k) =
      some (s', cInt ((k + l.length : Nat) : Int)) ∧ Represents s' l' ∧ l'.Perm (pre ++ l)) ∧
    (¬ FitsFrom cfg pre.length (pre ++ l) → l.foldlM (addText cfg) (s, cInt k) = none) := by
  induction l generalizing s lp pre k with
  | nil =>
    have hfits : FitsFrom cfg pre.length (pre ++ []) := by
      intro n e hn hlt
      simp at hlt
      omega
    exact ⟨fun _ => ⟨s, lp, rfl, h, by simpa using hperm⟩, fun hnot => absurd hfits hnot⟩
  | cons value l ih =>
    have hnot : value ∉ lp := by
      rw [hperm.mem_iff]
      exact fun hmem => (nodup_append.mp hnodup).2.2 value hmem value (by simp) rfl
    obtain ⟨_, hnew, hfull⟩ := h.add cfg value
    rw [fitsFrom_cons, ← room_iff hw, ← hperm.length_eq, foldlM_cons]
    by_cases hroom : Room s lp.length value
    · obtain ⟨s', l', hadd, hrep, hperm', hwidth⟩ := hnew hnot hroom
      have hstep : addText cfg (s, cInt k) value = some (s', cInt ((k + 1 : Nat) : Int)) := by
        simp only [addText, addCounting, Value.text, hadd, Option.bind_eq_bind, Option.bind_some,
          if_true, cInt_succ]
      have hpre : l'.Perm (pre ++ [value]) :=
        hperm'.trans ((hperm.cons value).trans (perm_append_singleton value pre).symm)
      rw [hw, hperm.length_eq, ← widthAfter_append] at hwidth
      obtain ⟨hok, hbad⟩ := ih (k + 1) hrep hpre (by simpa using hnodup) hwidth
      rw [hstep]
      constructor
      · rintro ⟨_, hfits⟩
        obtain ⟨s'', l'', hfold, hrep'', hperm''⟩ := hok hfits
        refine ⟨s'', l'', ?_, hrep'', by simpa using hperm''⟩
        rw [length_cons, show k + (l.length + 1) = k + 1 + l.length by omega]
        exact hfold
      · intro hnotfits
        exact hbad fun hfits => hnotfits ⟨hroom, hfits⟩
    · have hstep : addText cfg (s, cInt k) value = none := by
        simp [addText, addCounting, Value.text, hfull hnot hroom]
      rw [hstep]
      exact ⟨fun hfits => absurd hfits.1 hroom, fun _ => rfl⟩

/-- A new set for these elements. -/
theorem build_spec (cfg : Config) (hnodup : l.Nodup) :
    (FitsFrom cfg 0 l → ∃ s' l', l.foldlM (addText cfg) (createIntsetObject, 0) =
      some (s', cInt l.length) ∧ Represents s' l' ∧ l'.Perm l) ∧
    (¬ FitsFrom cfg 0 l → l.foldlM (addText cfg) (createIntsetObject, 0) = none) := by
  have hspec := addAll_spec cfg 0 represents_createIntsetObject
    (List.Perm.refl []) (by simpa using hnodup) (l := l)
    (by simp [createIntsetObject, SetObject.width, widthAfter, intEncoding, intsetNew])
  simpa [cInt] using hspec

end Building

section Effects

/-- The key holds exactly these members, or is gone if there are none. -/
def Leaves (db : Db) (key : Bytes) (members : Finset Bytes) : Prop :=
  (members = ∅ ∧ db key = none) ∨
    (members ≠ ∅ ∧ ∃ s l, db key = some (.set s) ∧ Represents s l ∧ l.toFinset = members)

/-- The command replies so many distinct members and leaves the others. A replica that executes
what is propagated, with the same set in any encoding, is left with them as well. -/
def PopsExactly (result : Option (Db × Reply × List Propagated)) (db : Db) (key : Bytes)
    (members : Finset Bytes) (count : Nat) : Prop :=
  ∃ db' popped commands, result = some (db', .members (popped.length : Nat) popped, commands) ∧
    popped.length = min count members.card ∧ popped.Nodup ∧ popped.toFinset ⊆ members ∧
    Leaves db' key (members \ popped.toFinset) ∧ (∀ other, other ≠ key → db' other = db other) ∧
    ∀ replica : Db, Leaves replica key members → ∃ replica',
      commands.foldlM Propagated.exec replica = some replica' ∧
      Leaves replica' key (members \ popped.toFinset) ∧
      ∀ other, other ≠ key → replica' other = replica other

variable {key : Bytes} {s : SetObject} {l : List Bytes}

/-- The commands of a replica that has more members than are removed. -/
theorem exec_srems {popped : List Bytes} {replica : Db} (hkey : replica key = some (.set s))
    (h : Represents s l) (hpopped : popped.Nodup) (hsub : popped ⊆ l)
    (hlen : popped.length < l.length) :
    ∃ replica' s' l', (popped.map (Propagated.srem key)).foldlM Propagated.exec replica =
        some replica' ∧ replica' key = some (.set s') ∧ Represents s' l' ∧
      l'.toFinset = l.toFinset \ popped.toFinset ∧
      ∀ other, other ≠ key → replica' other = replica other := by
  induction popped generalizing replica s l with
  | nil => exact ⟨replica, s, l, rfl, hkey, h, by simp, fun _ _ => rfl⟩
  | cons value popped ih =>
    have hmem : value ∈ l := hsub (by simp)
    obtain ⟨s₁, hremove, hrep⟩ := h.remove value
    have hsize := length_erase_of_mem hmem
    have hfew : popped.length + 1 < l.length := by simpa using hlen
    have hloop : sremLoop [value] s 0 = some (s₁, 1, false) := by
      have hne : setTypeSize s₁ ≠ 0 := by
        rw [hrep.size]
        omega
      simp [sremLoop, hremove, hmem, hne]
    have hexec : (Propagated.srem key value).exec replica = some (setSet replica key s₁) := by
      simp [Propagated.exec, sremCommand, hkey, hloop]
    have hnotin := nodup_cons.mp hpopped
    have hsub' : popped ⊆ l.erase value := fun x hx =>
      (mem_erase_of_ne (by rintro rfl; exact hnotin.1 hx)).mpr
        (hsub (mem_cons_of_mem _ hx))
    have hkey₁ : setSet replica key s₁ key = some (.set s₁) := by simp [setSet]
    obtain ⟨replica', s', l', hfold, hkey', hrep', hset, hothers⟩ :=
      ih hkey₁ hrep hnotin.2 hsub' (by omega)
    refine ⟨replica', s', l', ?_, hkey', hrep', ?_, fun other hother => ?_⟩
    · rw [map_cons, foldlM_cons, hexec]
      exact hfold
    · ext x
      have hiff := Finset.ext_iff.mp hset x
      simp only [mem_toFinset, Finset.mem_sdiff, h.nodup.mem_erase_iff] at hiff
      simp only [mem_toFinset, Finset.mem_sdiff, mem_cons, hiff]
      tauto
    · rw [hothers other hother, setSet, Dict.set_of_ne hother]

/-- Some elements stay: what the loops do is what is reported. -/
theorem popsExactly_some (db : Db) (key : Bytes) {s' : SetObject} {popped rest : List Bytes}
    (h : Represents s l) (hnodup : popped.Nodup) (hsub : popped ⊆ l)
    (hlen : popped.length < l.length) (hrep : Represents s' rest)
    (hrest : rest.toFinset = l.toFinset \ popped.toFinset) :
    PopsExactly (some (setSet db key s', .members (popped.length : Nat) popped,
      popped.map (.srem key))) db key l.toFinset popped.length := by
  have hcard : l.toFinset.card = l.length := toFinset_card_of_nodup h.nodup
  have hne : l.toFinset \ popped.toFinset ≠ ∅ := by
    rw [Ne, Finset.sdiff_eq_empty_iff_subset]
    intro hle
    have hcardle := Finset.card_le_card hle
    rw [hcard, toFinset_card_of_nodup hnodup] at hcardle
    omega
  refine ⟨_, popped, _, rfl, ?_, hnodup, fun x hx => ?_, .inr ⟨hne, s', rest, by simp [setSet],
    hrep, hrest⟩, fun other hother => by rw [setSet, Dict.set_of_ne hother],
    fun replica hreplica => ?_⟩
  · omega
  · rw [mem_toFinset] at hx ⊢
    exact hsub hx
  · rcases hreplica with ⟨hempty, _⟩ | ⟨_, rs, rl, hkey, hrs, hmembers⟩
    · rw [toFinset_eq_empty_iff] at hempty
      rw [hempty] at hlen
      simp at hlen
    · have hrl : rl.Perm l := (perm_ext_iff_of_nodup hrs.nodup h.nodup).mpr fun x => by
        rw [← mem_toFinset, hmembers, mem_toFinset]
      obtain ⟨replica', rs', rl', hfold, hkey', hrs', hset, hothers⟩ := exec_srems hkey hrs hnodup
        (fun x hx => hrl.mem_iff.mpr (hsub hx)) (by rw [hrl.length_eq]; exact hlen)
      rw [hmembers] at hset
      exact ⟨replica', hfold, .inr ⟨hne, rs', rl', hkey', hrs', hset⟩, hothers⟩

/-- If all members are returned there are less than `2^31` of them, collecting them does not need
too large an intset, and the count is not the largest `long long`. If some are left, the operations
for the others can all hold the key; and if few are left, the intset of these is not too large. -/
def PopFits (cfg : Config) (rand : Nat → Nat) (l : List Bytes) (count : Nat) : Prop :=
  count ≠ 0 →
    if l.length ≤ count then l.length < 2 ^ 31 ∧ FitsFrom cfg 0 l ∧ count + 1 < 2 ^ 63
    else count < objFirstSpecialRefcount ∧
      ((l.length - count) * spopMoveStrategyMul % 2 ^ 64 ≤ count →
        FitsFrom cfg 0 (picks rand (l.length - count) 0 l))

/-- A replica keeps the set if nothing is propagated. -/
theorem not_popsExactly_silent {db' : Db} {reply : Reply} (hkey : db key = some (.set s))
    (h : Represents s l) (hne : l ≠ []) (hcount : l.length ≤ count) :
    ¬ PopsExactly (some (db', reply, [])) db key l.toFinset count := by
  rintro ⟨_, popped, _, hresult, hlen, hnodup, hsub, -, -, hreplica⟩
  cases hresult
  have hmembers : l.toFinset ≠ ∅ := by rwa [Ne, toFinset_eq_empty_iff]
  have hall : popped.toFinset = l.toFinset := by
    apply Finset.eq_of_subset_of_card_le hsub
    rw [toFinset_card_of_nodup hnodup, hlen, toFinset_card_of_nodup h.nodup, min_eq_right hcount]
  obtain ⟨_, hrun, hleaves, -⟩ := hreplica db (.inr ⟨hmembers, s, l, hkey, h, rfl⟩)
  cases hrun
  rw [hall, Finset.sdiff_self] at hleaves
  rcases hleaves with ⟨-, hnone⟩ | ⟨hne', -⟩
  · rw [hkey] at hnone
    cases hnone
  · exact hne' rfl

/-- Returning the whole set is right exactly if its size is announced as it is and the counter is
seen to grow. -/
theorem pop_all (qsort : Qsort) (cfg : Config) (dirty : Int64) (hkey : db key = some (.set s))
    (h : Represents s l) (hne : l ≠ []) (hcount : l.length ≤ count) (hlong : count < 2 ^ 63) :
    PopsExactly ((sunionDiffGenericCommand qsort cfg db [key] none .union).bind fun r =>
      some (dbDelete r.1 key, r.2, callPropagates dirty (dirty + Int64.ofNat count + 1) (.del key)))
        db key l.toFinset count ↔
      l.length < 2 ^ 31 ∧ FitsFrom cfg 0 l ∧ count + 1 < 2 ^ 63 := by
  have hfold : forEach s (addCounting cfg) (createIntsetObject, 0) =
      l.foldlM (addText cfg) (createIntsetObject, 0) := h.forEach_text (addText cfg) _
  obtain ⟨hok, hbad⟩ := build_spec cfg h.nodup
  by_cases hfits : FitsFrom cfg 0 l
  · obtain ⟨s', l', hbuild, hrep, hperm⟩ := hok hfits
    have hunion : sunionDiffGenericCommand qsort cfg db [key] none .union =
        some (db, .members (cInt l.length) l') := by
      simp [sunionDiffGenericCommand, sunionDiffSources, hkey, sunionDiffResult, unionLoop, hfold,
        hbuild, sunionDiffReply, hrep.collect]
    rw [hunion, Option.bind_some, callPropagates]
    simp only [moved_pos_iff dirty hlong]
    split_ifs with hgrows
    swap
    · exact iff_of_false (not_popsExactly_silent hkey h hne hcount) fun hand => hgrows hand.2.2
    constructor
    · rintro ⟨db', popped, commands, hresult, hlen, _⟩
      refine ⟨?_, hfits, hgrows⟩
      rw [toFinset_card_of_nodup h.nodup, min_eq_right hcount] at hlen
      simp only [Option.some.injEq, Prod.mk.injEq, Reply.members.injEq] at hresult
      have hannounced := hresult.2.1.1
      have hbound := Int.bmod_lt (x := (l.length : Int)) (m := 2 ^ 32) (by norm_num)
      rw [cInt] at hannounced
      omega
    · rintro ⟨hlt, _⟩
      have hset : l'.toFinset = l.toFinset := toFinset_eq_of_perm _ _ hperm
      have hnone : l.toFinset \ l'.toFinset = ∅ := by rw [hset, Finset.sdiff_self]
      rw [cInt_of_lt hlt, ← hperm.length_eq]
      refine ⟨_, l', _, rfl, ?_, hperm.nodup_iff.mpr h.nodup, hset.le,
        .inl ⟨hnone, by simp [dbDelete]⟩,
        fun other hother => by rw [dbDelete, Dict.delete_of_ne hother], fun replica _ => ?_⟩
      · rw [toFinset_card_of_nodup h.nodup, hperm.length_eq, min_eq_right hcount]
      · exact ⟨dbDelete replica key, rfl, .inl ⟨hnone, by simp [dbDelete]⟩,
          fun other hother => by rw [dbDelete, Dict.delete_of_ne hother]⟩
  · have hunion : sunionDiffGenericCommand qsort cfg db [key] none .union = none := by
      simp [sunionDiffGenericCommand, sunionDiffSources, hkey, sunionDiffResult, unionLoop, hfold,
        hbad hfits]
    rw [hunion, Option.bind_none]
    exact iff_of_false (by rintro ⟨_, _, _, ⟨⟩, _⟩) fun hand => hfits hand.2.1

/-- The operations for these elements are all there, or the reference count comes to its limit. -/
theorem alsoPropagate_eq (key : Bytes) (eles : List Bytes) {refcount : Nat}
    (hle : refcount ≤ objFirstSpecialRefcount) :
    alsoPropagate key eles refcount =
      if refcount + eles.length ≤ objFirstSpecialRefcount then some (eles.map (.srem key))
      else none := by
  induction eles generalizing refcount with
  | nil => rw [alsoPropagate, length_nil, Nat.add_zero, if_pos hle]; rfl
  | cons ele eles ih =>
    rw [alsoPropagate, length_cons]
    split_ifs with hlt hfits hfits
    · rw [ih hlt, if_pos (by omega)]
      rfl
    · rw [ih hlt, if_neg (by omega)]
      rfl
    · omega
    · rfl

/-- Few elements are returned: it is right exactly if their operations can all hold the key. -/
theorem pop_few (cfg : Config) (rand : Nat → Nat) (h : Represents s l) (hcount : count < l.length)
    (hfew : (l.length - count) * spopMoveStrategyMul % 2 ^ 64 > count) :
    PopsExactly (spopSome cfg rand db key s count) db key l.toFinset count ↔
      count < objFirstSpecialRefcount := by
  obtain ⟨s', hloop, hrep⟩ := h.popLoop rand 0 hcount.le
  obtain ⟨hnodup, hsub, _, hrest⟩ := picks_split rand hcount.le h.nodup
  have hpops := popsExactly_some db key h hnodup hsub
    (by rw [picks_length]; exact hcount) hrep hrest
  rw [picks_length] at hpops
  rw [spopSome, if_pos (by rw [h.size]; exact hfew), hloop]
  simp only [Option.bind_eq_bind, Option.bind_some, alsoPropagate_eq key _ (by decide : 1 ≤ _),
    picks_length]
  split_ifs with hholds
  · exact iff_of_true hpops (by omega)
  · exact iff_of_false (by rintro ⟨_, _, _, ⟨⟩, _⟩) (by omega)

/-- Few elements stay: besides, the new set can be built. -/
theorem pop_most (cfg : Config) (rand : Nat → Nat) (h : Represents s l) (hcount : count < l.length)
    (hmost : ¬ (l.length - count) * spopMoveStrategyMul % 2 ^ 64 > count) :
    PopsExactly (spopSome cfg rand db key s count) db key l.toFinset count ↔
      count < objFirstSpecialRefcount ∧ FitsFrom cfg 0 (picks rand (l.length - count) 0 l) := by
  have hle : l.length - count ≤ l.length := by omega
  obtain ⟨s', hrep, hloop⟩ := h.keepLoop cfg rand 0 hle none
  obtain ⟨hnodup, hsub, hkept, hrest⟩ := picks_split rand hle h.nodup
  have hperm := picks_perm rand 0 hle
  obtain ⟨hok, hbad⟩ := build_spec cfg hnodup
  rw [Option.getD_none, foldlM_addOne cfg _ _ 0] at hloop
  by_cases hfits : FitsFrom cfg 0 (picks rand (l.length - count) 0 l)
  · obtain ⟨new, lnew, hbuild, hnew, hpermnew⟩ := hok hfits
    rw [hbuild] at hloop
    have hpositive : l.length - count ≠ 0 := by omega
    have hpopped : (l.diff (picks rand (l.length - count) 0 l)).length = count := by
      have hlen := hperm.length_eq
      rw [length_append, picks_length] at hlen
      omega
    have hpops := popsExactly_some db key h hrep.nodup (diff_subset _ _)
      (by rw [hpopped]; exact hcount) hnew
      (by rw [toFinset_eq_of_perm _ _ hpermnew]; exact hkept)
    rw [hpopped] at hpops
    rw [spopSome, if_neg (by rw [h.size]; exact hmost), h.size, hloop]
    simp only [Option.bind_eq_bind, Option.map_some, Option.bind_some, hrep.collect, hpositive,
      and_false, if_false, alsoPropagate_eq key _ (by decide : 1 ≤ _), hpopped]
    split_ifs with hholds
    · exact iff_of_true hpops ⟨by omega, hfits⟩
    · exact iff_of_false (by rintro ⟨_, _, _, ⟨⟩, _⟩) (by omega)
  · have hresult : spopSome cfg rand db key s count = none := by
      rw [spopSome, if_neg (by rw [h.size]; exact hmost), h.size, hloop,
        hbad hfits]
      rfl
    rw [hresult]
    exact iff_of_false (by rintro ⟨_, _, _, ⟨⟩, _⟩) fun hand => hfits hand.2

theorem spopWithCountCommand_eq (qsort : Qsort) (cfg : Config) (rand : Nat → Nat) (dirty : Int64)
    {countarg : Bytes} (hkey : db key = some (.set s)) (harg : string2ll countarg = some (count : Int)) :
    spopWithCountCommand qsort cfg rand dirty db key countarg =
      if count = 0 then some (db, .members 0 [], [])
      else if count ≥ setTypeSize s then
        (sunionDiffGenericCommand qsort cfg db [key] none .union).bind fun r =>
          some (dbDelete r.1 key, r.2,
            callPropagates dirty (dirty + Int64.ofNat count + 1) (.del key))
      else spopSome cfg rand db key s count := by
  have hparse : getLongLongFromObjectOrReply countarg none = .ok (count : Int) := by
    rw [getLongLongFromObjectOrReply, harg]
  simp only [spopWithCountCommand, hparse, hkey, Int.toNat_natCast]
  rfl

/-- `SPOP` with a count, on every set in either encoding, for every sequence of random numbers and
every value of the counter of changes: it removes what it reports and its replicas follow, exactly
if the length of a whole set fits in an `int`, the intsets that are built fit in memory, the
counter is seen to grow and the reference count of the key does not come to its limit. -/
theorem spop_removes_what_it_reports (qsort : Qsort) (cfg : Config) (rand : Nat → Nat)
    (dirty : Int64) {db : Db} {key countarg : Bytes} {s : SetObject} {l : List Bytes} {count : Nat}
    (hkey : db key = some (.set s)) (hs : Represents s l) (hne : l ≠ [])
    (harg : string2ll countarg = some (count : Int)) :
    PopsExactly (spopWithCountCommand qsort cfg rand dirty db key countarg) db key l.toFinset count ↔
      PopFits cfg rand l count := by
  have hmembers : l.toFinset ≠ ∅ := by rwa [Ne, toFinset_eq_empty_iff]
  have hlong := (string2ll_ll2string harg).2.2
  rw [spopWithCountCommand_eq qsort cfg rand dirty hkey harg, PopFits, hs.size]
  by_cases hzero : count = 0
  · rw [if_pos hzero]
    refine ⟨fun _ hnot => absurd hzero hnot, fun _ => ⟨db, [], [], rfl, ?_, nodup_nil, by simp,
      ?_, fun _ _ => rfl, fun replica hreplica => ⟨replica, rfl, ?_, fun _ _ => rfl⟩⟩⟩
    · simp [hzero]
    · exact .inr ⟨hmembers, s, l, hkey, hs, rfl⟩
    · exact hreplica
  · rw [if_neg hzero, forall_prop_of_true hzero]
    by_cases hall : l.length ≤ count
    · rw [if_pos hall, if_pos hall]
      exact pop_all qsort cfg dirty hkey hs hne hall (by omega)
    · rw [if_neg hall, if_neg hall]
      by_cases hfew : (l.length - count) * spopMoveStrategyMul % 2 ^ 64 > count
      · rw [pop_few cfg rand hs (by omega) hfew]
        exact ⟨fun h => ⟨h, fun hle => absurd hfew (by omega)⟩, fun h => h.1⟩
      · rw [pop_most cfg rand hs (by omega) hfew, forall_prop_of_true (by omega)]

theorem spop_removes_what_it_reports_pair :
    PopsExactly (spopWithCountCommand ⟨fun _ l => l, fun _ l => List.Perm.refl l⟩ ⟨512⟩ id 7
      (fun _ => some (.set (.ht [[97], [98]]))) [107] [49])
      (fun _ => some (.set (.ht [[97], [98]]))) [107] {[97], [98]} 1 :=
  (spop_removes_what_it_reports _ _ _ _ (s := .ht [[97], [98]]) (l := [[97], [98]]) rfl
    ⟨rfl, by decide⟩ (by decide) (by decide)).mpr fun _ =>
      ⟨by decide, fun hle => absurd hle (by decide)⟩

/-- `SPOP k 9223372036854775807` on a set with one member adds `2^63` to the counter of changes, which
looks as if nothing had changed: the member is gone, and no replica hears of it. -/
theorem wrapped_counter_hides_pop :
    ¬ PopsExactly (spopWithCountCommand ⟨fun _ l => l, fun _ l => List.Perm.refl l⟩ ⟨512⟩ id 1
      (fun _ => some (.set (.ht [[97]]))) [107] (ll2string (2 ^ 63 - 1)))
      (fun _ => some (.set (.ht [[97]]))) [107] {[97]} (2 ^ 63 - 1) := by
  have harg : string2ll (ll2string (2 ^ 63 - 1)) = some ((2 ^ 63 - 1 : Nat) : Int) := by decide
  have hrep : Represents (.ht [[97]]) [[97]] := ⟨rfl, by decide⟩
  rw [spopWithCountCommand_eq _ _ _ _ rfl harg, if_neg (by norm_num), if_pos (by decide)]
  intro hpops
  exact absurd ((pop_all _ _ 1 rfl hrep (by decide) (by decide) (by decide)).mp hpops).2.2 (by decide)

end Effects

end Redis.Sets
