import Redis.Intset.Basic
import Redis.Library.Cells
import Redis.Library.Simulation
import Redis.Ziplist.Encoding

/-! An intset holds an increasing list of integers. Adding, removing and finding do on it what
they should, as long as the size of the array fits in 32 bits. -/
namespace Redis.Intsets

open ByteBuffer Util List Option Simulation
open Ziplist (intBytes loadInt loadInt_intBytes)

variable {is : Intset} {l : List Int} {pos enc : Nat} {v : Int}
variable {contents tail : Bytes} {min : Int} {post pre : List Int} {curenc i k prepend : Nat}

/-- The value is in the range of a signed integer of so many bytes. -/
def Fits (enc : Nat) (v : Int) : Prop := -(256 ^ enc : Nat) ≤ v * 2 ∧ v * 2 < (256 ^ enc : Nat)

/-- The three widths of a cell. -/
def IsEncoding (enc : Nat) : Prop :=
  enc = intsetEncInt16 ∨ enc = intsetEncInt32 ∨ enc = intsetEncInt64

structure Holds (is : Intset) (l : List Int) : Prop where
  encoding : IsEncoding is.encoding
  length : is.length = l.length
  contents : is.contents = cells (intBytes is.encoding) l
  sorted : l.Pairwise (· < ·)
  fits : ∀ v ∈ l, Fits is.encoding v
  room : l.length * is.encoding < 2 ^ 32

section Encodings

theorem intBytes_length (enc : Nat) (v : Int) : (intBytes enc v).length = enc := by
  simp [intBytes]

theorem IsEncoding.bounds (h : IsEncoding enc) : 2 ≤ enc ∧ enc ≤ 8 := by
  rcases h with rfl | rfl | rfl <;> decide

theorem isEncoding_value (v : Int) : IsEncoding (intsetValueEncoding v) := by
  unfold intsetValueEncoding
  split_ifs
  · exact .inr (.inr rfl)
  · exact .inr (.inl rfl)
  · exact .inl rfl

theorem fits_eight : Fits 8 v ↔ -2 ^ 63 ≤ v ∧ v < 2 ^ 63 := by
  simp only [Fits]
  norm_num
  omega

/-- A value fits in the cells that are at least as wide as its own encoding. -/
theorem fits_iff (henc : IsEncoding enc) (hv : Fits 8 v) :
    Fits enc v ↔ intsetValueEncoding v ≤ enc := by
  rw [fits_eight] at hv
  unfold intsetValueEncoding
  rcases henc with rfl | rfl | rfl <;>
    simp only [Fits, intsetEncInt16, intsetEncInt32, intsetEncInt64] <;> norm_num <;>
    split_ifs <;> norm_num <;> omega

theorem Fits.mono {enc' : Nat} (h : Fits enc v) (hle : enc ≤ enc') : Fits enc' v := by
  have hpow : (256 : Nat) ^ enc ≤ 256 ^ enc' := Nat.pow_le_pow_right (by norm_num) hle
  unfold Fits at h ⊢
  generalize (256 : Nat) ^ enc = m at *
  generalize (256 : Nat) ^ enc' = m' at *
  omega

/-- What does not fit is on one side of everything that does. -/
theorem outside_of_not_fits {x : Int} (hx : Fits enc x) (hv : ¬ Fits enc v) :
    (v < 0 → v < x) ∧ (0 ≤ v → x < v) := by
  unfold Fits at hx hv
  generalize (256 : Nat) ^ enc = m at *
  omega

end Encodings

section Reading

/-- Reading a cell of an array that is followed by other bytes. -/
theorem intsetGetEncoded_cell {rest : Bytes}
    (hcontents : is.contents = cells (intBytes enc) (pre ++ v :: post) ++ rest) (hv : Fits enc v) :
    intsetGetEncoded is pre.length enc = some v := by
  have hlen : (pre.length + 1) * enc ≤ is.contents.length := by
    rw [hcontents, length_append, cells_length (intBytes_length enc)]
    have hle : (pre.length + 1) * enc ≤ (pre ++ v :: post).length * enc :=
      Nat.mul_le_mul_right enc (by simp)
    omega
  rw [intsetGetEncoded, Int.toNat_natCast, if_pos ⟨Int.natCast_nonneg _, hlen⟩, hcontents,
    drop_cells (intBytes_length enc), cells_cons, append_assoc, loadInt_intBytes hv.1 hv.2]

variable (h : Holds is l)
include h

theorem Holds.get (hi : i < l.length) : intsetGetAt is i = some (l.get ⟨i, hi⟩) := by
  have hsplit : l = l.take i ++ l.get ⟨i, hi⟩ :: l.drop (i + 1) := by simp
  have hlen : (l.take i).length = i := by
    rw [length_take]
    omega
  have hcontents : is.contents =
      cells (intBytes is.encoding) (l.take i ++ l.get ⟨i, hi⟩ :: l.drop (i + 1)) ++ [] := by
    rw [← hsplit, append_nil, h.contents]
  have hget := intsetGetEncoded_cell hcontents (h.fits _ (get_mem l ⟨i, hi⟩))
  rw [hlen] at hget
  exact hget

theorem Holds.length_lt : l.length < 2 ^ 31 := by
  have henc := h.encoding.bounds.1
  have hroom := h.room
  have hle : l.length * 2 ≤ l.length * is.encoding := Nat.mul_le_mul_left _ henc
  omega

theorem Holds.get_le {j : Nat} (hj : j < l.length) (hij : i ≤ j) :
    l.get ⟨i, hij.trans_lt hj⟩ ≤ l.get ⟨j, hj⟩ :=
  (h.sorted.imp le_of_lt).rel_get_of_le hij

/-- The list is below the value before the position and above it from there on. -/
def Cut (l : List Int) (v : Int) (pos : Nat) : Prop :=
  pos ≤ l.length ∧ (∀ x ∈ l.take pos, x < v) ∧ ∀ x ∈ l.drop pos, v < x

/-- The bounds of the search: what is before `min` is too small, what is after `max` too
large. -/
structure Between (l : List Int) (v : Int) (min max : Int) : Prop where
  lo : 0 ≤ min
  hi : max < l.length
  order : min ≤ max + 1
  below : ∀ (i : Nat) (hi : i < l.length), (i : Int) < min → l.get ⟨i, hi⟩ < v
  above : ∀ (i : Nat) (hi : i < l.length), max < (i : Int) → v < l.get ⟨i, hi⟩

omit h in
theorem Between.cut {v max : Int} (h : Between l v min max) (hend : max < min) :
    Cut l v min.toNat := by
  have hhi := h.hi
  have horder := h.order
  refine ⟨by omega, ?_, ?_⟩
  · intro x hx
    obtain ⟨i, hi, rfl⟩ := mem_take_iff_getElem.mp hx
    exact h.below i (by omega) (by omega)
  · intro x hx
    obtain ⟨i, hi, rfl⟩ := mem_drop_iff_getElem.mp hx
    exact h.above (min.toNat + i) (by omega) (by push_cast; omega)

/-- How the loop of the search ends. -/
def SearchEnd (l : List Int) (v min mid cur : Int) : Prop :=
  (cur = v ∧ ∃ i : Fin l.length, mid = (i : Nat) ∧ l.get i = v) ∨ (cur ≠ v ∧ Cut l v min.toNat)

theorem searchLoop_spec {fuel : Nat} {max : Int} (mid cur : Int)
    (hb : Between l v min max) (hcur : max < min → cur ≠ v) (hfuel : max - min + 1 < fuel) :
    ∃ min' mid' cur', searchLoop is v fuel min max mid cur = some (min', mid', cur') ∧
      SearchEnd l v min' mid' cur' := by
  induction fuel generalizing min max mid cur with
  | zero =>
    have horder := hb.order
    omega
  | succ fuel ih =>
    have hlo := hb.lo
    have hhi := hb.hi
    rw [searchLoop]
    by_cases hrun : max ≥ min
    · have hmid : ((min + max) / 2).toNat < l.length := by omega
      have hcast : (((min + max) / 2).toNat : Int) = (min + max) / 2 := by omega
      have hget := h.get hmid
      rw [hcast] at hget
      simp only [hget, bind_eq_bind, bind_some]
      have hbelow : ∀ (i : Nat) (hi : i < l.length), (i : Int) ≤ (min + max) / 2 →
          l.get ⟨i, hi⟩ ≤ l.get ⟨_, hmid⟩ := fun i hi hle => h.get_le hmid (by omega)
      have habove : ∀ (i : Nat) (hi : i < l.length), (min + max) / 2 ≤ (i : Int) →
          l.get ⟨_, hmid⟩ ≤ l.get ⟨i, hi⟩ := fun i hi hle => h.get_le hi (by omega)
      generalize hx : l.get ⟨_, hmid⟩ = x at *
      split_ifs with hgt hlt
      · refine ih _ _ ⟨by omega, hhi, by omega, fun i hi hlt => ?_, hb.above⟩ (fun _ => by omega)
          (by omega)
        exact (hbelow i hi (by omega)).trans_lt hgt
      · refine ih _ _ ⟨hlo, by omega, by omega, hb.below, fun i hi hlt' => ?_⟩ (fun _ => by omega)
          (by omega)
        exact hlt.trans_le (habove i hi (by omega))
      · have heq : x = v := by omega
        exact ⟨_, _, _, rfl, .inl ⟨heq, ⟨_, hmid⟩, hcast.symm, hx.trans heq⟩⟩
    · rw [if_neg hrun]
      exact ⟨_, _, _, rfl, .inr ⟨hcur (by omega), hb.cut (by omega)⟩⟩

omit h in
theorem Cut.not_mem (h : Cut l v pos) : v ∉ l := by
  intro hv
  rw [← take_append_drop pos l, mem_append] at hv
  rcases hv with hv | hv
  · exact lt_irrefl v (h.2.1 v hv)
  · exact lt_irrefl v (h.2.2 v hv)

omit h in
theorem cInt_pred {n : Nat} (hpos : 0 < n) (hn : n < 2 ^ 31) : cInt (n - 1) = ((n - 1 : Nat) : Int) := by
  have hcast : (n : Int) - 1 = ((n - 1 : Nat) : Int) := by omega
  rw [hcast, cInt_of_lt (by omega)]

/-- The search finds the value or the place for it. -/
theorem Holds.search (v : Int) : (∃ pos, intsetSearch is v = some (false, pos) ∧ Cut l v pos) ∨
      ∃ pre post, l = pre ++ v :: post ∧ intsetSearch is v = some (true, pre.length) := by
  rw [intsetSearch]
  by_cases hzero : is.length = 0
  · have hnil : l = [] := eq_nil_of_length_eq_zero (h.length ▸ hzero)
    rw [if_pos hzero]
    exact .inl ⟨0, rfl, by simp, by simp, by simp [hnil]⟩
  · have hpos : 0 < l.length := by
      rw [← h.length]
      omega
    have hlast := h.get (show l.length - 1 < l.length by omega)
    have hfirst := h.get hpos
    rw [Nat.cast_zero] at hfirst
    rw [if_neg hzero, h.length, cInt_pred hpos h.length_lt]
    simp only [hlast, hfirst, bind_eq_bind, bind_some]
    have hle : ∀ (i : Nat) (hi : i < l.length), l.get ⟨0, hpos⟩ ≤ l.get ⟨i, hi⟩ ∧
        l.get ⟨i, hi⟩ ≤ l.get ⟨l.length - 1, by omega⟩ :=
      fun i hi => ⟨h.get_le hi i.zero_le, h.get_le _ (by omega)⟩
    split_ifs with hgt hlt
    · refine .inl ⟨_, rfl, le_refl _, fun x hx => ?_, by simp⟩
      rw [take_length] at hx
      obtain ⟨i, rfl⟩ := mem_iff_get.mp hx
      exact (hle i i.2).2.trans_lt hgt
    · refine .inl ⟨_, rfl, Nat.zero_le _, by simp, fun x hx => ?_⟩
      obtain ⟨i, rfl⟩ := mem_iff_get.mp hx
      exact hlt.trans_le (hle i i.2).1
    · have hb : Between l v 0 ((l.length - 1 : Nat) : Int) :=
        ⟨le_refl _, by omega, by omega, fun i _ hi => by omega, fun i hi hi' => by omega⟩
      obtain ⟨min', mid', cur', hloop, hend⟩ :=
        searchLoop_spec h (-1) (-1) hb (fun hlt => by omega)
          (show ((l.length - 1 : Nat) : Int) - 0 + 1 < (l.length + 1 : Nat) by omega)
      simp only [hloop, bind_some]
      rcases hend with ⟨rfl, ⟨i, hi⟩, hmid, hget⟩ | ⟨hne, hcut⟩
      · rw [if_pos rfl]
        refine .inr ⟨l.take i, l.drop (i + 1), ?_, ?_⟩
        · rw [← hget]
          simp
        · rw [hmid, Int.toNat_natCast, length_take, min_eq_left hi.le]
      · rw [if_neg (Ne.symm hne)]
        exact .inl ⟨_, rfl, hcut⟩

/-- `intsetFind` tells whether the value is there. -/
theorem Holds.find (hv : Fits 8 v) : intsetFind is v = some (decide (v ∈ l)) := by
  rw [intsetFind]
  split_ifs with hwide
  · have hnot : v ∉ l := fun hmem => by
      have hle := (fits_iff h.encoding hv).mp (h.fits v hmem)
      omega
    simp [hnot]
  · rcases h.search v with ⟨pos, hsearch, hcut⟩ | ⟨pre, post, rfl, hsearch⟩
    · simp [hsearch, hcut.not_mem]
    · simp [hsearch]

/-- The walk over the positions. -/
theorem Holds.intsetGet (pos : Nat) : intsetGet is pos = some l[pos]? := by
  rw [Intsets.intsetGet, h.length]
  split_ifs with hpos
  · rw [h.get hpos]
    simp [hpos]
  · rw [getElem?_eq_none (by omega)]

end Reading

section Adding

theorem intsetSetAt_eq_none (h : is.contents.length < (pos + 1) * is.encoding) :
    intsetSetAt is pos v = none := by
  rw [intsetSetAt, if_neg (by omega)]

variable (h : Holds is l)
include h

/-- Writing the value into a gap, and counting it. -/
theorem Holds.written (hl : l = pre ++ post)
    (henc : IsEncoding enc) (hle : is.encoding ≤ enc) (hv : Fits enc v) (hpre : ∀ x ∈ pre, x < v)
    (hpost : ∀ x ∈ post, v < x) (hroom : (l.length + 1) * enc < 2 ^ 32) {gap : Bytes}
    (hcontents : contents = cells (intBytes enc) pre ++ gap ++ cells (intBytes enc) post)
    (hgap : gap.length = enc) :
    ∃ is' l', ((intsetSetAt ⟨enc, is.length, contents⟩ pre.length v).bind fun is' =>
        some ({ is' with length := (is'.length + 1) % 2 ^ 32 }, true)) = some (is', true) ∧
      Holds is' l' ∧ l'.Perm (v :: l) ∧ is'.encoding = enc := by
  have hlength : (pre ++ v :: post).length = l.length + 1 := by
    rw [hl]
    simp
    omega
  have hsmall : l.length + 1 < 2 ^ 32 := by
    have hmul : (l.length + 1) * 2 ≤ (l.length + 1) * enc := Nat.mul_le_mul_left _ henc.bounds.1
    omega
  have hlen : (pre.length + 1) * enc ≤ contents.length := by
    rw [hcontents, length_append, length_append, cells_length (intBytes_length enc), hgap,
      Nat.succ_mul]
    omega
  have hsorted := pairwise_append.mp (hl ▸ h.sorted)
  rw [intsetSetAt, if_pos hlen, hcontents, store_cell (intBytes_length enc) pre v hgap, bind_some]
  refine ⟨_, pre ++ v :: post, rfl, ⟨henc, ?_, ?_, pairwise_append.mpr ⟨hsorted.1,
    pairwise_cons.mpr ⟨hpost, hsorted.2.1⟩, fun x hx y hy => ?_⟩, fun x hx => ?_, ?_⟩,
    hl ▸ perm_middle, rfl⟩
  · rw [hlength, h.length]
    exact Nat.mod_eq_of_lt hsmall
  · dsimp only
    rw [← cells_append, append_assoc, singleton_append]
  · rcases mem_cons.mp hy with rfl | hy
    · exact hpre x hx
    · exact hsorted.2.2 x hx y hy
  · rcases mem_append.mp hx with hx | hx
    · exact (h.fits x (hl ▸ mem_append_left _ hx)).mono hle
    · rcases mem_cons.mp hx with rfl | hx
      · exact hv
      · exact (h.fits x (hl ▸ mem_append_right _ hx)).mono hle
  · rw [hlength]
    exact hroom

/-- The end of `intsetAdd`, where the place of the value is known. -/
theorem Holds.open_gap (hl : l = pre ++ post) (hroom : (l.length + 1) * is.encoding < 2 ^ 32) :
    ∃ gap : Bytes, gap.length = is.encoding ∧
      (if pre.length < (intsetResize is (is.length + 1)).length then
        intsetMoveTail (intsetResize is (is.length + 1)) pre.length (pre.length + 1)
      else some (intsetResize is (is.length + 1))) =
        some { is with
          contents := cells (intBytes is.encoding) pre ++ gap ++
            cells (intBytes is.encoding) post } := by
  subst hl
  have hresize : intsetResize is (is.length + 1) =
      { is with
        contents := realloc (cells (intBytes is.encoding) (pre ++ post))
          (((pre ++ post).length + 1) * is.encoding) } := by
    rw [intsetResize, h.length, Nat.mod_eq_of_lt hroom, ← h.contents]
  have hlen : is.length = pre.length + post.length := by rw [h.length, length_append]
  rw [hresize]
  rw [hlen]
  cases post with
  | nil =>
    refine ⟨List.replicate is.encoding 0, by simp, ?_⟩
    have hcells := cells_length (intBytes_length is.encoding) pre
    rw [if_neg (by simp), append_nil, cells_nil, append_nil,
      realloc_of_le (by rw [hcells, Nat.succ_mul]; omega), hcells, Nat.succ_mul,
      Nat.add_sub_cancel_left]
  | cons x post =>
    obtain ⟨gap, hgap, hmove⟩ :=
      grow_cells (intBytes_length is.encoding) pre (x :: post)
    refine ⟨gap, hgap, ?_⟩
    have hbytes : (pre.length + (x :: post).length - pre.length) * is.encoding % 2 ^ 32 =
        (x :: post).length * is.encoding := by
      have hle : (x :: post).length * is.encoding ≤
          ((pre ++ x :: post).length + 1) * is.encoding :=
        Nat.mul_le_mul_right _ (by simp; omega)
      rw [Nat.add_sub_cancel_left, Nat.mod_eq_of_lt (by omega)]
    have hfits : pre.length * is.encoding + (x :: post).length * is.encoding ≤
        ((pre ++ x :: post).length + 1) * is.encoding ∧
        (pre.length + 1) * is.encoding + (x :: post).length * is.encoding ≤
          ((pre ++ x :: post).length + 1) * is.encoding := by
      rw [← add_mul, ← add_mul, length_append]
      exact ⟨Nat.mul_le_mul_right _ (by omega), Nat.mul_le_mul_right _ (by omega)⟩
    rw [if_pos (by simp), intsetMoveTail]
    rw [hbytes, if_pos (by rw [realloc_length]; exact hfits), hmove]

/-- Adding a value for which the cells are wide enough. -/
theorem Holds.add_cell (hcut : Cut l v pos)
    (hwide : intsetValueEncoding v ≤ is.encoding) (hv : Fits 8 v)
    (hsearch : intsetSearch is v = some (false, pos))
    (hroom : (l.length + 1) * is.encoding < 2 ^ 32) :
    ∃ is' l', intsetAdd is v = some (is', true) ∧ Holds is' l' ∧ l'.Perm (v :: l) ∧
      is'.encoding = is.encoding := by
  have hl : l = l.take pos ++ l.drop pos := (take_append_drop pos l).symm
  have hlen : (l.take pos).length = pos := by
    rw [length_take]
    exact min_eq_left hcut.1
  obtain ⟨gap, hgap, hopen⟩ := h.open_gap hl hroom
  rw [hlen] at hopen
  have hwritten := h.written hl h.encoding le_rfl ((fits_iff h.encoding hv).mpr hwide) hcut.2.1
    hcut.2.2 hroom rfl hgap
  rw [hlen] at hwritten
  rw [intsetAdd, if_neg (by omega)]
  simp only [hsearch, bind_eq_bind, bind_some, Bool.false_eq_true, if_false]
  rw [hopen]
  exact hwritten

/-- Too many cells: the memory is smaller than the array. -/
theorem Holds.add_cell_eq_none (hcut : Cut l v pos)
    (hwide : intsetValueEncoding v ≤ is.encoding) (hsearch : intsetSearch is v = some (false, pos))
    (hfull : 2 ^ 32 ≤ (l.length + 1) * is.encoding) : intsetAdd is v = none := by
  have hmem : (intsetResize is (l.length + 1)).contents.length < (l.length + 1) * is.encoding := by
    rw [intsetResize, realloc_length]
    exact (Nat.mod_lt _ (by norm_num)).trans_le hfull
  have hlen : (intsetResize is (l.length + 1)).length = l.length := h.length
  rw [intsetAdd, if_neg (by omega)]
  simp only [hsearch, bind_eq_bind, bind_some, Bool.false_eq_true, if_false, h.length, hlen]
  split_ifs with hpos
  · have hbytes : (l.length - pos) * is.encoding % 2 ^ 32 = (l.length - pos) * is.encoding := by
      have hle : (l.length - pos) * is.encoding ≤ l.length * is.encoding :=
        Nat.mul_le_mul_right _ (by omega)
      have hroom := h.room
      exact Nat.mod_eq_of_lt (by omega)
    have hend : (pos + 1) * is.encoding + (l.length - pos) * is.encoding =
        (l.length + 1) * is.encoding := by
      rw [← add_mul]
      congr 1
      omega
    rw [intsetMoveTail]
    simp only [hlen, show (intsetResize is (l.length + 1)).encoding = is.encoding from rfl, hbytes,
      hend]
    rw [if_neg (by omega), bind_none]
  · rw [bind_some, intsetSetAt_eq_none, bind_none]
    have heq : pos = l.length := le_antisymm hcut.1 (not_lt.mp hpos)
    rw [heq]
    exact hmem

/-- The memory while the cells are widened: the first ones are still narrow, the others are in
their new places. -/
structure Upgrading (contents : Bytes) (curenc enc prepend k : Nat) (l : List Int) (tail : Bytes) :
    Prop where
  narrow : contents.take (k * curenc) = cells (intBytes curenc) (l.take k)
  wide : contents.drop ((k + prepend) * enc) = cells (intBytes enc) (l.drop k) ++ tail
  size : contents.length = (l.length + 1) * enc

omit h in
theorem Upgrading.step {enc : Nat}
    (h : Upgrading contents curenc enc prepend (k + 1) l tail) (hk : k < l.length)
    (hprepend : prepend ≤ 1) (hle : curenc ≤ enc) :
    Upgrading (store contents ((k + prepend) * enc) (intBytes enc (l.get ⟨k, hk⟩)))
      curenc enc prepend k l tail := by
  have hend : (k + prepend) * enc + enc ≤ contents.length := by
    rw [h.size, ← Nat.succ_mul]
    exact Nat.mul_le_mul_right _ (by omega)
  refine ⟨?_, ?_, ?_⟩
  · have hbefore : k * curenc ≤ (k + prepend) * enc := Nat.mul_le_mul (by omega) hle
    have hshort : k * curenc ≤ (k + 1) * curenc := Nat.mul_le_mul_right _ (by omega)
    rw [take_store hbefore (by omega), ← min_eq_left hshort, ← take_take, h.narrow,
      take_succ_eq_append_getElem hk, cells_append]
    have hlen : (cells (intBytes curenc) (l.take k)).length = k * curenc := by
      rw [cells_length (intBytes_length curenc), length_take, min_eq_left hk.le]
    rw [← hlen, take_left]
  · have hnext : (k + prepend) * enc + enc = (k + 1 + prepend) * enc := by
      rw [← Nat.succ_mul]
      congr 1
      omega
    rw [drop_store _ (by omega), intBytes_length, hnext, h.wide, drop_eq_getElem_cons hk,
      cells_cons, append_assoc]
    rfl
  · rw [store_length (by rw [intBytes_length]; exact hend), h.size]

omit h in
theorem upgradeLoop_spec (is : Intset)
    (h : Upgrading is.contents curenc is.encoding prepend k l tail) (hk : k ≤ l.length)
    (hprepend : prepend ≤ 1) (hle : curenc ≤ is.encoding) (hfits : ∀ x ∈ l, Fits curenc x) :
    ∃ contents, upgradeLoop curenc prepend k is = some { is with contents := contents } ∧
      Upgrading contents curenc is.encoding prepend 0 l tail := by
  induction k generalizing is with
  | zero => exact ⟨is.contents, rfl, h⟩
  | succ k ih =>
    have hlt : k < l.length := hk
    have hsplit : is.contents = cells (intBytes curenc) (l.take k ++ [l.get ⟨k, hlt⟩]) ++
        is.contents.drop ((k + 1) * curenc) := by
      conv_lhs => rw [← take_append_drop ((k + 1) * curenc) is.contents, h.narrow,
        take_succ_eq_append_getElem hlt]
      rfl
    have hget := intsetGetEncoded_cell hsplit (hfits _ (get_mem l ⟨k, hlt⟩))
    rw [length_take, min_eq_left hlt.le] at hget
    have hfit : (k + prepend + 1) * is.encoding ≤ is.contents.length := by
      rw [h.size]
      exact Nat.mul_le_mul_right _ (by omega)
    obtain ⟨contents, hloop, hdone⟩ := ih { is with
      contents := store is.contents ((k + prepend) * is.encoding)
        (intBytes is.encoding (l.get ⟨k, hlt⟩)) } (h.step hlt hprepend hle) hlt.le hle
    refine ⟨contents, ?_, hdone⟩
    rw [upgradeLoop, hget]
    simp only [bind_eq_bind, bind_some]
    rw [intsetSetAt, if_pos hfit, bind_some, hloop]

/-- Before the first cell is widened. -/
theorem Holds.upgrading (hle : is.encoding ≤ enc) :
    Upgrading (realloc is.contents ((l.length + 1) * enc)) is.encoding enc prepend l.length l
      ((realloc is.contents ((l.length + 1) * enc)).drop ((l.length + prepend) * enc)) := by
  have hlen : is.contents.length = l.length * is.encoding := by
    rw [h.contents, cells_length (intBytes_length is.encoding)]
  have hgrow : is.contents.length ≤ (l.length + 1) * enc := by
    rw [hlen]
    exact Nat.mul_le_mul (by omega) hle
  refine ⟨?_, by simp, realloc_length _ _⟩
  rw [realloc_of_le hgrow, ← hlen, take_left, take_length, h.contents]

/-- Adding a value that needs wider cells. -/
theorem Holds.add_upgrade (hwide : is.encoding < intsetValueEncoding v)
    (hv : Fits 8 v) (hroom : (l.length + 1) * intsetValueEncoding v < 2 ^ 32) :
    ∃ is' l', intsetAdd is v = some (is', true) ∧ Holds is' l' ∧ l'.Perm (v :: l) ∧
      is'.encoding = intsetValueEncoding v := by
  have henc := isEncoding_value v
  have hfits : Fits (intsetValueEncoding v) v := (fits_iff henc hv).mpr le_rfl
  have houtside : ∀ x ∈ l, (v < 0 → v < x) ∧ (0 ≤ v → x < v) := fun x hx =>
    outside_of_not_fits (h.fits x hx) (fun hfit => by
      have hle := (fits_iff h.encoding hv).mp hfit
      omega)
  rw [intsetAdd, if_pos hwide, intsetUpgradeAndAdd]
  generalize intsetValueEncoding v = enc at *
  have hprepend : (if v < 0 then 1 else 0) ≤ 1 := by split_ifs <;> omega
  obtain ⟨contents, hloop, hdone⟩ := upgradeLoop_spec
    ⟨enc, is.length, realloc is.contents ((l.length + 1) * enc)⟩ (h.upgrading hwide.le) le_rfl
    hprepend hwide.le h.fits
  have hwhole := hdone.wide
  rw [zero_add, drop_zero] at hwhole
  rw [h.length] at hloop
  simp only [intsetResize, h.length, Nat.mod_eq_of_lt hroom, hloop, bind_eq_bind, bind_some,
    map_bind]
  rw [← h.length]
  by_cases hneg : v < 0
  · rw [if_pos hneg] at hwhole ⊢
    have htail : (realloc is.contents ((l.length + 1) * enc)).drop ((l.length + 1) * enc) = [] :=
      drop_of_length_le (realloc_length _ _).le
    rw [htail, append_nil, one_mul] at hwhole
    have hcontents : contents = cells (intBytes enc) [] ++ contents.take enc ++
        cells (intBytes enc) l := by
      rw [cells_nil, nil_append, ← hwhole, take_append_drop]
    have hgap : (contents.take enc).length = enc := by
      rw [length_take, hdone.size]
      exact min_eq_left (Nat.le_mul_of_pos_left _ (by omega))
    exact h.written (nil_append l).symm henc hwide.le hfits (by simp)
      (fun x hx => (houtside x hx).1 hneg) hroom hcontents hgap
  · rw [if_neg hneg] at hwhole ⊢
    rw [Nat.zero_mul, drop_zero, add_zero] at hwhole
    have hgap : ((realloc is.contents ((l.length + 1) * enc)).drop (l.length * enc)).length =
        enc := by
      rw [length_drop, realloc_length, Nat.succ_mul, Nat.add_sub_cancel_left]
    have hwritten := h.written (append_nil l).symm henc hwide.le hfits
      (fun x hx => (houtside x hx).2 (by omega)) (by simp) hroom
      (hwhole.trans (append_nil _).symm) hgap
    rwa [← h.length] at hwritten

/-- Too many wide cells. -/
theorem Holds.add_upgrade_eq_none (hwide : is.encoding < intsetValueEncoding v)
    (hfull : 2 ^ 32 ≤ (l.length + 1) * intsetValueEncoding v) : intsetAdd is v = none := by
  have hsmall : intsetValueEncoding v ≤ 8 := (isEncoding_value v).bounds.2
  rw [intsetAdd, if_pos hwide, intsetUpgradeAndAdd]
  simp only [h.length]
  cases hn : l.length with
  | zero =>
    rw [hn] at hfull
    omega
  | succ k =>
    -- The memory does not even have the cell before the last one.
    have hmem : (k + 1 + 1) * intsetValueEncoding v % 2 ^ 32 < (k + 1) * intsetValueEncoding v := by
      rw [hn] at hfull
      rw [Nat.succ_mul] at hfull ⊢
      generalize (k + 1) * intsetValueEncoding v = m at *
      omega
    rw [upgradeLoop]
    cases hget : intsetGetEncoded (intsetResize ⟨intsetValueEncoding v, k + 1, is.contents⟩
        (k + 1 + 1)) k is.encoding with
    | none => simp
    | some x =>
      have hle : (k + 1) * intsetValueEncoding v ≤
          (k + (if v < 0 then 1 else 0) + 1) * intsetValueEncoding v :=
        Nat.mul_le_mul_right _ (by omega)
      have hset : intsetSetAt (intsetResize ⟨intsetValueEncoding v, k + 1, is.contents⟩
          (k + 1 + 1)) (k + if v < 0 then 1 else 0) x = none := by
        apply intsetSetAt_eq_none
        rw [intsetResize, realloc_length]
        exact hmem.trans_le hle
      simp [hset]

/-- What `intsetAdd` does. There is an encoding that is wide enough for the value, and the array
has to fit in 32 bits with it. -/
theorem Holds.add (hv : Fits 8 v) : (v ∈ l → intsetAdd is v = some (is, false)) ∧
    (v ∉ l → (l.length + 1) * max is.encoding (intsetValueEncoding v) < 2 ^ 32 →
        ∃ is' l', intsetAdd is v = some (is', true) ∧ Holds is' l' ∧ l'.Perm (v :: l) ∧
          is'.encoding = max is.encoding (intsetValueEncoding v)) ∧
      (v ∉ l → 2 ^ 32 ≤ (l.length + 1) * max is.encoding (intsetValueEncoding v) →
        intsetAdd is v = none) := by
  rcases lt_or_ge is.encoding (intsetValueEncoding v) with hwide | hwide
  · rw [max_eq_right hwide.le]
    refine ⟨fun hmem => ?_, fun _ hroom => h.add_upgrade hwide hv hroom,
      fun _ hfull => h.add_upgrade_eq_none hwide hfull⟩
    have hle := (fits_iff h.encoding hv).mp (h.fits v hmem)
    omega
  · rw [max_eq_left hwide]
    rcases h.search v with ⟨pos, hsearch, hcut⟩ | ⟨pre, post, hl, hsearch⟩
    · exact ⟨fun hmem => absurd hmem hcut.not_mem,
        fun _ hroom => h.add_cell hcut hwide hv hsearch hroom,
        fun _ hfull => h.add_cell_eq_none hcut hwide hsearch hfull⟩
    · have hmem : v ∈ l := by simp [hl]
      refine ⟨fun _ => ?_, fun hnot => absurd hmem hnot, fun hnot => absurd hmem hnot⟩
      rw [intsetAdd, if_neg (by omega), hsearch]
      rfl

end Adding

section Removing

/-- Closing the gap of a value that is removed. -/
theorem Holds.close_gap (h : Holds is l) (hl : l = pre ++ v :: post) :
    ∃ is', (if pre.length < is.length - 1 then intsetMoveTail is (pre.length + 1) pre.length
        else some is) = some is' ∧
      { intsetResize is' (is.length - 1) with length := is.length - 1 } =
        (⟨is.encoding, (pre ++ post).length, cells (intBytes is.encoding) (pre ++ post)⟩ :
          Intset) := by
  subst hl
  have hlen : is.length - 1 = (pre ++ post).length := by
    rw [h.length]
    simp
  have hroom : (pre ++ post).length * is.encoding < 2 ^ 32 := by
    have hle : (pre ++ post).length * is.encoding ≤ (pre ++ v :: post).length * is.encoding :=
      Nat.mul_le_mul_right _ (by simp)
    exact hle.trans_lt h.room
  have hshrink := shrink_cells (intBytes_length is.encoding) pre v post
  rw [hlen]
  cases post with
  | nil =>
    rw [if_neg (by simp)]
    refine ⟨is, rfl, ?_⟩
    rw [append_nil] at hroom ⊢
    rw [intsetResize, Nat.mod_eq_of_lt hroom, h.contents, cells_append]
    have hcells := cells_length (intBytes_length is.encoding) pre
    rw [realloc, ← hcells, take_left, Nat.sub_eq_zero_of_le (by simp),
      replicate_zero, append_nil]
  | cons x post =>
    rw [if_pos (by simp), intsetMoveTail]
    have hbytes : (is.length - (pre.length + 1)) * is.encoding % 2 ^ 32 =
        (x :: post).length * is.encoding := by
      have hcount : is.length - (pre.length + 1) = (x :: post).length := by
        rw [h.length]
        simp
        omega
      have hle : (x :: post).length * is.encoding ≤
          (pre ++ x :: post).length * is.encoding := Nat.mul_le_mul_right _ (by simp)
      rw [hcount, Nat.mod_eq_of_lt (hle.trans_lt hroom)]
    have hsize : is.contents.length = (pre.length + 1 + (x :: post).length) * is.encoding := by
      rw [h.contents, cells_length (intBytes_length is.encoding)]
      congr 1
      simp
      omega
    have hfits : (pre.length + 1) * is.encoding + (x :: post).length * is.encoding ≤
        is.contents.length ∧ pre.length * is.encoding + (x :: post).length * is.encoding ≤
          is.contents.length := by
      rw [hsize, ← add_mul, ← add_mul]
      exact ⟨le_rfl, Nat.mul_le_mul_right _ (by omega)⟩
    simp only [hbytes]
    rw [if_pos hfits]
    refine ⟨_, rfl, ?_⟩
    rw [intsetResize, Nat.mod_eq_of_lt hroom]
    rw [h.contents, hshrink]

/-- What `intsetRemove` does. -/
theorem Holds.remove (h : Holds is l) (hv : Fits 8 v) :
    ∃ is', intsetRemove is v = some (is', decide (v ∈ l)) ∧ Holds is' (l.erase v) ∧
      is'.encoding = is.encoding := by
  by_cases hmem : v ∈ l
  · have hwide := (fits_iff h.encoding hv).mp (h.fits v hmem)
    rcases h.search v with ⟨pos, _, hcut⟩ | ⟨pre, post, hl, hsearch⟩
    · exact absurd hmem hcut.not_mem
    · have hsorted := h.sorted
      rw [hl, pairwise_append] at hsorted
      have herase : l.erase v = pre ++ post := by
        have hpre : v ∉ pre := fun hin => lt_irrefl v (hsorted.2.2 v hin v (by simp))
        rw [hl, erase_append_right _ hpre, erase_cons_head]
      have hsub : (pre ++ post).Sublist l := herase ▸ erase_sublist
      obtain ⟨is', hmove, hresult⟩ := h.close_gap hl
      refine ⟨⟨is.encoding, (pre ++ post).length, cells (intBytes is.encoding) (pre ++ post)⟩,
        ?_, ?_, rfl⟩
      · rw [intsetRemove, if_neg (by omega), hsearch]
        simp only [bind_eq_bind, bind_some, if_true]
        rw [hmove, bind_some, hresult, decide_eq_true hmem]
      · rw [herase]
        refine ⟨h.encoding, rfl, rfl, h.sorted.sublist hsub, fun x hx => h.fits x (hsub.mem hx), ?_⟩
        exact (Nat.mul_le_mul_right _ hsub.length_le).trans_lt h.room
  · refine ⟨is, ?_, by rwa [erase_of_not_mem hmem], rfl⟩
    rw [intsetRemove, decide_eq_false hmem]
    split_ifs
    · rfl
    · rcases h.search v with ⟨pos, hsearch, _⟩ | ⟨pre, post, hl, _⟩
      · rw [hsearch]
        rfl
      · exact absurd (by simp [hl]) hmem

end Removing

theorem holds_intsetNew : Holds intsetNew [] :=
  ⟨.inl rfl, rfl, rfl, List.Pairwise.nil, by simp, by simp⟩

section Runs

/-- There is one place for a value. -/
theorem Cut.unique {pos' : Nat} (h : Cut l v pos) (h' : Cut l v pos') : pos' ≤ pos := by
  by_contra hlt
  have hpos : pos < l.length := by
    have := h'.1
    omega
  have hbelow := h'.2.1 l[pos] (mem_take_iff_getElem.mpr ⟨pos, by omega, rfl⟩)
  have habove := h.2.2 l[pos] (mem_drop_iff_getElem.mpr ⟨0, by omega, by simp⟩)
  omega

inductive Op where
  | add (v : Int)
  | remove (v : Int)

def Op.value : Op → Int
  | .add v | .remove v => v

/-- The code, with the success flag of the operation; `none` when the memory of the set was left. -/
def intsetStep (is : Option Intset) (op : Op) : Option Intset × Option Bool :=
  let r := is.bind fun is => match op with
    | .add v => intsetAdd is v
    | .remove v => intsetRemove is v
  (r.map Prod.fst, r.map Prod.snd)

/-- The same operations on a finite set; the flag says whether it changed. -/
def setStep (s : Finset Int) (op : Op) : Finset Int × Option Bool :=
  let s' := match op with
    | .add v => insert v s
    | .remove v => s.erase v
  (s', some (s' ≠ s))

/-- The values are of 64 bits, and so many of them are addressed by a 32-bit size. -/
def Room (s : Finset Int) (op : Op) : Prop :=
  Fits 8 op.value ∧ (setStep s op).1.card * 8 < 2 ^ 32

/-- A finite set by its increasing list of integers. -/
structure SetOf (is : Intset) (s : Finset Int) (l : List Int) : Prop where
  get : ∀ pos, intsetGet is pos = some l[pos]?
  increasing : l.Pairwise (· < ·)
  wide : ∀ x ∈ l, Fits is.encoding x
  members : l.toFinset = s
  length : intsetLen is = s.card
  find : ∀ v, Fits 8 v → intsetFind is v = some (decide (v ∈ s))
  search : ∀ v ∉ s, ∃ pos, intsetSearch is v = some (false, pos) ∧ Cut l v pos ∧
    ∀ pos', Cut l v pos' → pos' = pos

theorem Holds.setOf (h : Holds is l) : SetOf is l.toFinset l := by
  refine ⟨h.intsetGet, h.sorted, h.fits, rfl, ?_, fun v hv => ?_, fun v hv => ?_⟩
  · rw [intsetLen, h.length, toFinset_card_of_nodup (h.sorted.imp ne_of_lt)]
  · rw [h.find hv]
    simp
  · rcases h.search v with ⟨pos, hsearch, hcut⟩ | ⟨pre, post, rfl, -⟩
    · exact ⟨pos, hsearch, hcut, fun pos' h' => le_antisymm (hcut.unique h') (h'.unique hcut)⟩
    · simp at hv

def Represents (s : Finset Int) (o : Option Intset) : Prop :=
  ∃ is l, o = some is ∧ Holds is l ∧ l.toFinset = s

theorem setStep_simulates {s : Finset Int} {o : Option Intset} {op : Op} (h : Represents s o)
    (hroom : Room s op) :
    Represents (setStep s op).1 (intsetStep o op).1 ∧ (setStep s op).2 = (intsetStep o op).2 := by
  obtain ⟨is, l, rfl, h, rfl⟩ := h
  obtain ⟨hv, hcard⟩ := hroom
  have hnodup : l.Nodup := h.sorted.imp ne_of_lt
  cases op with
  | add v =>
    obtain ⟨hold, hnew, -⟩ := h.add (v := v) hv
    by_cases hmem : v ∈ l
    · simp only [intsetStep, setStep, bind_some, hold hmem, map_some]
      exact ⟨⟨is, l, rfl, h, by simp [hmem]⟩, by simp [hmem]⟩
    · have hbound : max is.encoding (intsetValueEncoding v) ≤ 8 :=
        max_le h.encoding.bounds.2 (isEncoding_value v).bounds.2
      have hsize : (l.length + 1) * max is.encoding (intsetValueEncoding v) < 2 ^ 32 := by
        refine (Nat.mul_le_mul_left _ hbound).trans_lt ?_
        rwa [setStep, Finset.card_insert_of_notMem (by simpa using hmem),
          toFinset_card_of_nodup hnodup] at hcard
      obtain ⟨is', l', hadd, h', hperm, -⟩ := hnew hmem hsize
      simp only [intsetStep, setStep, bind_some, hadd, map_some]
      exact ⟨⟨is', l', rfl, h', by rw [toFinset_eq_of_perm _ _ hperm, toFinset_cons]⟩,
        by simp [hmem]⟩
  | remove v =>
    obtain ⟨is', hremove, h', -⟩ := h.remove (v := v) hv
    simp only [intsetStep, setStep, bind_some, hremove, map_some]
    refine ⟨⟨is', l.erase v, rfl, h', ?_⟩, by simp⟩
    ext x
    simp [hnodup.mem_erase_iff]

/-- Every run on a new intset does what it does to a finite set of integers. -/
theorem intset_refines_finset (ops : List Op) (hroom : RunOk setStep Room ∅ ops) :
    ∃ is l, run intsetStep (some intsetNew) ops = (some is, (run setStep ∅ ops).2) ∧
      SetOf is (run setStep ∅ ops).1 l := by
  have hstep : ∀ s o op, Represents s o → Room s op → Represents (setStep s op).1
      (intsetStep o op).1 ∧ (setStep s op).2 = (intsetStep o op).2 :=
    fun _ _ _ => setStep_simulates
  have hnew : Represents ∅ (some intsetNew) := ⟨intsetNew, [], rfl, holds_intsetNew, rfl⟩
  obtain ⟨⟨is, l, hlast, h, hset⟩, hflags⟩ := run_simulates hstep hnew hroom
  exact ⟨is, l, Prod.ext hlast (forall₂_eq_eq_eq ▸ hflags).symm, hset ▸ h.setOf⟩

/-- The second value widens the cells. -/
theorem intset_refines_finset_upgrade :
    ∃ is l, run intsetStep (some intsetNew) [.add 5, .add (-70000), .remove 5] =
        (some is, [some true, some true, some true]) ∧ SetOf is {-70000} l :=
  intset_refines_finset [.add 5, .add (-70000), .remove 5]
    ⟨⟨fits_eight.mpr (by decide), by decide⟩, ⟨fits_eight.mpr (by decide), by decide⟩,
      ⟨fits_eight.mpr (by decide), by decide⟩, trivial⟩

end Runs

end Redis.Intsets
