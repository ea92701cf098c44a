import Mathlib

/-! Byte strings as flat memory: little-endian words, stores, block moves and
reallocation. A state is written as a concatenation of its parts, and each
operation has one lemma that says which part it replaces. -/
namespace ByteBuffer

open List

variable {a b bs p t x y z : Bytes}

abbrev Bytes := List UInt8

/-- The lexicographic order of `memcmp`. -/
instance : IsStrictTotalOrder Bytes (· < ·) where

instance : LawfulBEq Bytes := inferInstance

variable {i n : Nat} {m : Bytes}

/-- The byte at an index, zero outside. -/
def byteAt (p : Bytes) (i : Nat) : Nat := (p.getD i 0).toNat

/-- The `n` low bytes of a number, least significant first. -/
def leBytes : Nat → Nat → Bytes
  | 0, _ => []
  | n + 1, v => UInt8.ofNat v :: leBytes n (v / 256)

/-- Read `n` bytes as a little-endian number. -/
def readLE : Nat → Bytes → Nat
  | 0, _ => 0
  | _ + 1, [] => 0
  | n + 1, b :: rest => b.toNat + 256 * readLE n rest

/-- Overwrite the bytes from index `i` on. -/
def store (m : Bytes) (i : Nat) (bs : Bytes) : Bytes :=
  m.take i ++ bs ++ m.drop (i + bs.length)

/-- Copy `n` bytes from one place to another; the ranges may overlap. -/
def memmove (m : Bytes) (dst src n : Nat) : Bytes := store m dst ((m.drop src).take n)

/-- Change the size of the memory, keeping what still fits. -/
def realloc (m : Bytes) (n : Nat) : Bytes := m.take n ++ List.replicate (n - m.length) 0

theorem byteAt_drop (p : Bytes) (i j : Nat) : byteAt (p.drop i) j = byteAt p (i + j) := by
  simp [byteAt, getD_eq_getElem?_getD]

@[simp] theorem byteAt_cons_zero (b : UInt8) (p : Bytes) : byteAt (b :: p) 0 = b.toNat := rfl

@[simp] theorem byteAt_cons_succ (b : UInt8) (p : Bytes) (i : Nat) :
    byteAt (b :: p) (i + 1) = byteAt p i := by
  simp [byteAt]

theorem byteAt_lt (p : Bytes) (i : Nat) : byteAt p i < 256 := UInt8.toNat_lt _

/-- Reading at the end of a known part. -/
theorem byteAt_append (a b : Bytes) (i : Nat) : byteAt (a ++ b) (a.length + i) = byteAt b i := by
  rw [← byteAt_drop, drop_left]

@[simp] theorem leBytes_length (n v : Nat) : (leBytes n v).length = n := by
  induction n generalizing v with
  | zero => rfl
  | succ n ih => simp [leBytes, ih]

/-- A stored word reads back modulo its width. -/
theorem readLE_leBytes (n v : Nat) (rest : Bytes) :
    readLE n (leBytes n v ++ rest) = v % 256 ^ n := by
  induction n generalizing v with
  | zero => simp [readLE, Nat.mod_one]
  | succ n ih =>
    have hbyte : (UInt8.ofNat v).toNat = v % 256 := by simp
    rw [leBytes, cons_append, readLE, ih, hbyte, pow_succ, mul_comm (256 ^ n),
      Nat.mod_mul]

theorem readLE_leBytes_of_lt {n v : Nat} (h : v < 256 ^ n) (rest : Bytes) :
    readLE n (leBytes n v ++ rest) = v := by
  rw [readLE_leBytes, Nat.mod_eq_of_lt h]

/-- A word that was read is stored back unchanged. -/
theorem leBytes_readLE (h : n ≤ p.length) : leBytes n (readLE n p) = p.take n := by
  induction n generalizing p with
  | zero => rfl
  | succ n ih =>
    cases p with
    | nil => simp at h
    | cons b rest =>
      have hbyte : UInt8.ofNat (b.toNat + 256 * readLE n rest) = b := by
        apply UInt8.toNat_inj.mp
        simp
      have hrest : (b.toNat + 256 * readLE n rest) / 256 = readLE n rest := by
        have := b.toNat_lt
        omega
      rw [readLE, leBytes, hbyte, hrest, ih (by simpa using h), take_succ_cons]

theorem readLE_append (h : n ≤ a.length) (b : Bytes) :
    readLE n (a ++ b) = readLE n a := by
  induction n generalizing a with
  | zero => rfl
  | succ n ih =>
    cases a with
    | nil => simp at h
    | cons x a =>
      rw [cons_append, readLE, readLE, ih (by simpa using h)]

theorem readLE_lt (n : Nat) (p : Bytes) : readLE n p < 256 ^ n := by
  induction n generalizing p with
  | zero => simp [readLE]
  | succ n ih =>
    cases p with
    | nil =>
      positivity
    | cons b rest =>
      have hb := UInt8.toNat_lt b
      have hrest := ih rest
      rw [readLE, pow_succ]
      omega

/-- A store replaces a part of the same length. -/
theorem store_append (hi : i = a.length) (h : y.length = x.length) :
    store (a ++ x ++ b) i y = a ++ y ++ b := by
  subst hi
  have hdrop : (a ++ x ++ b).drop (a.length + y.length) = b := by
    rw [h, ← length_append, drop_left]
  rw [store, hdrop, append_assoc a x b, take_left]

/-- A store into the back of a part leaves its front as a gap. -/
theorem store_gap {q : Bytes} {i g : Nat} (hi : i = p.length + g)
    (h : g + y.length = q.length) : store (p ++ q ++ z) i y = p ++ q.take g ++ y ++ z := by
  have hsplit : p ++ q ++ z = (p ++ q.take g) ++ q.drop g ++ z := by simp
  rw [hsplit]
  apply store_append
  · rw [hi, length_append, length_take]
    omega
  · rw [length_drop]
    omega

theorem store_length {m : Bytes} (h : i + bs.length ≤ m.length) :
    (store m i bs).length = m.length := by
  simp [store]
  omega

/-- What is in front of a store stays. -/
theorem take_store {m : Bytes} {i j : Nat} (hj : j ≤ i) (hi : i ≤ m.length) :
    (store m i bs).take j = m.take j := by
  rw [store, append_assoc, take_append_of_le_length (by simp; omega), take_take,
    min_eq_left hj]

/-- The bytes from a store on. -/
theorem drop_store (bs : Bytes) (hi : i ≤ m.length) :
    (store m i bs).drop i = bs ++ m.drop (i + bs.length) := by
  have hlen : (m.take i).length = i := by simp [hi]
  rw [store, append_assoc, drop_append_of_le_length hlen.ge,
    drop_of_length_le hlen.le, nil_append]

/-- Storing over a store of at least the same length at the same place. -/
theorem store_store_prefix {w : Bytes} (hi : i ≤ m.length) (h : y.length = w.length) :
    store (store m i (w ++ t)) i y = store m i (y ++ t) := by
  have hlen : (m.take i).length = i := by simp [hi]
  have hstore : store m i (w ++ t) = m.take i ++ w ++ (t ++ m.drop (i + (w ++ t).length)) := by
    simp [store]
  rw [hstore, store_append hlen.symm h]
  simp [store, h]

theorem exists_append_of_le (h : n ≤ m.length) : ∃ a b, m = a ++ b ∧ a.length = n :=
  ⟨m.take n, m.drop n, (take_append_drop n m).symm, by rw [length_take]; omega⟩

/-- Two stores one behind the other fill a gap. -/
theorem store_store_append {g : Bytes} (hi : i = a.length) (h : g.length = y.length + z.length) :
    store (store (a ++ g ++ b) i y) (i + y.length) z = a ++ (y ++ z) ++ b := by
  obtain ⟨u, v, rfl, hu⟩ := exists_append_of_le (show y.length ≤ g.length by omega)
  rw [length_append] at h
  have h1 := store_append (b := v ++ b) hi hu.symm
  have h2 := store_append (a := a ++ y) (x := v) (b := b) (y := z) (i := i + y.length)
    (by rw [hi, length_append]) (by omega)
  simp only [append_assoc] at h1 h2 ⊢
  rw [h1, h2]

/-- Reading a block that ends with a known part. -/
theorem take_drop_block {r : Bytes} {src k : Nat} (h : src + k = p.length) :
    ∃ w, w.length = k ∧ ((p ++ t ++ r).drop src).take (k + t.length) = w ++ t := by
  refine ⟨((p ++ t ++ r).drop src).take k, ?_, ?_⟩
  · simp
    omega
  · rw [take_add, drop_drop, h, append_assoc, drop_left, take_left]

theorem realloc_of_le (h : m.length ≤ n) : realloc m n = m ++ replicate (n - m.length) 0 := by
  rw [realloc, take_of_length_le h]

theorem realloc_length (m : Bytes) (n : Nat) : (realloc m n).length = n := by
  simp [realloc]
  omega

/-- Growing the memory and moving its last part back opens a gap. -/
theorem memmove_realloc {m : Nat} (h : x.length ≤ m) :
    ∃ gap : Bytes, gap.length = m ∧
      memmove (realloc (a ++ x ++ b) (a.length + m + b.length)) (a.length + m)
        (a.length + x.length) b.length = a ++ gap ++ b := by
  have hgrow : realloc (a ++ x ++ b) (a.length + m + b.length) =
      a ++ x ++ b ++ replicate (m - x.length) 0 := by
    rw [realloc_of_le (by simp; omega)]
    congr 2
    simp
    omega
  have hread : ((a ++ x ++ b ++ replicate (m - x.length) 0).drop (a.length + x.length)).take
      b.length = b := by
    rw [← length_append, append_assoc (a ++ x), drop_left, take_left]
  have hstore := store_gap (p := a) (q := x ++ b ++ replicate (m - x.length) 0) (z := [])
    (y := b) (g := m) rfl (by simp; omega)
  refine ⟨(x ++ b ++ replicate (m - x.length) 0).take m, by simp; omega, ?_⟩
  rw [hgrow, memmove, hread]
  simpa using hstore

/-- Moving a part forward, over the end of the part in front of it. -/
theorem memmove_forward {m i j : Nat} (h : m ≤ x.length)
    (hi : i = a.length + m) (hj : j = a.length + x.length) :
    ∃ junk : Bytes, memmove (a ++ x ++ b ++ z) i j b.length =
      a ++ x.take m ++ b ++ (junk ++ z) := by
  subst hi hj
  have hread : ((a ++ x ++ b ++ z).drop (a.length + x.length)).take b.length = b := by
    rw [← length_append, append_assoc (a ++ x), drop_left, take_left]
  have hstore := store_append (a := a ++ x.take m) (x := (x.drop m ++ b).take b.length)
    (b := (x.drop m ++ b).drop b.length ++ z) (y := b) (i := a.length + m) (by simp [h]) (by simp)
  refine ⟨(x.drop m ++ b).drop b.length, ?_⟩
  rw [memmove, hread, ← hstore]
  congr 1
  rw [← append_assoc (a ++ x.take m ++ _), append_assoc (a ++ x.take m), take_append_drop,
    append_assoc a (x.take m), ← append_assoc (x.take m), take_append_drop, ← append_assoc a]

/-- Moving the last part forward and cutting the memory narrows a gap. -/
theorem realloc_memmove {m : Nat} (h : m ≤ x.length) :
    ∃ gap : Bytes, gap.length = m ∧
      realloc (memmove (a ++ x ++ b) (a.length + m) (a.length + x.length) b.length)
        (a.length + m + b.length) = a ++ gap ++ b := by
  obtain ⟨junk, hmove⟩ := memmove_forward (a := a) (b := b) (z := []) h rfl rfl
  have hlen : (a ++ x.take m ++ b).length = a.length + m + b.length := by
    simp [h, add_assoc]
  rw [append_nil, append_nil] at hmove
  refine ⟨x.take m, by simp [h], ?_⟩
  rw [hmove, realloc, take_left' hlen, Nat.sub_eq_zero_of_le (by rw [length_append]; omega),
    replicate_zero, append_nil]

end ByteBuffer
