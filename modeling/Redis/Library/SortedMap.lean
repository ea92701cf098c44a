import Mathlib

/-! Finite maps as lists in increasing order of their keys: what an ordered tree holds. -/

structure SortedMap (K V : Type*) [LT K] where
  entries : List (K × V)
  sorted : entries.Pairwise fun a b => a.1 < b.1

namespace SortedMap

open List

variable {K V : Type*} [LT K]

def empty : SortedMap K V := ⟨[], List.Pairwise.nil⟩

/-- Change every value. -/
def mapValues (m : SortedMap K V) (f : K → V → V) : SortedMap K V :=
  ⟨m.entries.map fun e => (e.1, f e.1 e.2), pairwise_map.mpr m.sorted⟩

/-- What stands in front of an entry is smaller, what stands behind it larger. -/
theorem split_lt {m : SortedMap K V} {A B : List (K × V)} {k : K} {v : V}
    (h : m.entries = A ++ (k, v) :: B) :
    (∀ a ∈ A, a.1 < k) ∧ ∀ b ∈ B, k < b.1 := by
  have hsorted := m.sorted
  rw [h, pairwise_append, pairwise_cons] at hsorted
  exact ⟨fun a ha => hsorted.2.2 a ha _ (mem_cons_self ..), hsorted.2.1.1⟩

/-- Where no later element passes a test that an earlier one fails. -/
theorem takeWhile_eq_filter {α : Type*} {R : α → α → Prop} {p : α → Bool} {l : List α}
    (hl : l.Pairwise R) (hp : ∀ a b, R a b → p b = true → p a = true) :
    l.takeWhile p = l.filter p := by
  induction l with
  | nil => rfl
  | cons a l ih =>
    obtain ⟨ha, hl⟩ := pairwise_cons.mp hl
    cases hpa : p a with
    | true => rw [takeWhile_cons_of_pos hpa, filter_cons_of_pos hpa, ih hl]
    | false =>
      have hnone : ∀ b ∈ a :: l, ¬p b = true := by
        intro b hb hpb
        rcases mem_cons.mp hb with rfl | hb
        · exact Bool.false_ne_true (hpa.symm.trans hpb)
        · exact Bool.false_ne_true (hpa.symm.trans (hp a b (ha b hb) hpb))
      rw [takeWhile_cons_of_neg (by simp [hpa]), filter_eq_nil_iff.mpr hnone]

section Find

variable [DecidableEq K]

def find (m : SortedMap K V) (k : K) : Option V := (m.entries.find? (·.1 = k)).map Prod.snd

@[simp] theorem find_empty (k : K) : (empty : SortedMap K V).find k = none := rfl

theorem find_mapValues (m : SortedMap K V) (f : K → V → V) (k : K) :
    (m.mapValues f).find k = (m.find k).map (f k) := by
  rw [find, find, mapValues, find?_map]
  cases h : m.entries.find? ((fun e => decide (e.1 = k)) ∘ fun e => (e.1, f e.1 e.2)) with
  | none =>
    have hfind : m.entries.find? (fun e => decide (e.1 = k)) = none := h
    rw [hfind]
    rfl
  | some e =>
    have hfind : m.entries.find? (fun e => decide (e.1 = k)) = some e := h
    have hkey : e.1 = k := by simpa using find?_some hfind
    rw [hfind, ← hkey]
    rfl

end Find

section Order

variable [IsStrictTotalOrder K (· < ·)]

/-- Two entries with the same key are the same entry. -/
theorem entry_unique (m : SortedMap K V) {k : K} {v v' : V} (h : (k, v) ∈ m.entries) (h' : (k, v') ∈ m.entries) : v = v' := by
  obtain ⟨A, B, hsplit⟩ := append_of_mem h
  obtain ⟨hA, hB⟩ := split_lt hsplit
  rw [hsplit, mem_append, mem_cons] at h'
  rcases h' with hmem | heq | hmem
  · exact absurd (hA _ hmem) (irrefl_of (· < ·) k)
  · exact (Prod.mk.inj heq).2.symm
  · exact absurd (hB _ hmem) (irrefl_of (· < ·) k)

variable [DecidableEq K]

theorem find_eq_some (m : SortedMap K V) {k : K} {v : V} :
    m.find k = some v ↔ (k, v) ∈ m.entries := by
  rw [find, Option.map_eq_some_iff]
  constructor
  · rintro ⟨e, he, rfl⟩
    have hkey : e.1 = k := by simpa using find?_some he
    exact hkey ▸ mem_of_find?_eq_some he
  · intro h
    obtain ⟨e, he⟩ := Option.isSome_iff_exists.mp
      (find?_isSome.mpr ⟨(k, v), h, by simp⟩ : (m.entries.find? (·.1 = k)).isSome)
    have hkey : e.1 = k := by simpa using find?_some he
    have hmem : (k, e.2) ∈ m.entries := hkey ▸ mem_of_find?_eq_some he
    exact ⟨e, he, m.entry_unique hmem h⟩

end Order

section Insert

variable [DecidableEq K] [DecidableLT K]

/-- One pass over the list; an entry with the same key is replaced. -/
def insertEntry (k : K) (v : V) : List (K × V) → List (K × V)
  | [] => [(k, v)]
  | e :: rest =>
    if k < e.1 then (k, v) :: e :: rest
    else if k = e.1 then (k, v) :: rest
    else e :: insertEntry k v rest

theorem mem_insertEntry {k : K} {v : V} {l : List (K × V)} {e : K × V}
    (h : e ∈ insertEntry k v l) : e = (k, v) ∨ e ∈ l := by
  induction l with
  | nil => exact .inl (mem_singleton.mp h)
  | cons d rest ih =>
    rw [insertEntry] at h
    split_ifs at h with hlt heq
    · exact mem_cons.mp h
    · exact (mem_cons.mp h).imp_right (mem_cons_of_mem _)
    · rcases mem_cons.mp h with rfl | hrest
      · exact .inr (mem_cons_self ..)
      · exact (ih hrest).imp_right (mem_cons_of_mem _)

variable [IsStrictTotalOrder K (· < ·)]

theorem insertEntry_sorted (k : K) (v : V) {l : List (K × V)}
    (h : l.Pairwise fun a b => a.1 < b.1) : (insertEntry k v l).Pairwise fun a b => a.1 < b.1 := by
  induction l with
  | nil => exact pairwise_singleton _ _
  | cons d rest ih =>
    obtain ⟨hd, hrest⟩ := pairwise_cons.mp h
    rw [insertEntry]
    split_ifs with hlt heq
    · refine pairwise_cons.mpr ⟨fun e he => ?_, h⟩
      rcases mem_cons.mp he with rfl | he
      · exact hlt
      · exact trans_of (· < ·) hlt (hd e he)
    · exact pairwise_cons.mpr ⟨fun e he => heq ▸ hd e he, hrest⟩
    · refine pairwise_cons.mpr ⟨fun e he => ?_, ih hrest⟩
      rcases mem_insertEntry he with rfl | he
      · exact ((trichotomous_of (· < ·) k d.1).resolve_left hlt).resolve_left heq
      · exact hd e he

def insert (m : SortedMap K V) (k : K) (v : V) : SortedMap K V :=
  ⟨insertEntry k v m.entries, insertEntry_sorted k v m.sorted⟩

theorem find_insertEntry (k k' : K) (v : V) (l : List (K × V)) :
    ((insertEntry k v l).find? (·.1 = k')).map Prod.snd =
      if k' = k then some v else (l.find? (·.1 = k')).map Prod.snd := by
  induction l with
  | nil =>
    by_cases h : k' = k
    · simp [insertEntry, h]
    · simp [insertEntry, h, Ne.symm h]
  | cons e rest ih =>
    rw [insertEntry]
    by_cases h : k' = k
    · subst h
      simp only [if_true] at ih ⊢
      by_cases hlt : k' < e.1
      · simp [hlt]
      · by_cases heq : k' = e.1
        · simp [← heq, irrefl_of (· < ·) k']
        · rw [if_neg hlt, if_neg heq, find?_cons_of_neg (by simpa using Ne.symm heq), ih]
    · rw [if_neg h] at ih ⊢
      split_ifs with hlt heq
      · rw [find?_cons_of_neg (by simpa using Ne.symm h)]
      · rw [find?_cons_of_neg (by simpa using Ne.symm h),
          find?_cons_of_neg (by simpa [← heq] using Ne.symm h)]
      · simp only [find?_cons]
        split
        · rfl
        · exact ih

theorem find_insert (m : SortedMap K V) {k k' : K} {v : V} :
    (m.insert k v).find k' = if k' = k then some v else m.find k' :=
  find_insertEntry k k' v m.entries

end Insert

end SortedMap
