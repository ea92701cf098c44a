import Redis.RadixTree.Entries

/-! Where a walk down the tree stops, and what that says about the key. -/
namespace Redis.RadixTree

open ByteBuffer List

variable {V : Type}
variable {e : Entry V} {w : Walk V} {n : Node V} {v : Option V} {s : Bytes}

section Order

variable {f : Frame V} {stack : List (Frame V)}

theorem Frame.label_eq (hf : f.Ok) :
    ∃ hi : f.index < f.node.labels.length, f.label = f.node.labels[f.index] := by
  have hi : f.index < f.node.labels.length := by
    rw [hf.1.shape.labels_length]
    exact hf.2
  exact ⟨hi, getD_eq_getElem _ _ hi⟩

theorem Frame.label_ne_nil (hf : f.Ok) : f.label ≠ [] := by
  obtain ⟨hi, hlabel⟩ := f.label_eq hf
  rw [hlabel]
  exact hf.1.shape.label_ne_nil (getElem_mem hi)

theorem own_fst (he : e ∈ n.own) : e.1 = [] := by
  rw [Node.own] at he
  split_ifs at he
  · rw [mem_singleton.mp he]
  · cases he

/-- What stands in a frame before an edge is smaller than any key through it. -/
theorem Frame.left_lt (hf : f.Ok) (he : e ∈ f.left) (t : Bytes) : e.1 < f.label ++ t := by
  obtain ⟨hi, hlabel⟩ := f.label_eq hf
  rcases mem_append.mp he with hown | hedge
  · obtain ⟨x, l, hl⟩ := exists_cons_of_ne_nil (f.label_ne_nil hf)
    rw [own_fst hown, hl]
    exact nil_lt_cons _ _
  · obtain ⟨⟨l, c⟩, hmem, hbranch⟩ := mem_flatMap.mp hedge
    obtain ⟨e', _, rfl⟩ := mem_map.mp hbranch
    obtain ⟨i, hlt, hget⟩ := mem_iff_getElem.mp hmem
    rw [length_take] at hlt
    have hl : l = f.node.labels[i] := by
      have := congrArg Prod.fst hget
      simpa [Node.edges] using this.symm
    have hpair := pairwise_iff_getElem.mp hf.1.shape.labels_sorted i f.index (by omega) hi
      (by omega)
    rw [hlabel, addPrefix, hl]
    exact hpair _ _

theorem Frame.lt_right (hf : f.Ok) (he : e ∈ f.right) (t : Bytes) : f.label ++ t < e.1 := by
  obtain ⟨hi, hlabel⟩ := f.label_eq hf
  obtain ⟨⟨l, c⟩, hmem, hbranch⟩ := mem_flatMap.mp he
  obtain ⟨e', _, rfl⟩ := mem_map.mp hbranch
  obtain ⟨i, hlt, hget⟩ := mem_iff_getElem.mp hmem
  rw [length_drop, Node.edges, length_zip] at hlt
  have hj : f.index + 1 + i < f.node.labels.length := by omega
  have hl : l = f.node.labels[f.index + 1 + i] := by
    have := congrArg Prod.fst hget
    simpa [Node.edges] using this.symm
  have hpair := pairwise_iff_getElem.mp hf.1.shape.labels_sorted f.index (f.index + 1 + i)
    hi hj (by omega)
  rw [hlabel, addPrefix, hl]
  exact hpair _ _

theorem before_lt (hstack : ∀ f ∈ stack, f.Ok) (he : e ∈ before stack) (t : Bytes) :
    e.1 < path stack ++ t := by
  induction stack generalizing t with
  | nil => cases he
  | cons f stack ih =>
    obtain ⟨hf, hrest⟩ := forall_mem_cons.mp hstack
    rw [path, append_assoc]
    rcases mem_append.mp he with hbefore | hleft
    · exact ih hrest hbefore _
    · obtain ⟨e', he', rfl⟩ := mem_map.mp hleft
      exact append_left_lt (f.left_lt hf he' t)

theorem lt_after (hstack : ∀ f ∈ stack, f.Ok) (he : e ∈ after stack) (t : Bytes) :
    path stack ++ t < e.1 := by
  induction stack generalizing t with
  | nil => cases he
  | cons f stack ih =>
    obtain ⟨hf, hrest⟩ := forall_mem_cons.mp hstack
    rw [path, append_assoc]
    rcases mem_append.mp he with hright | hafter
    · obtain ⟨e', he', rfl⟩ := mem_map.mp hright
      exact append_left_lt (f.lt_right hf he' t)
    · exact ih hrest hafter _

end Order

section Members

variable {l : Bytes} {c : Node V}
variable {n : Node V} {k : Bytes} {v : Option V}

theorem mem_entries : (k, v) ∈ n.entries ↔ (k = [] ∧ n.iskey = true ∧ v = raxGetData n) ∨
      ∃ l c t, (l, c) ∈ n.edges ∧ (t, v) ∈ c.entries ∧ k = l ++ t := by
  rw [Node.entries_eq, mem_append]
  apply or_congr
  · rw [Node.own]
    split_ifs with hkey <;> simp [hkey]
  · rw [mem_flatMap]
    constructor
    · rintro ⟨⟨l, c⟩, he, hb⟩
      obtain ⟨⟨t, v'⟩, ht, heq⟩ := mem_map.mp hb
      obtain ⟨rfl, rfl⟩ := heq
      exact ⟨l, c, t, he, ht, rfl⟩
    · rintro ⟨l, c, t, he, ht, rfl⟩
      exact ⟨(l, c), he, mem_map.mpr ⟨(t, v), ht, rfl⟩⟩

theorem edges_compr (hc : n.iscompr = true) (he : (l, c) ∈ n.edges) :
    l = n.data := by
  have hl := (of_mem_zip he).1
  rw [Node.labels, if_pos hc] at hl
  exact mem_singleton.mp hl

theorem edges_normal (hc : n.iscompr = false) (he : (l, c) ∈ n.edges) :
    ∃ b ∈ n.data, l = [b] := by
  have hl := (of_mem_zip he).1
  rw [Node.labels, if_neg (by simp [hc])] at hl
  obtain ⟨b, hb, rfl⟩ := mem_map.mp hl
  exact ⟨b, hb, rfl⟩

end Members

/-- The bytes that agree are a common prefix, and the next ones differ. -/
theorem matchLength_spec (d s : Bytes) :
    ∃ u d' s', d = u ++ d' ∧ s = u ++ s' ∧ u.length = matchLength d s ∧
      (∀ c cs, s' = c :: cs → d'[0]? ≠ some c) := by
  induction d generalizing s with
  | nil => exact ⟨[], [], s, rfl, rfl, rfl, by simp⟩
  | cons x d ih =>
    cases s with
    | nil => exact ⟨[], x :: d, [], rfl, rfl, rfl, by simp⟩
    | cons c cs =>
      by_cases hx : x = c
      · obtain ⟨u, d', s', hd, hs, hlen, hdiff⟩ := ih cs
        refine ⟨x :: u, d', s', by rw [hd]; rfl, by rw [hx, hs]; rfl, ?_, hdiff⟩
        rw [matchLength, if_pos hx, length_cons, hlen]
      · refine ⟨[], x :: d, c :: cs, rfl, rfl, by rw [matchLength, if_neg hx]; rfl, ?_⟩
        rintro c' cs' heq
        obtain ⟨rfl, rfl⟩ := cons.inj heq
        simpa using hx

/-- Why a walk stopped: the string is used up, or the next byte is not the one in
the compressed node, or it is on no edge. -/
structure Walk.Stopped (w : Walk V) : Prop where
  normal : w.stop.iscompr = false → w.splitpos = 0
  inside : w.stop.iscompr = true → w.splitpos < w.stop.data.length
  mismatch : ∀ c cs, w.rest = c :: cs →
    if w.stop.iscompr then w.stop.data[w.splitpos]? ≠ some c else c ∉ w.stop.data

/-- The bytes of the string that belong to the node where the walk stopped. -/
def Walk.inner (w : Walk V) : Bytes := w.stop.data.take w.splitpos ++ w.rest

structure Walk.Correct (w : Walk V) (root : Node V) (s : Bytes) : Prop where
  frames : ∀ f ∈ w.stack, f.Ok
  wf : w.stop.Wf
  occupied : w.stack ≠ [] → w.stop.Occupied
  plugged : plug w.stack w.stop = root
  key : path w.stack ++ w.inner = s
  stopped : w.Stopped

theorem frame_ok_cons {h : Node V} {stack : List (Frame V)} {i : Nat} (hwf : h.Wf)
    (hi : i < h.children.length) (hstack : ∀ f ∈ stack, f.Ok) :
    ∀ f ∈ (⟨h, i⟩ : Frame V) :: stack, f.Ok := by
  intro f hf
  rcases mem_cons.mp hf with rfl | hf
  · exact ⟨hwf, hi⟩
  · exact hstack f hf

theorem Node.Shape.compr (h : n.Shape) (hc : n.iscompr = true) :
    2 ≤ n.data.length ∧ n.children.length = 1 := by
  rwa [Node.Shape, if_pos hc] at h

theorem Node.Shape.plain (h : n.Shape) (hc : n.iscompr = false) :
    n.data.length = n.children.length ∧ n.data.Pairwise (· < ·) := by
  rwa [Node.Shape, if_neg (by simp [hc])] at h

theorem Node.Shape.data_nil_iff (h : n.Shape) : n.data = [] ↔ n.children = [] := by
  rw [← length_eq_zero_iff, ← length_eq_zero_iff]
  cases hc : n.iscompr with
  | true =>
    have hlen := h.compr hc
    omega
  | false => rw [(h.plain hc).1]

section Step

variable {fuel : Nat} {h : Node V} {stack : List (Frame V)}

/-- A round at a compressed node. -/
theorem lowWalk_compr (fuel : Nat) (c : UInt8) (cs : Bytes) (stack : List (Frame V)) (hwf : h.Wf)
    (hc : h.iscompr = true) :
    ∃ u d' s', h.data = u ++ d' ∧ c :: cs = u ++ s' ∧
      (∀ b bs, s' = b :: bs → d'[0]? ≠ some b) ∧
      lowWalk (fuel + 1) h (c :: cs) stack =
        if d' = [] then lowWalk fuel (h.children.getD 0 raxNewNode) s' (⟨h, 0⟩ :: stack)
        else ⟨s', h, u.length, stack⟩ := by
  have hshape := hwf.shape.compr hc
  have hdata : h.data ≠ [] := by
    intro hnil
    rw [hnil] at hshape
    simp at hshape
  obtain ⟨u, d', s', hd, hs, hlen, hdiff⟩ := matchLength_spec h.data (c :: cs)
  refine ⟨u, d', s', hd, hs, hdiff, ?_⟩
  have hdrop : (c :: cs).drop u.length = s' := by rw [hs, drop_left]
  have hfull : u.length = h.data.length ↔ d' = [] := by
    rw [hd, length_append, ← length_eq_zero_iff]
    omega
  simp only [lowWalk, hdata, if_false, hc, if_true, ← hlen, hdrop, ne_eq, hfull]
  by_cases hnil : d' = []
  · rw [if_neg (not_not.mpr hnil), if_pos hnil]
  · rw [if_pos hnil, if_neg hnil]

/-- A round at a node with edges of one byte. -/
theorem lowWalk_plain {c : UInt8} {cs : Bytes} (hc : h.iscompr = false) :
    lowWalk (fuel + 1) h (c :: cs) stack =
      if c ∈ h.data then
        lowWalk fuel (h.children.getD (h.data.idxOf c) raxNewNode) cs (⟨h, h.data.idxOf c⟩ :: stack)
      else ⟨c :: cs, h, 0, stack⟩ := by
  simp only [lowWalk, hc, Bool.false_eq_true, if_false]
  by_cases hmem : c ∈ h.data
  · have hidx := idxOf_lt_length_of_mem hmem
    rw [if_pos hmem, if_neg (ne_nil_of_mem hmem), if_neg (by omega)]
  · rw [if_neg hmem, if_pos (idxOf_eq_length_iff.mpr hmem), ite_self]

theorem lowWalk_correct (hwf : h.Wf) (hstack : ∀ f ∈ stack, f.Ok) (hocc : stack ≠ [] → h.Occupied)
    (hfuel : s.length < fuel) :
    (lowWalk fuel h s stack).Correct (plug stack h) (path stack ++ s) := by
  induction fuel generalizing h s stack with
  | zero => omega
  | succ fuel ih =>
    have hdescend : ∀ (i : Nat) (l s' : Bytes), i < h.children.length →
        Frame.label ⟨h, i⟩ = l → s = l ++ s' → s'.length < fuel →
        (lowWalk fuel (h.children.getD i raxNewNode) s' (⟨h, i⟩ :: stack)).Correct (plug stack h)
          (path stack ++ s) := by
      intro i l s' hi hlabel hs hlt
      have hchild := hwf.child (getElem_mem hi)
      rw [← getD_eq_getElem _ raxNewNode hi] at hchild
      have hwalk := ih hchild.1 (frame_ok_cons hwf hi hstack) (fun _ => hchild.2) hlt
      rwa [plug, Frame.link_getD hi, path, hlabel, append_assoc, ← hs] at hwalk
    cases s with
    | nil =>
      refine ⟨hstack, hwf, hocc, rfl, rfl, fun _ => rfl, ?_, fun b bs hrest => by cases hrest⟩
      intro hc
      have hshape := hwf.shape.compr hc
      show 0 < h.data.length
      omega
    | cons c cs =>
      cases hc : h.iscompr with
      | true =>
        have hshape := hwf.shape.compr hc
        obtain ⟨u, d', s', hd, hs, hdiff, hstep⟩ :=
          lowWalk_compr fuel c cs stack hwf hc
        rw [hstep]
        split_ifs with hnil
        · rw [hnil, append_nil] at hd
          have hcount := congrArg length hs
          rw [length_append, ← hd] at hcount
          refine hdescend 0 u s' (by omega) ?_ hs (by omega)
          simp [Frame.label, Node.labels, hc, hd]
        · refine ⟨hstack, hwf, hocc, rfl, ?_, ?_, ?_, ?_⟩
          · rw [Walk.inner, hd, take_left, hs]
          · intro hnot
            exact absurd (hc.symm.trans hnot) (by decide)
          · intro _
            show u.length < h.data.length
            have hpos := length_pos_of_ne_nil hnil
            rw [hd, length_append]
            omega
          · intro b bs hrest
            rw [if_pos hc]
            rw [hd, getElem?_append_right (Nat.le_refl _), Nat.sub_self]
            exact hdiff b bs hrest
      | false =>
        have hshape := hwf.shape.plain hc
        rw [lowWalk_plain hc]
        split_ifs with hmem
        · have hidx := idxOf_lt_length_of_mem hmem
          refine hdescend _ [c] cs (by omega) ?_ rfl (by simpa using hfuel)
          simp [Frame.label, Node.labels, hc, getD_eq_getElem?_getD,
            getElem?_eq_getElem hidx, getElem_idxOf]
        · refine ⟨hstack, hwf, hocc, rfl, rfl, fun _ => rfl, ?_, ?_⟩
          · intro hnot
            exact absurd (hc.symm.trans hnot) (by decide)
          · intro b bs hrest
            obtain ⟨rfl, rfl⟩ := cons.inj hrest
            rwa [if_neg (by simp [hc])]

end Step

theorem raxLowWalk_correct {rax : Rax V} (hwf : rax.head.Wf) (s : Bytes) :
    (raxLowWalk rax s).Correct rax.head s :=
  lowWalk_correct hwf (by simp) (by simp) (Nat.lt_succ_self _)

/-- The string is a key of the tree if the rest of it is one of the subtree. -/
theorem Walk.Correct.mem_iff {root : Node V} (hw : w.Correct root s) :
    (s, v) ∈ root.entries ↔ (w.inner, v) ∈ w.stop.entries := by
  obtain ⟨hframes, _, _, hplugged, hkey, _⟩ := hw
  rw [← hplugged, ← hkey, entries_plug hframes, mem_append, mem_append]
  constructor
  · rintro ((hbefore | hmem) | hafter)
    · exact absurd (before_lt hframes hbefore _) (List.lt_irrefl _)
    · obtain ⟨⟨k, v'⟩, hk, heq⟩ := mem_map.mp hmem
      simp only [addPrefix, Prod.mk.injEq, append_cancel_left_eq] at heq
      obtain ⟨rfl, rfl⟩ := heq
      exact hk
    · exact absurd (lt_after hframes hafter _) (List.lt_irrefl _)
  · intro hmem
    exact .inl (.inr (mem_map.mpr ⟨(w.inner, v), hmem, rfl⟩))

/-- The walk stopped at a node that stands for the whole string. -/
def Walk.Found (w : Walk V) : Prop := w.rest = [] ∧ (w.stop.iscompr = true → w.splitpos = 0)

instance (w : Walk V) : Decidable w.Found := inferInstanceAs (Decidable (_ ∧ _))

theorem Walk.Found.inner_eq (h : w.Found) (hs : w.Stopped) : w.inner = [] := by
  have hpos : w.splitpos = 0 := by
    cases hc : w.stop.iscompr with
    | true => exact h.2 hc
    | false => exact hs.normal hc
  rw [Walk.inner, hpos, h.1]
  rfl

/-- A string that is not found is no key of the subtree where the walk stopped. -/
theorem Walk.not_mem_of_not_found (hs : w.Stopped) (h : ¬ w.Found) (v : Option V) :
    (w.inner, v) ∉ w.stop.entries := by
  intro hmem
  rw [mem_entries] at hmem
  cases hc : w.stop.iscompr with
  | true =>
    have hinside := hs.inside hc
    have hpos : w.inner ≠ [] := by
      intro hnil
      obtain ⟨htake, hrest⟩ := append_eq_nil_iff.mp hnil
      have hzero : w.splitpos = 0 := by
        have hlen := congrArg length htake
        rw [length_take, length_nil] at hlen
        omega
      exact h ⟨hrest, fun _ => hzero⟩
    rcases hmem with ⟨hnil, _⟩ | ⟨l, c, t, he, _, heq⟩
    · exact hpos hnil
    · rw [edges_compr hc he] at heq
      -- the bytes of the node go on where the walk stopped
      have hget := congrArg (fun k : Bytes => k[w.splitpos]?) heq
      simp only [Walk.inner] at hget
      have hlen : (w.stop.data.take w.splitpos).length = w.splitpos := by
        rw [length_take]
        omega
      rw [getElem?_append_right (by omega), hlen, Nat.sub_self,
        getElem?_append_left hinside] at hget
      cases hrest : w.rest with
      | nil =>
        rw [hrest, getElem?_eq_getElem hinside] at hget
        simp at hget
      | cons c' cs' =>
        have hne := hs.mismatch c' cs' hrest
        rw [if_pos hc] at hne
        rw [hrest] at hget
        exact hne hget.symm
  | false =>
    have hinner : w.inner = w.rest := by
      rw [Walk.inner, hs.normal hc]
      rfl
    rw [hinner] at hmem
    rcases hmem with ⟨hnil, _⟩ | ⟨l, c, t, he, _, heq⟩
    · exact h ⟨hnil, fun htrue => by rw [hc] at htrue; cases htrue⟩
    · obtain ⟨b, hb, rfl⟩ := edges_normal hc he
      have hne := hs.mismatch b t heq
      rw [if_neg (by simp [hc])] at hne
      exact hne hb

/-- The node that stands for the string has its value, if it is a key. -/
theorem Walk.mem_of_found (hwf : w.stop.Wf) (hs : w.Stopped) (h : w.Found) :
    (w.inner, v) ∈ w.stop.entries ↔ w.stop.iskey = true ∧ v = raxGetData w.stop := by
  rw [h.inner_eq hs, mem_entries]
  constructor
  · rintro (⟨_, hkey⟩ | ⟨l, c, t, he, _, heq⟩)
    · exact hkey
    · have hl := hwf.shape.label_ne_nil (of_mem_zip he).1
      exact absurd (append_eq_nil_iff.mp heq.symm).1 hl
  · rintro ⟨hkey, hv⟩
    exact .inl ⟨rfl, hkey, hv⟩

/-- The test of `raxFind` and `raxRemove`. -/
theorem not_found_iff (w : Walk V) :
    (w.rest ≠ [] ∨ (w.stop.iscompr = true ∧ w.splitpos ≠ 0) ∨ (!w.stop.iskey) = true) ↔
      ¬ (w.Found ∧ w.stop.iskey = true) := by
  rw [Walk.Found]
  cases w.stop.iscompr <;> cases w.stop.iskey <;> simp
  tauto

/-- `raxFind` finds what is in the tree. -/
theorem raxFind_eq_some {rax : Rax V} (hwf : rax.head.Wf) :
    raxFind rax s = some v ↔ (s, v) ∈ rax.head.entries := by
  have hw := raxLowWalk_correct hwf s
  rw [hw.mem_iff, raxFind]
  simp only [not_found_iff]
  by_cases hfound : (raxLowWalk rax s).Found
  · rw [Walk.mem_of_found hw.wf hw.stopped hfound]
    by_cases hkey : (raxLowWalk rax s).stop.iskey = true
    · rw [if_neg (by simp [hfound, hkey])]
      simp [hkey, eq_comm]
    · simp [hkey]
  · rw [if_pos (by simp [hfound])]
    simp [Walk.not_mem_of_not_found hw.stopped hfound v]

end Redis.RadixTree
