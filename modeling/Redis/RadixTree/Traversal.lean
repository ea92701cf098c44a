import Redis.RadixTree.Iterator

/-! What a step of the iterator does. A cursor divides the entries of the tree in those in
front of an edge and those from the edge on; a step forward finds the first of the latter, a
step back the last of the former. -/
namespace Redis.RadixTree

open ByteBuffer List

variable {V : Type} {root : Node V}
variable {i fuel : Nat} {bytes key : Bytes} {n : Node V} {stack : List (Frame V)} {f : Frame V}
  {b : UInt8} {noup : Bool} {c : Cursor V}

/-- The frames lead from the top of the tree down to the node. -/
inductive Linked (root : Node V) : Node V → List (Frame V) → Prop
  | top : Linked root root []
  | child {f : Frame V} {stack : List (Frame V)} {n : Node V} (up : Linked root f.node stack)
      (here : f.node.children[f.index]? = some n) : Linked root n (f :: stack)

structure Cursor.On (c : Cursor V) (root : Node V) : Prop where
  linked : Linked root c.node c.stack
  key : c.key = path c.stack

section Linked

variable (h : Linked root n stack)
include h

theorem Linked.wf (hroot : root.Wf) : n.Wf := by
  induction h with
  | top => exact hroot
  | child up here ih => exact (ih.child (mem_of_getElem? here)).1

theorem Linked.occupied (hroot : root.Wf) (hne : stack ≠ []) : n.Occupied := by
  cases h with
  | top => exact absurd rfl hne
  | child up here => exact ((up.wf hroot).child (mem_of_getElem? here)).2

theorem Linked.frames (hroot : root.Wf) : ∀ f ∈ stack, f.Ok := by
  induction h with
  | top => simp
  | child up here ih =>
    exact frame_ok_cons (up.wf hroot) (List.getElem?_eq_some_iff.mp here).1 ih

theorem Linked.plugged : plug stack n = root := by
  induction h with
  | top => rfl
  | @child f stack n up here ih =>
    obtain ⟨hi, hn⟩ := List.getElem?_eq_some_iff.mp here
    have hlink := Frame.link_getD hi n
    rw [getD_eq_getElem _ _ hi, hn] at hlink
    rw [plug, hlink, ih]

omit h in
theorem length_le_outside (stack : List (Frame V)) : stack.length ≤ outside stack := by
  induction stack with
  | nil => exact le_refl _
  | cons f stack ih =>
    rw [length_cons, outside, Frame.others]
    omega

theorem Linked.nodes_le (hroot : root.Wf) : stack.length + n.nodes ≤ root.nodes := by
  have hnodes := nodes_plug (h := n) (h.frames hroot)
  rw [h.plugged] at hnodes
  have hlen := length_le_outside stack
  omega

end Linked

section Cuts

variable (c)

/-- The key at the node itself, if it is one. -/
def Cursor.self : List (Entry V) := c.node.own.map (addPrefix c.key)

/-- The entries of the tree in front of an edge. -/
def Cursor.upTo (i : Nat) : List (Entry V) :=
  before c.stack ++ c.self ++ ((c.node.edges.take i).flatMap branch).map (addPrefix c.key)

/-- The entries of the tree from an edge on. -/
def Cursor.onward (i : Nat) : List (Entry V) :=
  ((c.node.edges.drop i).flatMap branch).map (addPrefix c.key) ++ after c.stack

def Cursor.entry : Entry V := (c.key, raxGetData c.node)

variable {c}

theorem Cursor.On.cut (h : c.On root) (hroot : root.Wf) (i : Nat) :
    root.entries = c.upTo i ++ c.onward i := by
  have hplug := entries_plug (h := c.node) (h.linked.frames hroot)
  have hedges : c.node.edges.flatMap branch =
      (c.node.edges.take i).flatMap branch ++ (c.node.edges.drop i).flatMap branch := by
    rw [← flatMap_append, take_append_drop]
  rw [h.linked.plugged, ← h.key, c.node.entries_eq, hedges] at hplug
  rw [hplug, Cursor.upTo, Cursor.onward, Cursor.self]
  simp only [map_append, append_assoc]

theorem Cursor.self_of_key (hkey : c.node.iskey = true) : c.self = [c.entry] := by
  simp [Cursor.self, Node.own, hkey, addPrefix, Cursor.entry]

theorem Cursor.self_of_not_key (hkey : c.node.iskey = false) : c.self = [] := by
  simp [Cursor.self, Node.own, hkey]

theorem Cursor.upTo_zero : c.upTo 0 = before c.stack ++ c.self := by simp [Cursor.upTo]

/-- Behind the last edge there is nothing of the node. -/
theorem Cursor.onward_of_le (i : Nat) (hi : c.node.children.length ≤ i) :
    c.onward i = after c.stack := by
  have hlen : c.node.edges.length ≤ i := by
    rw [Node.edges, length_zip]
    omega
  rw [Cursor.onward, drop_eq_nil_of_le hlen]
  rfl

end Cuts

section Enter

/-- The bytes on an edge, as the iterator reads them. -/
theorem label_compr (hc : n.iscompr = true) (hshape : n.Shape) (hi : i < n.children.length) :
    Frame.label ⟨n, i⟩ = n.data ∧ i = 0 := by
  have hone := (hshape.compr hc).2
  have hzero : i = 0 := by omega
  subst hzero
  exact ⟨by simp [Frame.label, Node.labels, hc], rfl⟩

theorem label_plain (hc : n.iscompr = false) (hshape : n.Shape) (hi : i < n.children.length) :
    Frame.label ⟨n, i⟩ = (n.data.drop i).take 1 := by
  have hdata : i < n.data.length := by
    rw [(hshape.plain hc).1]
    exact hi
  have hbyte : (n.data.drop i).take 1 = [n.data[i]] := by
    rw [drop_eq_getElem_cons hdata]
    rfl
  simp [hbyte, Frame.label, Node.labels, hc, getElem?_eq_getElem hdata]

theorem Cursor.On.enter (h : c.On root) (hi : i < c.node.children.length)
    (hbytes : Frame.label ⟨c.node, i⟩ = bytes) : (c.enter bytes i).On root := by
  have hhere : c.node.children[i]? = some (c.node.children.getD i raxNewNode) := by
    rw [getD_eq_getElem _ _ hi, getElem?_eq_getElem hi]
  refine ⟨.child h.linked hhere, ?_⟩
  rw [Cursor.enter, path, h.key, ← hbytes]

/-- What is in front of an edge is in front of the node that it leads to. -/
theorem Cursor.On.before_enter (h : c.On root) (i : Nat) (bytes : Bytes) :
    before (c.enter bytes i).stack = c.upTo i := by
  rw [Cursor.enter, before, Frame.left, ← h.key, Cursor.upTo, Cursor.self]
  simp only [map_append, append_assoc]

theorem Cursor.On.onward_enter (h : c.On root) (hroot : root.Wf) (hi : i < c.node.children.length)
    (hbytes : Frame.label ⟨c.node, i⟩ = bytes) :
    c.onward i = (c.enter bytes i).self ++ (c.enter bytes i).onward 0 := by
  -- both are what is left of the tree behind the same entries
  have hc := h.cut hroot i
  have hd := (h.enter hi hbytes).cut hroot 0
  rw [hc, Cursor.upTo_zero, h.before_enter, append_assoc] at hd
  exact append_cancel_left hd

/-- What is behind a node is from the next edge of its parent on. -/
theorem after_eq_onward (hkey : key = path stack) :
    after (f :: stack) = Cursor.onward ⟨key, f.node, stack⟩ (f.index + 1) := by
  rw [after, Cursor.onward, Frame.right, hkey]

theorem before_eq_upTo (hkey : key = path stack) :
    before (f :: stack) = Cursor.upTo ⟨key, f.node, stack⟩ f.index := by
  rw [before, Frame.left, Cursor.upTo, Cursor.self, hkey]
  simp only [map_append, append_assoc]

/-- Going up takes off what the edge has put on. -/
theorem backAt_append (hlen : bytes.length = if n.iscompr then n.data.length else 1) :
    backAt (key ++ bytes) n stack = ⟨key, n, stack⟩ := by
  rw [backAt]
  simp only [← hlen, length_append, Nat.add_sub_cancel, take_left]

theorem Frame.label_length (hf : f.Ok) :
    f.label.length = if f.node.iscompr then f.node.data.length else 1 := by
  obtain ⟨n, i⟩ := f
  have hshape := hf.1.shape
  cases hc : n.iscompr with
  | true => rw [(label_compr hc hshape hf.2).1, if_pos rfl]
  | false =>
    have hdata : i < n.data.length := by
      rw [(hshape.plain hc).1]
      exact hf.2
    rw [label_plain hc hshape hf.2, length_take, length_drop]
    simp
    omega

theorem backAt_path (hf : f.Ok) :
    backAt (path (f :: stack)) f.node stack = ⟨path stack, f.node, stack⟩ :=
  backAt_append (Frame.label_length hf)

end Enter

/-- The outcome of a step forward when a list of entries is still to come. -/
def Reaches (root : Node V) (l : List (Entry V)) : Option (Cursor V) → Prop
  | none => l = []
  | some d => d.On root ∧ d.node.iskey = true ∧ l = d.entry :: d.onward 0

/-- The outcome of a step back from behind a list of entries. -/
def ReachesBack (root : Node V) (l : List (Entry V)) : Option (Cursor V) → Prop
  | none => l = []
  | some d => d.On root ∧ d.node.iskey = true ∧ l = before d.stack ++ [d.entry]

/-- A node is entered, or there are no entries left. -/
def Enters (root : Node V) (l : List (Entry V)) : Option (Cursor V) → Prop
  | none => l = []
  | some d => d.On root ∧ d.stack ≠ [] ∧ l = d.self ++ d.onward 0

section Scan

/-- A scan stops where the test first succeeds. -/
theorem findIdx_append_of_cut {A B : Bytes} {p : UInt8 → Bool} (hA : ∀ a ∈ A, p a = false)
    (hB : ∀ b ∈ B, p b = true) : (A ++ B).findIdx p = A.length := by
  rw [findIdx_append, findIdx_eq_length_of_false hA, if_neg (lt_irrefl _)]
  cases B with
  | nil => simp
  | cons b B => simp [findIdx_cons, hB b (mem_cons_self ..)]

variable {data : Bytes}

theorem findIdx_gt (hle : i ≤ data.length) (hfront : ∀ x ∈ data.take i, ¬ x > b)
    (hback : ∀ x ∈ data.drop i, x > b) : data.findIdx (fun x => x > b) = i := by
  have hcut := findIdx_append_of_cut (p := fun x => x > b)
    (fun x hx => decide_eq_false (hfront x hx)) (fun x hx => decide_eq_true (hback x hx))
  rwa [take_append_drop, length_take_of_le hle] at hcut

theorem reverse_findIdx_lt (hfront : ∀ x ∈ data.take i, x < b)
    (hback : ∀ x ∈ data.drop i, ¬ x < b) :
    data.reverse.findIdx (fun x => x < b) = data.length - i := by
  have hcut := findIdx_append_of_cut (p := fun x => x < b) (A := (data.drop i).reverse)
    (B := (data.take i).reverse)
    (fun x hx => decide_eq_false (hback x (mem_reverse.mp hx)))
    (fun x hx => decide_eq_true (hfront x (mem_reverse.mp hx)))
  rwa [← reverse_append, take_append_drop, length_reverse, length_drop] at hcut

variable (hsorted : data.Pairwise (· < ·)) (hi : i < data.length)
include hsorted hi

theorem lt_of_mem_take_getElem : ∀ x ∈ data.take i, x < data[i] := by
  intro x hx
  obtain ⟨j, hj, rfl⟩ := mem_take_iff_getElem.mp hx
  exact pairwise_iff_getElem.mp hsorted j i (by omega) hi (by omega)

theorem lt_of_mem_drop_getElem : ∀ x ∈ data.drop (i + 1), data[i] < x := by
  intro x hx
  obtain ⟨j, hj, rfl⟩ := mem_drop_iff_getElem.mp hx
  exact pairwise_iff_getElem.mp hsorted i (i + 1 + j) hi (by omega) (by omega)

/-- The scan forward stops behind the edge that the iterator came from. -/
theorem findIdx_gt_getElem : data.findIdx (fun b => b > data[i]) = i + 1 := by
  apply findIdx_gt hi
  · intro x hx
    rw [take_add_one, getElem?_eq_getElem hi, mem_append] at hx
    rcases hx with hx | hx
    · exact UInt8.lt_asymm (lt_of_mem_take_getElem hsorted hi x hx)
    · rw [mem_singleton.mp hx]
      exact UInt8.lt_irrefl _
  · exact lt_of_mem_drop_getElem hsorted hi

/-- The scan back stops in front of it. -/
theorem reverse_findIdx_lt_getElem :
    data.reverse.findIdx (fun b => b < data[i]) = data.length - i := by
  apply reverse_findIdx_lt (lt_of_mem_take_getElem hsorted hi)
  intro x hx
  rw [drop_eq_getElem_cons hi, mem_cons] at hx
  rcases hx with rfl | hx
  · exact UInt8.lt_irrefl _
  · exact UInt8.lt_asymm (lt_of_mem_drop_getElem hsorted hi x hx)

end Scan

section Forward

/-- The last byte of the key at a child of a node with edges of one byte. -/
theorem path_getLastD (stack : List (Frame V)) (hf : f.Ok) (hc : f.node.iscompr = false) :
    ∃ hi : f.index < f.node.data.length,
      (path (f :: stack)).getLastD 0 = f.node.data[f.index] := by
  have hshape := hf.1.shape
  have hi : f.index < f.node.data.length := by
    rw [(hshape.plain hc).1]
    exact hf.2
  have hlabel : f.label = [f.node.data[f.index]] := by
    rw [label_plain hc hshape hf.2, drop_eq_getElem_cons hi]
    rfl
  exact ⟨hi, by rw [path, hlabel, getLastD_concat]⟩

theorem numChildren_eq (n : Node V) (hshape : n.Shape) : numChildren n = n.children.length := by
  rw [numChildren]
  cases hc : n.iscompr with
  | true => rw [(hshape.compr hc).2, if_pos rfl]
  | false => rw [(hshape.plain hc).1, if_neg (by simp)]

theorem first_label (hshape : n.Shape) (hne : 0 < n.children.length) :
    Frame.label ⟨n, 0⟩ = n.data.take (if n.iscompr then n.data.length else 1) := by
  cases hc : n.iscompr with
  | true => rw [(label_compr hc hshape hne).1, if_pos rfl, take_length]
  | false => rw [label_plain hc hshape hne, drop_zero, if_neg (by simp)]

theorem nodes_lt_of_mem {n d : Node V} (h : d ∈ n.children) : d.nodes < n.nodes := by
  have hle : d.nodes ≤ (n.children.map Node.nodes).sum :=
    single_le_sum (fun _ _ => Nat.zero_le _) _ (mem_map_of_mem h)
  rw [n.nodes_eq]
  omega

variable (h : c.On root) (hroot : root.Wf)
include h hroot

theorem Cursor.On.nextChild (noup : Bool)
    (hplain : c.node.iscompr = false → c.node.data.findIdx (fun x => x > b) = i)
    (hcompr : c.node.iscompr = true → i = 1) (hup : noup = false → 1 ≤ i) :
    (c.nextChild noup b = none ∧ c.onward i = after c.stack) ∨
      ∃ d, c.nextChild noup b = some d ∧ d.On root ∧ d.stack ≠ [] ∧
        c.onward i = d.self ++ d.onward 0 := by
  have hshape := (h.linked.wf hroot).shape
  unfold Cursor.nextChild
  cases hc : c.node.iscompr with
  | true =>
    left
    refine ⟨by simp, c.onward_of_le i ?_⟩
    rw [(hshape.compr hc).2, hcompr hc]
  | false =>
    have hlen := (hshape.plain hc).1
    have hle : i ≤ c.node.data.length := hplain hc ▸ findIdx_le_length
    simp only [hplain hc, true_and]
    by_cases hi : i < c.node.children.length
    · right
      have hsize : c.node.data.length > (if noup then 0 else 1) := by
        split_ifs with hnoup
        · omega
        · have hpos := hup (Bool.eq_false_of_not_eq_true hnoup)
          omega
      have hlabel := label_plain hc hshape hi
      rw [if_pos hsize, if_pos (by omega)]
      exact ⟨_, rfl, h.enter hi hlabel, cons_ne_nil _ _, h.onward_enter hroot hi hlabel⟩
    · left
      refine ⟨?_, c.onward_of_le i (Nat.le_of_not_lt hi)⟩
      rw [if_neg (show ¬ i ≠ c.node.data.length by omega), ite_self]

omit h in
/-- The inner loop enters the node that comes next, if there is one. -/
theorem nextUp_enters (hlinked : Linked root n stack) :
    Enters root (after stack) (nextUp (path stack) stack) := by
  induction stack generalizing n with
  | nil => exact rfl
  | cons f stack ih =>
    cases hlinked with
    | child up here =>
      have hok : f.Ok := ⟨up.wf hroot, (List.getElem?_eq_some_iff.mp here).1⟩
      have hon : Cursor.On ⟨path stack, f.node, stack⟩ root := ⟨up, rfl⟩
      have hplain : f.node.iscompr = false →
          f.node.data.findIdx (fun x => x > (path (f :: stack)).getLastD 0) = f.index + 1 := by
        intro hc
        obtain ⟨hi, hlast⟩ := path_getLastD stack hok hc
        rw [hlast]
        exact findIdx_gt_getElem (hok.1.shape.plain hc).2 hi
      have hcompr : f.node.iscompr = true → f.index + 1 = 1 := by
        intro hc
        rw [(label_compr hc hok.1.shape hok.2).2]
      have hstep := hon.nextChild hroot false hplain hcompr (fun _ => by omega)
      rw [after_eq_onward (f := f) rfl, nextUp]
      simp only [backAt_path hok]
      rcases hstep with ⟨hnone, hafter⟩ | ⟨d, hsome, hd⟩
      · rw [hnone, hafter]
        exact ih up
      · rw [hsome]
        exact hd

/-- The first round at the node where a seek stopped, with the bytes of the sought key or of
the node behind its key. -/
theorem Cursor.On.nextBranch
    (hlen : bytes.length = if c.node.iscompr then c.node.data.length else 1)
    (hplain : c.node.iscompr = false →
      c.node.data.findIdx (fun x => x > (c.key ++ bytes).getLastD 0) = i)
    (hcompr : c.node.iscompr = true → i = 1) :
    Enters root (c.onward i) (nextBranch true ⟨c.key ++ bytes, c.node, c.stack⟩) := by
  have hstep := h.nextChild hroot true hplain hcompr (fun hfalse => by cases hfalse)
  unfold RadixTree.nextBranch
  simp only [if_true, backAt_append hlen]
  rcases hstep with ⟨hnone, hafter⟩ | ⟨d, hsome, hd⟩
  · rw [hnone, hafter, h.key]
    exact nextUp_enters hroot h.linked
  · rw [hsome]
    exact hd

/-- A node with children is followed by its first child. -/
theorem Cursor.On.nextNode_inner (hne : 0 < c.node.children.length) :
    ∃ d, nextNode false c = some d ∧ d.On root ∧ d.stack ≠ [] ∧ d.node.nodes < c.node.nodes ∧
      c.onward 0 = d.self ++ d.onward 0 := by
  have hshape := (h.linked.wf hroot).shape
  have hlabel := first_label hshape hne
  rw [nextNode, if_pos ⟨rfl, by rw [numChildren_eq _ hshape]; omega⟩]
  refine ⟨_, rfl, h.enter hne hlabel, cons_ne_nil _ _, ?_, h.onward_enter hroot hne hlabel⟩
  apply nodes_lt_of_mem
  rw [Cursor.enter, getD_eq_getElem _ _ hne]
  exact getElem_mem hne

theorem Cursor.On.nextNode : Enters root (c.onward 0) (nextNode false c) := by
  by_cases hne : 0 < c.node.children.length
  · obtain ⟨d, hsome, hon, hstack, _, honward⟩ := h.nextNode_inner hroot hne
    rw [hsome]
    exact ⟨hon, hstack, honward⟩
  · have hzero : c.node.children.length = 0 := by omega
    rw [RadixTree.nextNode, numChildren_eq _ (h.linked.wf hroot).shape, hzero,
      if_neg (fun hand => hand.2 rfl), c.onward_of_le 0 (by omega), RadixTree.nextBranch,
      if_neg (by decide), h.key]
    exact nextUp_enters hroot h.linked

/-- A node that was entered leads to a key, its own or the first one below it. -/
theorem Cursor.On.nextLoop_below (hstack : c.stack ≠ []) (hkey : c.node.iskey = false) (hfuel : c.node.nodes ≤ fuel) :
    Reaches root (c.onward 0) (nextLoop fuel false c) := by
  induction fuel generalizing c with
  | zero =>
    rw [c.node.nodes_eq] at hfuel
    omega
  | succ fuel ih =>
    have hocc := h.linked.occupied hroot hstack
    have hne : 0 < c.node.children.length := by
      rcases hocc with htrue | hne
      · rw [hkey] at htrue
        cases htrue
      · exact length_pos_of_ne_nil hne
    obtain ⟨d, hsome, hon, hd, hnodes, honward⟩ := h.nextNode_inner hroot hne
    simp only [nextLoop, hsome, honward]
    cases hdkey : d.node.iskey with
    | true => exact ⟨hon, hdkey, by rw [d.self_of_key hdkey]; rfl⟩
    | false =>
      rw [d.self_of_not_key hdkey]
      exact ih hon hd hdkey (by omega)

omit h in
/-- The outer loop ends at the first key of what is entered. -/
theorem nextLoop_reaches {l : List (Entry V)}
    (henters : Enters root l (nextNode noup c)) (hfuel : root.nodes ≤ fuel) :
    Reaches root l (nextLoop (fuel + 1) noup c) := by
  rw [nextLoop]
  cases hnext : nextNode noup c with
  | none =>
    rw [hnext] at henters
    exact henters
  | some d =>
    rw [hnext] at henters
    obtain ⟨hon, hstack, hl⟩ := henters
    rw [hl]
    dsimp only
    cases hdkey : d.node.iskey with
    | true => exact ⟨hon, hdkey, by rw [d.self_of_key hdkey]; rfl⟩
    | false =>
      have hnodes := hon.linked.nodes_le hroot
      rw [d.self_of_not_key hdkey]
      exact hon.nextLoop_below hroot hstack hdkey (show d.node.nodes ≤ fuel by omega)

end Forward

section Backward

theorem last_label (hshape : n.Shape) (hc : n.iscompr = false) (hne : n.data.length ≠ 0) :
    n.data.length - 1 < n.children.length ∧
      Frame.label ⟨n, n.data.length - 1⟩ = (n.data.drop (n.data.length - 1)).take 1 := by
  have hi : n.data.length - 1 < n.children.length := by
    rw [← (hshape.plain hc).1]
    omega
  exact ⟨hi, label_plain hc hshape hi⟩

variable (h : c.On root) (hroot : root.Wf)
include h hroot

/-- What a node has in all is what its last child has in all. -/
theorem Cursor.On.upTo_enter_last
    (hi : i < c.node.children.length) (hbytes : Frame.label ⟨c.node, i⟩ = bytes) :
    c.upTo (i + 1) = (c.enter bytes i).upTo (c.enter bytes i).node.children.length := by
  have hc := h.cut hroot (i + 1)
  have hd := (h.enter hi hbytes).cut hroot (c.enter bytes i).node.children.length
  have hafter : after (c.enter bytes i).stack = c.onward (i + 1) := after_eq_onward h.key
  rw [Cursor.onward_of_le _ (le_refl _), hafter, hc] at hd
  exact append_cancel_right hd

/-- `raxSeekGreatest` ends at the last key of the subtree. -/
theorem Cursor.On.raxSeekGreatest (hocc : c.node.Occupied) (hfuel : c.node.nodes ≤ fuel) :
    ReachesBack root (c.upTo c.node.children.length) (some (raxSeekGreatest fuel c)) := by
  induction fuel generalizing c with
  | zero =>
    rw [c.node.nodes_eq] at hfuel
    omega
  | succ fuel ih =>
    have hwf := h.linked.wf hroot
    have hdescend : ∀ i bytes, i + 1 = c.node.children.length →
        Frame.label ⟨c.node, i⟩ = bytes →
        ReachesBack root (c.upTo c.node.children.length)
          (some (RadixTree.raxSeekGreatest fuel (c.enter bytes i))) := by
      intro i bytes hlast hbytes
      have hi : i < c.node.children.length := by omega
      have hmem : (c.enter bytes i).node ∈ c.node.children := by
        rw [Cursor.enter, getD_eq_getElem _ _ hi]
        exact getElem_mem hi
      have hnodes := nodes_lt_of_mem hmem
      rw [← hlast, h.upTo_enter_last hroot hi hbytes]
      exact ih (h.enter hi hbytes) (hwf.child hmem).2 (by omega)
    rw [RadixTree.raxSeekGreatest]
    split_ifs with hleaf hc
    · have hnil : c.node.children = [] :=
        hwf.shape.data_nil_iff.mp (eq_nil_of_length_eq_zero hleaf)
      have hkey : c.node.iskey = true := hocc.resolve_right (not_not.mpr hnil)
      refine ⟨h, hkey, ?_⟩
      rw [hnil, length_nil, Cursor.upTo_zero, Cursor.self_of_key hkey]
    · have hone := (hwf.shape.compr hc).2
      exact hdescend 0 _ (by omega) (label_compr hc hwf.shape (by omega)).1
    · rw [Bool.not_eq_true] at hc
      have hlast := last_label hwf.shape hc hleaf
      have hlen := (hwf.shape.plain hc).1
      exact hdescend _ _ (by omega) hlast.2

variable {size : Nat} (hsize : root.nodes ≤ size)
include hsize

section Round

variable (hi : i ≤ c.node.children.length) (hplain : c.node.iscompr = false →
    c.node.data.reverse.findIdx (fun x => x < b) = c.node.data.length - i)
  (hcompr : c.node.iscompr = true → i = 0) (hup : noup = false → i < c.node.children.length)
include hi hplain hcompr hup

/-- The scan back finds the last key in front of an edge, if there is an edge to follow. -/
theorem Cursor.On.prevChild :
    (i = 0 ∧ c.prevChild size noup b = c) ∨
      ReachesBack root (c.upTo i) (some (c.prevChild size noup b)) := by
  have hwf := h.linked.wf hroot
  unfold Cursor.prevChild
  cases hc : c.node.iscompr with
  | true => exact .inl ⟨hcompr hc, by simp⟩
  | false =>
    have hlen := (hwf.shape.plain hc).1
    simp only [hplain hc, true_and]
    rcases Nat.eq_zero_or_pos i with rfl | hpos
    · left
      simp
    · right
      have hmore : c.node.data.length > (if noup then 0 else 1) := by
        cases noup with
        | true =>
          rw [if_pos rfl]
          omega
        | false =>
          have hlt := hup rfl
          rw [if_neg (by decide)]
          omega
      have hprev : c.node.data.length - 1 - (c.node.data.length - i) = i - 1 := by omega
      rw [if_pos hmore, if_pos (by omega), hprev]
      have hlt : i - 1 < c.node.children.length := by omega
      have hlabel := label_plain hc hwf.shape hlt
      have hon := h.enter hlt hlabel
      have hocc := hon.linked.occupied hroot (cons_ne_nil _ _)
      have hnodes := hon.linked.nodes_le hroot
      have hupto := h.upTo_enter_last hroot hlt hlabel
      rw [Nat.sub_add_cancel hpos] at hupto
      rw [hupto]
      exact hon.raxSeekGreatest hroot hocc (by omega)

/-- A round of the loop at a node: it ends with the key that was found or with the node's
own, or the loop goes on with what is in front of the node. -/
theorem Cursor.On.prevRound
    (hrest : ReachesBack root (before c.stack) (prevLoop size fuel false c)) :
    ReachesBack root (c.upTo i)
      (if (c.prevChild size noup b).node.iskey then some (c.prevChild size noup b)
        else prevLoop size fuel false (c.prevChild size noup b)) := by
  rcases h.prevChild hroot hsize hi hplain hcompr hup with ⟨rfl, hsame⟩ | hfound
  · rw [hsame, Cursor.upTo_zero]
    cases hkey : c.node.iskey with
    | true => exact ⟨h, hkey, by rw [c.self_of_key hkey]⟩
    | false =>
      rw [c.self_of_not_key hkey, append_nil]
      exact hrest
  · rw [if_pos hfound.2.1]
    exact hfound

end Round

theorem prevLoop_reaches (hfuel : c.stack.length < fuel) :
    ReachesBack root (before c.stack) (prevLoop size fuel false c) := by
  induction fuel generalizing c with
  | zero => omega
  | succ fuel ih =>
    obtain ⟨key, n, stack⟩ := c
    obtain ⟨hlinked, hkey⟩ := h
    dsimp only at hlinked hkey hfuel ⊢
    subst hkey
    rw [prevLoop]
    cases hlinked with
    | top => exact rfl
    | @child f stack n up here =>
      have hok : f.Ok := ⟨up.wf hroot, (List.getElem?_eq_some_iff.mp here).1⟩
      have hon : Cursor.On ⟨path stack, f.node, stack⟩ root := ⟨up, rfl⟩
      have hplain : f.node.iscompr = false →
          f.node.data.reverse.findIdx (fun x => x < (path (f :: stack)).getLastD 0) =
            f.node.data.length - f.index := by
        intro hc
        obtain ⟨hi, hlast⟩ := path_getLastD stack hok hc
        rw [hlast]
        exact reverse_findIdx_lt_getElem (hok.1.shape.plain hc).2 hi
      have hcompr : f.node.iscompr = true → f.index = 0 :=
        fun hc => (label_compr hc hok.1.shape hok.2).2
      simp only [prevNode, Bool.false_eq_true, if_false, backAt_path hok]
      rw [before_eq_upTo (f := f) rfl]
      exact hon.prevRound hroot hsize (le_of_lt hok.2) hplain hcompr (fun _ => hok.2)
        (ih hon (by simpa using hfuel))

/-- The first round at the node where a seek stopped. -/
theorem Cursor.On.prevLoop_noup (hfuel : c.stack.length < fuel)
    (hlen : bytes.length = if c.node.iscompr then c.node.data.length else 1)
    (hi : i ≤ c.node.children.length) (hplain : c.node.iscompr = false →
      c.node.data.reverse.findIdx (fun x => x < (c.key ++ bytes).getLastD 0) =
        c.node.data.length - i) (hcompr : c.node.iscompr = true → i = 0) :
    ReachesBack root (c.upTo i)
      (prevLoop size (fuel + 1) true ⟨c.key ++ bytes, c.node, c.stack⟩) := by
  rw [prevLoop]
  simp only [prevNode, if_true, backAt_append hlen]
  exact h.prevRound hroot hsize hi hplain hcompr (fun hfalse => by cases hfalse)
    (prevLoop_reaches h hroot hsize hfuel)

end Backward

end Redis.RadixTree
