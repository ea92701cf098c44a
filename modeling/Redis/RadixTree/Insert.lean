import Redis.RadixTree.Walk

/-! Insertion: the subtree at which the walk stopped gains one entry, and so
does the tree. -/
namespace Redis.RadixTree

open ByteBuffer List

variable {V : Type}

/-- Replacing a subtree changes the entries of the tree as it changes those of
the subtree. -/
theorem perm_plug {stack : List (Frame V)} {h h' : Node V} {t : Bytes} {v : Option V}
    (hstack : ∀ f ∈ stack, f.Ok) (hperm : h'.entries.Perm ((t, v) :: h.entries)) :
    (plug stack h').entries.Perm ((path stack ++ t, v) :: (plug stack h).entries) := by
  have hmap := hperm.map (addPrefix (path stack))
  rw [entries_plug hstack, entries_plug hstack, append_assoc, append_assoc]
  refine ((hmap.append_right _).append_left _).trans ?_
  exact perm_middle

section Data

variable (n : Node V) (d : Option V)

@[simp] theorem raxGetData_setData : raxGetData (raxSetData n d) = d := by
  cases d <;> rfl

@[simp] theorem setData_iskey : (raxSetData n d).iskey = true := by
  cases d <;> rfl

@[simp] theorem setData_iscompr : (raxSetData n d).iscompr = n.iscompr := by
  cases d <;> rfl

@[simp] theorem setData_data : (raxSetData n d).data = n.data := by
  cases d <;> rfl

@[simp] theorem setData_children : (raxSetData n d).children = n.children := by
  cases d <;> rfl

theorem setData_edges : (raxSetData n d).edges = n.edges := by
  simp [Node.edges, Node.labels]

theorem setData_entries : (raxSetData n d).entries = ([], d) :: n.edges.flatMap branch := by
  rw [Node.entries_eq, setData_edges]
  simp [Node.own]

theorem setData_nodes : (raxSetData n d).nodes = n.nodes := by
  rw [Node.nodes_eq, Node.nodes_eq, setData_children]

variable {n}

theorem Node.Wf.setData (h : n.Wf) : (raxSetData n d).Wf := by
  refine Node.wf_of_child ?_ ?_
  · have hshape := h.shape
    unfold Node.Shape at hshape ⊢
    simpa using hshape
  · rw [setData_children]
    exact fun c => h.child

theorem setData_occupied : (raxSetData n d).Occupied := .inl (setData_iskey n d)

theorem entries_of_key (hkey : n.iskey = true) :
    n.entries = ([], raxGetData n) :: n.edges.flatMap branch := by
  rw [Node.entries_eq, Node.own, if_pos hkey]
  rfl

theorem entries_of_not_key (hkey : n.iskey = false) : n.entries = n.edges.flatMap branch := by
  rw [Node.entries_eq, Node.own, if_neg (by simp [hkey])]
  rfl

end Data

section Chain

/-- A node with one child, compressed if its edge has more than one byte. -/
structure Node.IsChain (n : Node V) (d : Bytes) (c : Node V) : Prop where
  data : n.data = d
  children : n.children = [c]
  nonempty : d ≠ []
  compr : n.iscompr = decide (1 < d.length)

variable {n c : Node V} {d : Bytes}

section

variable (h : n.IsChain d c)
include h

theorem Node.IsChain.edges : n.edges = [(d, c)] := by
  have hlabels : n.labels = [d] := by
    rw [Node.labels, h.compr, h.data]
    by_cases hlen : 1 < d.length
    · simp [hlen]
    · obtain ⟨b, rfl⟩ : ∃ b, d = [b] := by
        have hpos := length_pos_of_ne_nil h.nonempty
        exact length_eq_one_iff.mp (by omega)
      simp
  rw [Node.edges, hlabels, h.children]
  rfl

theorem Node.IsChain.entries : n.entries = n.own ++ c.entries.map (addPrefix d) := by
  rw [Node.entries_eq, h.edges]
  simp [branch]

theorem Node.IsChain.wf (hc : c.Wf) (ho : c.Occupied) : n.Wf := by
  refine Node.wf_of_child ?_ ?_
  · rw [Node.Shape, h.compr, h.data, h.children]
    have hpos := length_pos_of_ne_nil h.nonempty
    by_cases hlen : 1 < d.length
    · simp [hlen]
      omega
    · obtain ⟨b, rfl⟩ := length_eq_one_iff.mp (show d.length = 1 by omega)
      simp
  · rw [h.children]
    exact forall_mem_singleton.mpr ⟨hc, ho⟩

theorem Node.IsChain.occupied : n.Occupied := by
  right
  rw [h.children]
  simp

theorem Node.IsChain.nodes : n.nodes = 1 + c.nodes := by
  rw [Node.nodes_eq, h.children]
  simp

theorem Node.IsChain.setData (v : Option V) : (raxSetData n v).IsChain d c :=
  ⟨by simp [h.data], by simp [h.children], h.nonempty, by simp [h.compr]⟩

end

theorem Node.isChain_mk {len : Nat} (iskey isnull : Bool) (value : Option V) (hlen : d.length = len)
    (hpos : 0 < len) : Node.IsChain ⟨iskey, isnull, decide (len > 1), d, [c], value⟩ d c := by
  refine ⟨rfl, rfl, ne_nil_of_length_pos (by omega), ?_⟩
  rw [hlen]

/-- A compressed node is such a node. -/
theorem Node.Wf.isChain (h : n.Wf) (hc : n.iscompr = true) :
    n.IsChain n.data (raxNodeLastChild n) := by
  obtain ⟨hlen, hone⟩ := h.shape.compr hc
  obtain ⟨c, hchildren⟩ := length_eq_one_iff.mp hone
  refine ⟨rfl, ?_, ?_, ?_⟩
  · rw [raxNodeLastChild, hchildren]
    rfl
  · intro hnil
    rw [hnil] at hlen
    simp at hlen
  · rw [hc]
    exact (decide_eq_true (by omega)).symm

theorem Node.Wf.lastChild (h : n.Wf) (hc : n.iscompr = true) :
    (raxNodeLastChild n).Wf ∧ (raxNodeLastChild n).Occupied := by
  apply h.child
  rw [(h.isChain hc).children]
  simp

end Chain

section Extend

variable {h child : Node V} {c : UInt8} {s : Bytes} {data : Option V}

theorem raxNewNode_wf : (raxNewNode : Node V).Wf :=
  Node.wf_of_child ⟨rfl, List.Pairwise.nil⟩ nofun

/-- A new byte is put where the order wants it. -/
theorem sorted_insertIdx {l : Bytes} (hl : l.Pairwise (· < ·)) (hc : c ∉ l) :
    (l.insertIdx (l.findIdx fun b => b > c) c).Pairwise (· < ·) := by
  induction l with
  | nil => simp
  | cons x l ih =>
    obtain ⟨hx, htail⟩ := pairwise_cons.mp hl
    obtain ⟨hne, hnot⟩ := ne_and_not_mem_of_not_mem_cons hc
    rw [findIdx_cons]
    by_cases hgt : x > c
    · simp only [hgt, decide_true, cond_true, insertIdx_zero]
      refine pairwise_cons.mpr ⟨?_, hl⟩
      intro y hy
      rcases mem_cons.mp hy with rfl | hy
      · exact hgt
      · exact UInt8.lt_trans hgt (hx y hy)
    · simp only [hgt, decide_false, cond_false, insertIdx_succ_cons]
      refine pairwise_cons.mpr ⟨?_, ih htail hnot⟩
      intro y hy
      rcases eq_or_mem_of_mem_insertIdx hy with rfl | hy
      · exact UInt8.lt_of_le_of_ne (UInt8.not_lt.mp hgt) hne.symm
      · exact hx y hy

theorem zip_insertIdx {α β : Type} (l : List α) (m : List β) (hlen : l.length = m.length) (i : Nat)
    (x : α) (y : β) : (l.insertIdx i x).zip (m.insertIdx i y) = (l.zip m).insertIdx i (x, y) := by
  induction i generalizing l m with
  | zero => simp
  | succ i ih =>
    cases l with
    | nil =>
      simp
    | cons a l =>
      obtain ⟨b, m, rfl⟩ := exists_cons_of_length_eq_add_one hlen.symm
      simp [ih l m (by simpa using hlen)]

section Child

variable (hwf : h.Wf) (hplain : h.iscompr = false) (c : UInt8) (child : Node V)
include hwf hplain

theorem addChild_edges : (raxAddChild h c child).edges.Perm (([c], child) :: h.edges) := by
  have hlen := (hwf.shape.plain hplain).1
  have hedges : (raxAddChild h c child).edges =
      h.edges.insertIdx (h.data.findIdx fun b => b > c) ([c], child) := by
    simp only [Node.edges, Node.labels, raxAddChild, hplain, Bool.false_eq_true, if_false,
      map_insertIdx]
    exact zip_insertIdx _ _ (by simpa using hlen) _ _ _
  rw [hedges]
  apply perm_insertIdx
  simp [Node.edges, Node.labels, hplain, ← hlen, findIdx_le_length]

/-- A new edge adds the entries behind it. -/
theorem addChild_entries :
    (raxAddChild h c child).entries.Perm (child.entries.map (addPrefix [c]) ++ h.entries) := by
  have hown : (raxAddChild h c child).own = h.own := rfl
  have hflat := (addChild_edges hwf hplain c child).flatMap_right branch
  rw [Node.entries_eq, Node.entries_eq h, hown]
  exact (hflat.append_left _).trans (perm_append_comm_assoc _ _ _)

theorem addChild_children : (raxAddChild h c child).children.Perm (child :: h.children) := by
  apply perm_insertIdx
  rw [← (hwf.shape.plain hplain).1]
  exact findIdx_le_length

theorem addChild_nodes : (raxAddChild h c child).nodes = child.nodes + h.nodes := by
  have hsum := ((addChild_children hwf hplain c child).map Node.nodes).sum_eq
  rw [Node.nodes_eq, hsum, Node.nodes_eq h, map_cons, sum_cons]
  omega

theorem addChild_occupied : (raxAddChild h c child).Occupied := by
  right
  intro hnil
  have hperm := addChild_children hwf hplain c child
  rw [hnil] at hperm
  exact absurd hperm.length_eq (by simp)

variable {c child}

theorem addChild_wf (hc : c ∉ h.data) (hchild : child.Wf) (hocc : child.Occupied) :
    (raxAddChild h c child).Wf := by
  have hshape := hwf.shape.plain hplain
  refine Node.wf_of_child ?_ fun d hd => ?_
  · have hplain' : (raxAddChild h c child).iscompr = false := hplain
    rw [Node.Shape, if_neg (by simp [hplain'])]
    refine ⟨?_, sorted_insertIdx hshape.2 hc⟩
    simp [raxAddChild, length_insertIdx, hshape.1]
  · rcases mem_cons.mp ((addChild_children hwf hplain c child).mem_iff.mp hd) with rfl | hd
    · exact ⟨hchild, hocc⟩
    · exact hwf.child hd

end Child

theorem compressNode_isChain (h child : Node V) (hs : 2 ≤ s.length) :
    (raxCompressNode h s child).IsChain s child := by
  have hchain : Node.IsChain { h with iscompr := true, data := s, children := [child] } s child :=
    ⟨rfl, rfl, by rintro rfl; simp at hs, (decide_eq_true (by omega)).symm⟩
  rw [raxCompressNode]
  split_ifs
  · exact hchain.setData _
  · exact hchain

theorem compressNode_own : (raxCompressNode h s child).own = h.own := by
  rw [raxCompressNode]
  split_ifs with hkey
  · simp [Node.own, hkey]
  · simp [Node.own, hkey]

/-- What the loop at the end of an insertion does to the node where it begins. -/
structure Extends (data : Option V) (h : Node V) (s : Bytes) (e : Extended V) : Prop where
  wf : e.node.Wf
  occupied : e.node.Occupied
  entries : e.node.entries.Perm ((s, data) :: h.entries)
  nodes : e.node.nodes = h.nodes + e.nodes
  waskey : e.waskey = false

theorem extends_nil (hwf : h.Wf) (hkey : h.iskey = false) :
    Extends data h [] ⟨raxSetData h data, 0, h.iskey⟩ := by
  refine ⟨hwf.setData data, setData_occupied data, ?_, setData_nodes h data, hkey⟩
  rw [setData_entries, ← entries_of_not_key hkey]

theorem raxNewNode_entries : (raxNewNode : Node V).entries = [] := by
  rfl

theorem raxNewNode_nodes : (raxNewNode : Node V).nodes = 1 := by
  rfl

section Round

variable {e : Extended V} {t : Bytes} (hnew : Extends data raxNewNode t e)
include hnew

/-- A round that compresses a node without children. -/
theorem extends_compress (hwf : h.Wf) (hempty : h.data = []) (hs : 2 ≤ s.length) :
    Extends data h (s ++ t) ⟨raxCompressNode h s e.node, e.nodes + 1, e.waskey⟩ := by
  have hchain := compressNode_isChain h e.node hs
  have hchildren := hwf.shape.data_nil_iff.mp hempty
  refine ⟨hchain.wf hnew.wf hnew.occupied, hchain.occupied, ?_, ?_, hnew.waskey⟩
  · have hown : h.entries = h.own := by
      rw [Node.entries_eq, Node.edges, hchildren]
      simp
    have hmap := hnew.entries.map (addPrefix s)
    rw [hchain.entries, compressNode_own, hown]
    exact (hmap.append_left _).trans perm_append_comm
  · rw [hchain.nodes, hnew.nodes, raxNewNode_nodes, Node.nodes_eq, hchildren]
    simp only [map_nil, sum_nil]
    omega

/-- A round that adds an edge of one byte. -/
theorem extends_add (hwf : h.Wf) (hplain : h.iscompr = false) (hc : c ∉ h.data) :
    Extends data h (c :: t) ⟨raxAddChild h c e.node, e.nodes + 1, e.waskey⟩ := by
  refine ⟨addChild_wf hwf hplain hc hnew.wf hnew.occupied, addChild_occupied hwf hplain c e.node,
    ?_, ?_, hnew.waskey⟩
  · have hmap := hnew.entries.map (addPrefix [c])
    exact (addChild_entries hwf hplain c e.node).trans (hmap.append_right _)
  · show (raxAddChild h c e.node).nodes = h.nodes + (e.nodes + 1)
    rw [addChild_nodes hwf hplain, hnew.nodes, raxNewNode_nodes]
    omega

end Round

/-- The new nodes hold the one new key. -/
theorem insertRest_extends (data : Option V) {fuel : Nat} (hwf : h.Wf) (hplain : h.iscompr = false)
    (hnil : s = [] → h.iskey = false) (hcons : ∀ c cs, s = c :: cs → c ∉ h.data)
    (hfuel : s.length < fuel) (hmax : s.length ≤ raxNodeMaxSize) :
    Extends data h s (insertRest data fuel h s) := by
  induction fuel generalizing h s with
  | zero => omega
  | succ fuel ih =>
    have hnew : ∀ t : Bytes, t.length < fuel → t.length ≤ raxNodeMaxSize →
        Extends data raxNewNode t (insertRest data fuel raxNewNode t) := by
      intro t ht hle
      exact ih raxNewNode_wf rfl (fun _ => rfl) (by simp [raxNewNode]) ht hle
    cases s with
    | nil => exact extends_nil hwf (hnil rfl)
    | cons c cs =>
      rw [length_cons] at hfuel hmax
      by_cases hcompr : h.data = [] ∧ 1 < (c :: cs).length
      · have hsize : min (c :: cs).length raxNodeMaxSize = (c :: cs).length := by
          rw [length_cons]
          omega
        have hchild := hnew [] (by rw [length_cons] at hcompr; simp; omega) (by simp)
        simp only [insertRest, hcompr, and_self, if_true, hsize, drop_length,
          take_length]
        have hround := extends_compress hchild hwf hcompr.1 hcompr.2
        rwa [append_nil] at hround
      · simp only [insertRest, hcompr, if_false]
        exact extends_add (hnew cs (by omega) (by omega)) hwf hplain (hcons c cs rfl)

end Extend

section Split

theorem splitNode_own (h : Node V) (j : Nat) :
    (splitNode h j).1.own = if j = 0 then h.own else [] := by
  rw [splitNode]
  by_cases hzero : j = 0
  · cases hkey : h.iskey
    · simp [Node.own, hzero, hkey, raxNewNode]
    · simp [Node.own, hzero, hkey]
  · simp [Node.own, hzero, raxNewNode]

variable {h : Node V} (hwf : h.Wf) (hc : h.iscompr = true) {j : Nat} (hj : j < h.data.length)
include hwf hc hj

/-- The split node has the byte at the mismatch as its edge, and behind it what
the compressed node had behind that byte. -/
theorem splitNode_isChain : ∃ suffix, (splitNode h j).1.IsChain [h.data[j]] suffix ∧
    suffix.Wf ∧ suffix.Occupied ∧
    suffix.entries = (raxNodeLastChild h).entries.map (addPrefix (h.data.drop (j + 1))) ∧
    suffix.nodes + 1 + (if j = 0 then 0 else 1) = h.nodes + (splitNode h j).2 := by
  obtain ⟨hlast, hocc⟩ := hwf.lastChild hc
  have hnodes := (hwf.isChain hc).nodes
  have hbyte : (h.data.drop j).take 1 = [h.data[j]] := by
    rw [drop_eq_getElem_cons hj]
    rfl
  have hchain : ∀ suffix : Node V, Node.IsChain (if j = 0 ∧ h.iskey = true then
      raxSetData { raxNewNode with data := (h.data.drop j).take 1, children := [suffix] }
        (raxGetData h) else
      { raxNewNode with data := (h.data.drop j).take 1, children := [suffix] })
      [h.data[j]] suffix := by
    intro suffix
    have hbase : Node.IsChain { (raxNewNode : Node V) with
        data := (h.data.drop j).take 1, children := [suffix] } [h.data[j]] suffix :=
      ⟨hbyte, rfl, by simp, rfl⟩
    split_ifs
    · exact hbase.setData _
    · exact hbase
  by_cases hpost : h.data.length - j - 1 = 0
  · refine ⟨raxNodeLastChild h, ?_, hlast, hocc, ?_, ?_⟩
    · simp only [splitNode, hpost, ne_eq, not_true_eq_false, if_false]
      exact hchain _
    · rw [drop_eq_nil_of_le (by omega), addPrefix_nil, map_id]
    · simp only [splitNode, hpost, ne_eq, not_true_eq_false, if_false]
      omega
  · have hlen : (h.data.drop (j + 1)).length = h.data.length - j - 1 := by
      rw [length_drop]
      omega
    have hsuffix := Node.isChain_mk (c := raxNodeLastChild h) false false none hlen
      (pos_of_ne_zero hpost)
    refine ⟨_, ?_, hsuffix.wf hlast hocc, hsuffix.occupied, ?_, ?_⟩
    · simp only [splitNode, hpost, ne_eq, not_false_eq_true, if_true]
      exact hchain _
    · rw [hsuffix.entries]
      rfl
    · rw [hsuffix.nodes, hnodes]
      simp only [splitNode, hpost, ne_eq, not_false_eq_true, if_true]
      omega

/-- The split node has the entries of the compressed node from the mismatch on. -/
theorem splitNode_entries : (splitNode h j).1.entries = (if j = 0 then h.own else []) ++
    (raxNodeLastChild h).entries.map (addPrefix (h.data.drop j)) := by
  obtain ⟨suffix, hchain, _, _, hentries, _⟩ := splitNode_isChain hwf hc hj
  rw [hchain.entries, splitNode_own, hentries, map_map, addPrefix_addPrefix,
    drop_eq_getElem_cons hj]
  rfl

end Split

section Trim

variable {h : Node V} {j : Nat} (child : Node V)

theorem trimNode_isChain (hpos : 0 < j) (hj : j < h.data.length) :
    (trimNode h j child).IsChain (h.data.take j) child := by
  have hlen : (h.data.take j).length = j := by
    rw [length_take]
    omega
  have hbase := Node.isChain_mk (c := child) h.iskey h.isnull none hlen hpos
  rw [trimNode]
  split_ifs
  · exact hbase.setData _
  · exact hbase

theorem trimNode_own : (trimNode h j child).own = h.own := by
  rw [trimNode]
  split_ifs with hkey
  · simp [Node.own, hkey.1]
  · cases hiskey : h.iskey
    · simp [Node.own, hiskey]
    · have hnull : h.isnull = true := by simpa [hiskey] using hkey
      simp [Node.own, raxGetData, hiskey, hnull]

end Trim

section Edit

/-- A subtree gains an entry. -/
structure Grown (h h' : Node V) (t : Bytes) (data : Option V) (added : Nat) : Prop where
  wf : h'.Wf
  occupied : h'.Occupied
  entries : h'.entries.Perm ((t, data) :: h.entries)
  nodes : h'.nodes = h.nodes + added

variable {h : Node V} {t : Bytes} {data : Option V} {added : Nat} {j : Nat}

theorem Extends.grown {e : Extended V} (he : Extends data h t e) : Grown h e.node t data e.nodes :=
  ⟨he.wf, he.occupied, he.entries, he.nodes⟩

theorem grown_setData (data : Option V) (hwf : h.Wf) (hkey : h.iskey = false) :
    Grown h (raxSetData h data) [] data 0 := (extends_nil hwf hkey).grown

/-- The first algorithm: the key leaves a compressed node at a mismatch. -/
theorem grown_split (data : Option V) (hwf : h.Wf) (hc : h.iscompr = true) (hj : j < h.data.length)
    {c : UInt8} {cs : Bytes} (hdiff : h.data[j]? ≠ some c)
    (hmax : (c :: cs).length ≤ raxNodeMaxSize) :
    let e := insertRest data ((c :: cs).length + 1) (splitNode h j).1 (c :: cs)
    e.waskey = false ∧ Grown h (if j = 0 then e.node else trimNode h j e.node)
      (h.data.take j ++ c :: cs) data ((splitNode h j).2 + e.nodes) := by
  obtain ⟨suffix, hchain, hsuffix, hocc, _, hnodes⟩ := splitNode_isChain hwf hc hj
  have hsplit : Extends data (splitNode h j).1 (c :: cs)
      (insertRest data ((c :: cs).length + 1) (splitNode h j).1 (c :: cs)) := by
    apply insertRest_extends data (hchain.wf hsuffix hocc) hchain.compr (by simp) _
      (Nat.lt_succ_self _) hmax
    rintro c' cs' heq
    obtain ⟨rfl, rfl⟩ := List.cons.inj heq
    rw [hchain.data, mem_singleton]
    rintro rfl
    exact hdiff (getElem?_eq_getElem hj)
  have hcount := hsplit.nodes
  rw [hchain.nodes] at hcount
  have hentries := hsplit.entries
  rw [splitNode_entries hwf hc hj] at hentries
  generalize insertRest data ((c :: cs).length + 1) (splitNode h j).1 (c :: cs) = e at *
  refine ⟨hsplit.waskey, ?_⟩
  by_cases hzero : j = 0
  · rw [if_pos hzero] at hnodes hentries ⊢
    refine ⟨hsplit.wf, hsplit.occupied, ?_, by omega⟩
    subst hzero
    rwa [drop_zero, ← (hwf.isChain hc).entries] at hentries
  · have htrim := trimNode_isChain e.node (pos_of_ne_zero hzero) hj
    rw [if_neg hzero] at hnodes hentries ⊢
    refine ⟨htrim.wf hsplit.wf hsplit.occupied, htrim.occupied, ?_, ?_⟩
    · have hmap := hentries.map (addPrefix (h.data.take j))
      rw [nil_append, map_cons, map_map, addPrefix_addPrefix,
        take_append_drop] at hmap
      rw [htrim.entries, trimNode_own, (hwf.isChain hc).entries]
      exact (hmap.append_left _).trans perm_middle
    · rw [htrim.nodes]
      omega

/-- The second algorithm: the key ends inside a compressed node. -/
theorem grown_splitAtKey (data : Option V) (hwf : h.Wf) (hc : h.iscompr = true) (hpos : 0 < j)
    (hj : j < h.data.length) : Grown h (splitAtKey h j data) (h.data.take j) data 1 := by
  obtain ⟨hlast, hocc⟩ := hwf.lastChild hc
  have hchain := hwf.isChain hc
  have hdrop : (h.data.drop j).length = h.data.length - j := length_drop
  have htake : (h.data.take j).length = j := by
    rw [length_take]
    omega
  have hsuffix := (Node.isChain_mk (c := raxNodeLastChild h) true false none hdrop
    (by omega)).setData data
  have htrim : (splitAtKey h j data).IsChain (h.data.take j) (raxSetData
      ⟨true, false, decide (h.data.length - j > 1), h.data.drop j, [raxNodeLastChild h], none⟩
      data) := by
    have hbase := fun c : Node V => Node.isChain_mk (c := c) false false none htake hpos
    rw [splitAtKey]
    split_ifs
    · exact (hbase _).setData _
    · exact hbase _
  have hown : (splitAtKey h j data).own = h.own := by
    rw [splitAtKey]
    split_ifs with hkey <;> simp [Node.own, hkey]
  refine ⟨htrim.wf (hsuffix.wf hlast hocc) hsuffix.occupied, htrim.occupied, ?_, ?_⟩
  · have hsuffixOwn : ∀ n : Node V, (raxSetData n data).own = [([], data)] := by
      intro n
      simp [Node.own]
    rw [htrim.entries, hsuffix.entries, hsuffixOwn, hown, hchain.entries, map_append, map_map,
      addPrefix_addPrefix, take_append_drop]
    simp only [map_cons, map_nil, addPrefix, append_nil]
    exact perm_middle
  · rw [htrim.nodes, hsuffix.nodes, hchain.nodes]
    omega

end Edit

section Insert

variable {rax : Rax V} {s : Bytes} {data : Option V}

/-- The tree gains an entry, and the counters follow. -/
structure Rax.Gains (rax rax' : Rax V) (s : Bytes) (data : Option V) : Prop where
  wf : rax'.head.Wf
  entries : rax'.head.entries.Perm ((s, data) :: rax.head.entries)
  numele : rax'.numele = rax.numele + 1
  nodes : rax'.head.nodes + rax.numnodes = rax.head.nodes + rax'.numnodes

variable {w : Walk V}

theorem Walk.Correct.gains {h' : Node V} {added : Nat} (hw : w.Correct rax.head s)
    (hgrown : Grown w.stop h' w.inner data added) :
    rax.Gains ⟨plug w.stack h', rax.numele + 1, rax.numnodes + added⟩ s data := by
  have hperm := perm_plug hw.frames hgrown.entries
  rw [hw.key, hw.plugged] at hperm
  refine ⟨wf_plug hw.frames hgrown.wf (fun _ => hgrown.occupied), hperm, rfl, ?_⟩
  show (plug w.stack h').nodes + rax.numnodes = rax.head.nodes + (rax.numnodes + added)
  rw [← hw.plugged, nodes_plug hw.frames, nodes_plug hw.frames, hgrown.nodes]
  omega

theorem found_iff (w : Walk V) :
    (w.rest = [] ∧ ((!w.stop.iscompr) = true ∨ w.splitpos = 0)) ↔ w.Found := by
  rw [Walk.Found]
  cases w.stop.iscompr <;> simp

/-- A new key: the tree gains its entry. -/
theorem raxGenericInsert_absent (data : Option V) (overwrite : Bool) (hwf : rax.head.Wf)
    (hs : s.length < raxNodeMaxSize) (habsent : ∀ v, (s, v) ∉ rax.head.entries) :
    ∃ rax', raxGenericInsert rax s data overwrite = (rax', true, none) ∧
      rax.Gains rax' s data := by
  have hw := raxLowWalk_correct hwf s
  simp only [raxGenericInsert, found_iff]
  generalize raxLowWalk rax s = w at *
  have hrest : w.rest.length ≤ raxNodeMaxSize := by
    rw [← hw.key, Walk.inner, length_append, length_append] at hs
    omega
  by_cases hfound : w.Found
  · have hkey : w.stop.iskey = false := by
      have hnot := habsent (raxGetData w.stop)
      rw [hw.mem_iff, Walk.mem_of_found hw.wf hw.stopped hfound] at hnot
      simpa using hnot
    simp only [hfound, if_true, hkey, Bool.false_eq_true, if_false]
    have hgrown := grown_setData data hw.wf hkey
    rw [← hfound.inner_eq hw.stopped] at hgrown
    exact ⟨_, rfl, hw.gains hgrown⟩
  · simp only [hfound, if_false]
    cases hc : w.stop.iscompr with
    | true =>
      have hinside := hw.stopped.inside hc
      cases hr : w.rest with
      | cons c cs =>
        have hdiff := hw.stopped.mismatch c cs hr
        rw [if_pos hc] at hdiff
        rw [hr] at hrest
        obtain ⟨hwaskey, hgrown⟩ := grown_split data hw.wf hc hinside hdiff hrest
        rw [← hr, ← Walk.inner] at hgrown
        have hgains := hw.gains hgrown
        simp only [ne_eq, reduceCtorEq, not_false_eq_true, and_self, if_true, hwaskey,
          Bool.false_eq_true, if_false]
        rw [add_assoc]
        rw [hr] at hgains
        exact ⟨_, rfl, hgains⟩
      | nil =>
        have hpos : 0 < w.splitpos := by
          apply pos_of_ne_zero
          exact fun hzero => hfound ⟨hr, fun _ => hzero⟩
        have hgrown := grown_splitAtKey data hw.wf hc hpos hinside
        have hinner : w.inner = w.stop.data.take w.splitpos := by
          rw [Walk.inner, hr, append_nil]
        rw [← hinner] at hgrown
        exact ⟨_, rfl, hw.gains hgrown⟩
    | false =>
      have hinner : w.inner = w.rest := by
        rw [Walk.inner, hw.stopped.normal hc]
        rfl
      have hext := insertRest_extends data hw.wf hc
        (fun hnil => absurd ⟨hnil, fun htrue => by rw [hc] at htrue; cases htrue⟩ hfound)
        (fun c cs hr => by
          have hnot := hw.stopped.mismatch c cs hr
          rwa [if_neg (by simp [hc])] at hnot)
        (Nat.lt_succ_self _) hrest
      have hwaskey := hext.waskey
      have hgrown := hext.grown
      generalize insertRest data (w.rest.length + 1) w.stop w.rest = e at *
      rw [← hinner] at hgrown
      have hgains := hw.gains hgrown
      simp only [Bool.false_eq_true, false_and, if_false, hwaskey]
      exact ⟨_, rfl, hgains⟩

/-- A key that is there: its value is given, and replaced if that is wanted. -/
theorem raxGenericInsert_present (data : Option V) (overwrite : Bool) (hwf : rax.head.Wf)
    {v : Option V} (hmem : (s, v) ∈ rax.head.entries) :
    ∃ h rest, raxGenericInsert rax s data overwrite = ({ rax with head := h }, false, some v) ∧
      h.Wf ∧ h.nodes = rax.head.nodes ∧ rax.head.entries.Perm ((s, v) :: rest) ∧
      h.entries.Perm ((s, if overwrite then data else v) :: rest) := by
  have hw := raxLowWalk_correct hwf s
  simp only [raxGenericInsert, found_iff]
  generalize raxLowWalk rax s = w at *
  rw [hw.mem_iff] at hmem
  by_cases hfound : w.Found
  · obtain ⟨hkey, rfl⟩ := (Walk.mem_of_found hw.wf hw.stopped hfound).mp hmem
    simp only [hfound, if_true, hkey]
    have hs : s = path w.stack := by
      rw [← hw.key, hfound.inner_eq hw.stopped, append_nil]
    -- both trees are the same around the key
    have hperm : ∀ (h : Node V) (d : Option V), h.entries = ([], d) :: w.stop.edges.flatMap branch →
        (plug w.stack h).entries.Perm ((s, d) :: (before w.stack ++
          (w.stop.edges.flatMap branch).map (addPrefix (path w.stack)) ++ after w.stack)) := by
      intro h d hentries
      rw [entries_plug hw.frames, hentries, hs, append_assoc, append_assoc, map_cons,
        addPrefix, append_nil]
      exact perm_middle
    have hold := hperm w.stop (raxGetData w.stop) (entries_of_key hkey)
    rw [hw.plugged] at hold
    cases overwrite with
    | true =>
      have hnew := wf_plug hw.frames (hw.wf.setData data) fun _ => setData_occupied data
      refine ⟨_, _, rfl, hnew, ?_, hold, hperm _ data (setData_entries w.stop data)⟩
      show (plug w.stack (raxSetData w.stop data)).nodes = _
      rw [← hw.plugged, nodes_plug hw.frames, nodes_plug hw.frames, setData_nodes]
    | false =>
      have hhead : plug w.stack (if false = true then raxSetData w.stop data else w.stop) =
          rax.head := hw.plugged
      rw [hhead]
      exact ⟨_, _, rfl, hwf, rfl, hold, hold⟩
  · exact absurd hmem (Walk.not_mem_of_not_found hw.stopped hfound v)

end Insert

end Redis.RadixTree
