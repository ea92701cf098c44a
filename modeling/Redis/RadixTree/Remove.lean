import Redis.RadixTree.Insert

/-! Removal: the entry goes, the nodes that held nothing else are freed, and the
chain of nodes that is left is compressed without changing what it holds. -/
namespace Redis.RadixTree

open ByteBuffer List

variable {V : Type}
variable {v : Option V} {rax' : Rax V}

section Chain

variable {h c : Node V} {d : Bytes}

theorem scanChain_isChain (hchain : h.IsChain d c) (comprsize nodes : Nat) :
    scanChain h comprsize nodes =
      if endsChain c then (comprsize, nodes)
      else if comprsize + c.data.length > raxNodeMaxSize then (comprsize, nodes)
      else scanChain c (comprsize + c.data.length) (nodes + 1) := by
  obtain ⟨iskey, isnull, iscompr, data, children, value⟩ := h
  obtain rfl : children = [c] := hchain.children
  rw [scanChain]

theorem collectChain_isChain (hchain : h.IsChain d c) :
    collectChain h =
      if endsChain c then (d, c, 1)
      else (d ++ (collectChain c).1, (collectChain c).2.1, (collectChain c).2.2 + 1) := by
  obtain ⟨iskey, isnull, iscompr, data, children, value⟩ := h
  obtain rfl : children = [c] := hchain.children
  obtain rfl : data = d := hchain.data
  rw [collectChain]

/-- What collecting a chain gives: the node behind it, whose entries are those of
the chain without the collected bytes. -/
structure Collected (h : Node V) (data : Bytes) (last : Node V) (freed : Nat) : Prop where
  wf : last.Wf
  occupied : last.Occupied
  entries : h.entries = last.entries.map (addPrefix data)
  nodes : h.nodes = last.nodes + freed
  pos : 0 < freed
  size : freed ≤ data.length

/-- The sizes of the nodes of a chain, up to the next key or branch. -/
def chainSizes : Node V → List Nat
  | ⟨_, _, _, data, [h], _⟩ => if endsChain h then [data.length] else data.length :: chainSizes h
  | _ => []

theorem chainSizes_isChain (hchain : h.IsChain d c) :
    chainSizes h = if endsChain c then [d.length] else d.length :: chainSizes c := by
  obtain ⟨iskey, isnull, iscompr, data, children, value⟩ := h
  obtain rfl : children = [c] := hchain.children
  obtain rfl : data = d := hchain.data
  rw [chainSizes]

/-- The first scan never measures more than fits in a node. -/
theorem scanChain_le (h : Node V) {size : Nat} (hmax : size ≤ raxNodeMaxSize) (nodes : Nat) :
    (scanChain h size nodes).1 ≤ raxNodeMaxSize ∧ nodes ≤ (scanChain h size nodes).2 := by
  fun_induction scanChain h size nodes with
  | case1 => exact ⟨hmax, le_refl _⟩
  | case2 => exact ⟨hmax, le_refl _⟩
  | case3 _ _ _ _ _ _ _ _ _ _ ih =>
    obtain ⟨hle, hnodes⟩ := ih (by omega)
    exact ⟨hle, by omega⟩
  | case4 => exact ⟨hmax, le_refl _⟩

variable (hwf : h.Wf) (hlink : endsChain h = false)
include hwf hlink

/-- A node inside a chain: no key, with one child. -/
theorem Node.Wf.inChain :
    ∃ c, h.IsChain h.data c ∧ c.Wf ∧ c.Occupied ∧ h.own = [] := by
  rw [endsChain, Bool.or_eq_false_iff] at hlink
  have hown : h.own = [] := by
    rw [Node.own, hlink.1]
    rfl
  cases hc : h.iscompr with
  | true => exact ⟨_, hwf.isChain hc, (hwf.lastChild hc).1, (hwf.lastChild hc).2, hown⟩
  | false =>
    have hlen : h.data.length = 1 := by simpa [hc] using hlink.2
    obtain ⟨c, hchildren⟩ := length_eq_one_iff.mp ((hwf.shape.plain hc).1 ▸ hlen)
    have hchild := hwf.child (c := c) (by rw [hchildren]; simp)
    refine ⟨c, ⟨rfl, hchildren, ne_nil_of_length_pos (by omega), ?_⟩, hchild.1, hchild.2,
      hown⟩
    rw [hc, hlen]
    rfl

theorem collectChain_collected :
    Collected h (collectChain h).1 (collectChain h).2.1 (collectChain h).2.2 := by
  induction h using Node.children_induction with
  | h n ih =>
    obtain ⟨c, hchain, hc, hocc, hown⟩ := hwf.inChain hlink
    have hpos := length_pos_of_ne_nil hchain.nonempty
    have hentries : n.entries = c.entries.map (addPrefix n.data) := by
      rw [hchain.entries, hown, nil_append]
    rw [collectChain_isChain hchain]
    cases hend : endsChain c with
    | true =>
      refine ⟨hc, hocc, hentries, ?_, Nat.one_pos, hpos⟩
      rw [hchain.nodes]
      exact add_comm _ _
    | false =>
      obtain ⟨hlwf, hlocc, hlentries, hlnodes, _, hlsize⟩ :=
        ih c (by rw [hchain.children]; simp) hc hend
      refine ⟨hlwf, hlocc, ?_, ?_, Nat.succ_pos _, ?_⟩
      · rw [hentries, hlentries, map_map, addPrefix_addPrefix]
        rfl
      · rw [hchain.nodes, hlnodes]
        simp only [Bool.false_eq_true, if_false]
        omega
      · show _ ≤ (n.data ++ _).length
        rw [length_append]
        simp only [Bool.false_eq_true, if_false]
        omega

theorem chainSizes_head :
    ∃ rest, chainSizes h = h.data.length :: rest := by
  obtain ⟨c, hchain, _⟩ := hwf.inChain hlink
  rw [chainSizes_isChain hchain]
  split_ifs
  · exact ⟨[], rfl⟩
  · exact ⟨chainSizes c, rfl⟩

theorem collectChain_length :
    (collectChain h).1.length = (chainSizes h).sum := by
  induction h using Node.children_induction with
  | h n ih =>
    obtain ⟨c, hchain, hc, _⟩ := hwf.inChain hlink
    rw [collectChain_isChain hchain, chainSizes_isChain hchain]
    cases hend : endsChain c with
    | true => simp
    | false => simp [ih c (by rw [hchain.children]; simp) hc hend]

/-- The chain is measured as it is collected, if the result fits in a node. -/
theorem scanChain_eq (size nodes : Nat) (hmax : size + (chainSizes h).sum ≤ raxNodeMaxSize) :
    scanChain h (size + h.data.length) (nodes + 1) =
      (size + (chainSizes h).sum, nodes + (collectChain h).2.2) := by
  induction h using Node.children_induction generalizing size nodes with
  | h n ih =>
    obtain ⟨c, hchain, hc, _⟩ := hwf.inChain hlink
    rw [scanChain_isChain hchain, collectChain_isChain hchain]
    rw [chainSizes_isChain hchain] at hmax ⊢
    cases hend : endsChain c with
    | true => simp
    | false =>
      obtain ⟨rest, hsizes⟩ := chainSizes_head hc hend
      have hnext := ih c (by rw [hchain.children]; simp) hc hend (size + n.data.length) (nodes + 1)
      rw [hsizes] at hnext hmax ⊢
      simp only [hend, Bool.false_eq_true, if_false, sum_cons] at hmax hnext ⊢
      rw [if_neg (by omega), hnext (by omega)]
      simp only [Prod.mk.injEq]
      omega

/-- If a chain is compressed, then the bytes that the second scan copies are as many as the first
one has measured, and it frees the nodes that were counted. -/
def PassesAgree (h : Node V) : Prop :=
  1 < (scanChain h h.data.length 1).2 →
    (collectChain h).1.length = (scanChain h h.data.length 1).1 ∧
      (collectChain h).2.2 = (scanChain h h.data.length 1).2

/-- The whole chain fits in one node, or not even its first two nodes do. -/
def ChainFits (h : Node V) : Prop :=
  match chainSizes h with
  | first :: next :: rest =>
    first + next ≤ raxNodeMaxSize → first + next + rest.sum ≤ raxNodeMaxSize
  | _ => True

theorem passesAgree_iff :
    PassesAgree h ↔ ChainFits h := by
  have heq := scanChain_eq hwf hlink 0 0
  obtain ⟨c, hchain, hc, _⟩ := hwf.inChain hlink
  rw [PassesAgree, ChainFits, collectChain_length hwf hlink]
  cases hend : endsChain c with
  | true => simp [scanChain_isChain hchain, chainSizes_isChain hchain, hend]
  | false =>
    obtain ⟨rest, hrest⟩ := chainSizes_head hc hend
    have hscan := scanChain_isChain hchain h.data.length 1
    have hsizes : chainSizes h = h.data.length :: c.data.length :: rest := by
      rw [chainSizes_isChain hchain, hend, hrest, hchain.data]
      rfl
    simp only [hend, Bool.false_eq_true, if_false] at hscan
    rw [hsizes] at heq ⊢
    simp only [zero_add, sum_cons] at heq ⊢
    by_cases hfirst : h.data.length + c.data.length > raxNodeMaxSize
    · rw [hscan, if_pos hfirst]
      simp
      omega
    · rw [if_neg hfirst] at hscan
      obtain ⟨hle, hnodes⟩ := scanChain_le c (Nat.le_of_not_lt hfirst) (1 + 1)
      constructor
      · intro hagree _
        have hlength := (hagree (by rw [hscan]; exact hnodes)).1
        rw [hscan] at hlength
        omega
      · intro hfits _
        rw [heq (by have := hfits (by omega); omega)]
        exact ⟨rfl, rfl⟩

end Chain

section Recompress

variable {h : Node V} {stack : List (Frame V)}

theorem Frame.endsChain_link (f : Frame V) (h : Node V) :
    endsChain (f.link h) = endsChain f.node := rfl

variable (hstack : ∀ f ∈ stack, f.Ok) (hwf : h.Wf) (hlink : endsChain h = false)
include hstack hwf hlink

/-- Going up changes where the tree is held, not the tree. -/
theorem seekStart_spec :
    (∀ f ∈ (seekStart h stack).2, f.Ok) ∧ (seekStart h stack).1.Wf ∧
      endsChain (seekStart h stack).1 = false ∧
      plug (seekStart h stack).2 (seekStart h stack).1 = plug stack h := by
  induction stack generalizing h with
  | nil => exact ⟨hstack, hwf, hlink, rfl⟩
  | cons f stack ih =>
    rw [seekStart]
    split_ifs with hend
    · exact ⟨hstack, hwf, hlink, rfl⟩
    · have hocc : h.Occupied := by
        obtain ⟨c, hchain, _⟩ := hwf.inChain hlink
        exact hchain.occupied
      have hlinked := f.wf_link (hstack f (mem_cons_self ..)) hwf hocc
      apply ih (fun g hg => hstack g (mem_cons_of_mem _ hg)) hlinked.1
      rw [Frame.endsChain_link]
      simpa using hend

/-- Compressing a chain keeps what the tree holds. -/
theorem recompress_spec (hagree : PassesAgree (seekStart h stack).1) (numele : Nat) :
    let r := recompress h stack numele (plug stack h).nodes
    r.head.Wf ∧ r.head.entries = (plug stack h).entries ∧ r.numele = numele ∧
      r.numnodes = r.head.nodes := by
  obtain ⟨hparents, hstart, hends, hplug⟩ := seekStart_spec hstack hwf hlink
  rw [PassesAgree] at hagree
  simp only [recompress, ← hplug]
  generalize (seekStart h stack).1 = start at *
  generalize (seekStart h stack).2 = parents at *
  obtain ⟨hlwf, hlocc, hentries, hnodes, hpos, hsize⟩ := collectChain_collected hstart hends
  generalize scanChain start start.data.length 1 = scan at *
  generalize collectChain start = chain at *
  obtain ⟨data, last, freed⟩ := chain
  simp only at *
  by_cases hmany : scan.2 > 1
  · obtain ⟨hlength, hfreed⟩ := hagree hmany
    rw [if_pos hmany, ← hlength, take_length]
    have hchain : Node.IsChain ⟨false, false, true, data, [last], none⟩ data last :=
      ⟨rfl, rfl, ne_nil_of_length_pos (by omega), (decide_eq_true (by omega)).symm⟩
    refine ⟨wf_plug hparents (hchain.wf hlwf hlocc) (fun _ => hchain.occupied), ?_, rfl, ?_⟩
    · rw [entries_plug hparents, entries_plug hparents, hchain.entries, hentries]
      rfl
    · simp only [nodes_plug hparents, hchain.nodes, hnodes]
      omega
  · rw [if_neg hmany]
    obtain ⟨c, hchain, _⟩ := hstart.inChain hends
    exact ⟨wf_plug hparents hstart (fun _ => hchain.occupied), rfl, rfl, rfl⟩

/-- Some key goes through the whole chain, which fits in a node if the keys do. -/
theorem chainFits_of_short (hshort : ∀ e ∈ (plug stack h).entries, e.1.length < raxNodeMaxSize) :
    ChainFits (seekStart h stack).1 := by
  obtain ⟨hparents, hstart, hends, hplug⟩ := seekStart_spec hstack hwf hlink
  rw [← hplug] at hshort
  generalize (seekStart h stack).1 = start at *
  generalize (seekStart h stack).2 = parents at *
  obtain ⟨hlwf, hlocc, hentries, _⟩ := collectChain_collected hstart hends
  obtain ⟨e, he⟩ := exists_mem_of_ne_nil _ (hlwf.entries_ne_nil hlocc)
  have hmem : addPrefix (path parents) (addPrefix (collectChain start).1 e) ∈
      (plug parents start).entries := by
    rw [entries_plug hparents, hentries]
    simp only [mem_append, mem_map]
    exact .inl (.inr ⟨_, ⟨e, he, rfl⟩, rfl⟩)
  have hlt := hshort _ hmem
  simp only [addPrefix, length_append, collectChain_length hstart hends] at hlt
  rw [ChainFits]
  split
  · rename_i hsizes
    rw [hsizes, sum_cons, sum_cons] at hlt
    omega
  · trivial

end Recompress

section Unlink

theorem removeChild_own (f : Frame V) : (raxRemoveChild f.node f.index).own = f.node.own := by
  rw [raxRemoveChild]
  cases hc : f.node.iscompr with
  | true =>
    simp only [if_true]
    split_ifs with hkey
    · simp [Node.own, hkey]
    · simp [Node.own, hkey]
  | false => rfl

variable {f : Frame V} (hf : f.Ok)
include hf

theorem removeChild_children :
    (raxRemoveChild f.node f.index).children = f.node.children.eraseIdx f.index := by
  rw [raxRemoveChild]
  cases hc : f.node.iscompr with
  | true =>
    have hone := (hf.1.shape.compr hc).2
    have hindex := hf.2
    have herase : f.node.children.eraseIdx f.index = [] := by
      rw [← length_eq_zero_iff, length_eraseIdx_of_lt hindex, hone]
    rw [herase]
    split_ifs <;> simp
  | false => simp

theorem removeChild_nodes : (raxRemoveChild f.node f.index).nodes = f.others := by
  rw [Node.nodes_eq, removeChild_children hf, Frame.others]

theorem removeChild_edges :
    (raxRemoveChild f.node f.index).edges = f.node.edges.eraseIdx f.index := by
  rw [Node.edges, removeChild_children hf, Node.edges]
  cases hc : f.node.iscompr with
  | true =>
    have hone := (hf.1.shape.compr hc).2
    have hindex := hf.2
    have hzero : f.index = 0 := by omega
    obtain ⟨c, hchildren⟩ := length_eq_one_iff.mp hone
    simp [hzero, hchildren, Node.labels, hc]
  | false =>
    have hlabels : (raxRemoveChild f.node f.index).labels = f.node.labels.eraseIdx f.index := by
      simp [raxRemoveChild, Node.labels, hc, eraseIdx_map]
    have hlen := hf.1.shape.labels_length
    rw [hlabels, eraseIdx_eq_take_drop_succ, eraseIdx_eq_take_drop_succ,
      eraseIdx_eq_take_drop_succ, zip_append (by simp [hlen]), zip_eq_zipWith,
      zip_eq_zipWith, zip_eq_zipWith, take_zipWith, drop_zipWith]

/-- What is left is what stood on both sides of the child. -/
theorem removeChild_entries : (raxRemoveChild f.node f.index).entries = f.left ++ f.right := by
  rw [Node.entries_eq, removeChild_own, removeChild_edges hf, eraseIdx_eq_take_drop_succ,
    flatMap_append, Frame.left, Frame.right, append_assoc]

theorem removeChild_wf : (raxRemoveChild f.node f.index).Wf := by
  refine Node.wf_of_child ?_ ?_
  · cases hc : f.node.iscompr with
    | true =>
      simp only [raxRemoveChild, hc, if_true]
      split_ifs <;> simp [Node.Shape]
    | false =>
      obtain ⟨hlen, hsorted⟩ := hf.1.shape.plain hc
      have hindex := hf.2
      simp only [raxRemoveChild, hc, Bool.false_eq_true, if_false, Node.Shape]
      refine ⟨?_, hsorted.sublist (eraseIdx_sublist _ _)⟩
      rw [length_eraseIdx_of_lt hindex, length_eraseIdx_of_lt (by omega), hlen]
  · rw [removeChild_children hf]
    exact fun c hc => hf.1.child (mem_of_mem_eraseIdx hc)

theorem removeChild_occupied (hend : endsChain f.node = true) :
    (raxRemoveChild f.node f.index).Occupied := by
  rw [endsChain, Bool.or_eq_true] at hend
  rcases hend with hkey | hmany
  · left
    rw [raxRemoveChild]
    split_ifs <;> simp [hkey]
  · right
    rw [Bool.and_eq_true] at hmany
    have hc : f.node.iscompr = false := by simpa using hmany.1
    have hne : f.node.data.length ≠ 1 := by simpa using hmany.2
    have hlen := (hf.1.shape.plain hc).1
    have hindex := hf.2
    rw [removeChild_children hf]
    apply ne_nil_of_length_pos
    rw [length_eraseIdx_of_lt hindex]
    omega

end Unlink

section Reclaim

variable {f : Frame V} {stack : List (Frame V)}

/-- A node of a chain holds nothing beside its child. -/
theorem Frame.alone (hf : f.Ok) (hlink : endsChain f.node = false) :
    f.left = [] ∧ f.right = [] ∧ f.others = 1 := by
  obtain ⟨c, hchain, _, _, hown⟩ := hf.1.inChain hlink
  have hindex := hf.2
  rw [hchain.children, length_singleton] at hindex
  have hzero : f.index = 0 := by omega
  refine ⟨?_, ?_, ?_⟩
  · rw [Frame.left, hown, hzero]
    rfl
  · rw [Frame.right, hchain.edges, hzero]
    rfl
  · rw [Frame.others, hchain.children, hzero]
    rfl

/-- What freeing unused nodes upwards does: the parent `g` of the topmost one
loses that child, and the tree holds the same as with the unused node. -/
structure Reclaimed (stack : List (Frame V)) (g : Frame V) (parents : List (Frame V))
    (freed : Nat) : Prop where
  frame : g.Ok
  frames : ∀ f ∈ parents, f.Ok
  ends : parents ≠ [] → endsChain g.node = true
  entries : ∀ h : Node V, h.entries = [] →
    (plug parents (raxRemoveChild g.node g.index)).entries = (plug stack h).entries
  nodes : outside stack + 1 = (plug parents (raxRemoveChild g.node g.index)).nodes + freed

theorem reclaimed_here (hf : f.Ok) (hstack : ∀ g ∈ stack, g.Ok)
    (hend : stack ≠ [] → endsChain f.node = true) : Reclaimed (f :: stack) f stack 1 := by
  refine ⟨hf, hstack, hend, ?_, ?_⟩
  · intro h hempty
    rw [plug, entries_plug hstack, entries_plug hstack, removeChild_entries hf,
      Frame.entries_link hf, hempty]
    simp
  · rw [nodes_plug hstack, removeChild_nodes hf, outside]
    omega

theorem reclaim_reclaimed (hstack : ∀ g ∈ f :: stack, g.Ok) :
    ∃ g parents freed, reclaim (f :: stack) = (some (g, parents), freed) ∧
      Reclaimed (f :: stack) g parents freed := by
  induction stack generalizing f with
  | nil =>
    have hf := hstack f (mem_cons_self ..)
    exact ⟨f, [], 1, by simp [reclaim], reclaimed_here hf (by simp) (by simp)⟩
  | cons f' stack ih =>
    have hf := hstack f (mem_cons_self ..)
    have hrest : ∀ g ∈ f' :: stack, g.Ok := fun g hg => hstack g (mem_cons_of_mem _ hg)
    rw [reclaim]
    cases hend : endsChain f.node with
    | true => exact ⟨f, f' :: stack, 1, by simp, reclaimed_here hf hrest (fun _ => hend)⟩
    | false =>
      obtain ⟨hleft, hright, hothers⟩ := f.alone hf hend
      obtain ⟨g, parents, freed, hreclaim, hr⟩ := ih hrest
      refine ⟨g, parents, freed + 1, by simp [hreclaim], hr.frame, hr.frames, hr.ends, ?_, ?_⟩
      · intro h hempty
        apply hr.entries
        rw [Frame.entries_link hf, hleft, hright, hempty]
        rfl
      · have hnodes := hr.nodes
        rw [outside, hothers]
        omega

end Reclaim

section Remove

variable {rax : Rax V} {s : Bytes}

/-- The tree loses an entry, and the counters follow. -/
structure Rax.Loses (rax rax' : Rax V) (s : Bytes) (v : Option V) : Prop where
  wf : rax'.head.Wf
  entries : rax.head.entries.Perm ((s, v) :: rax'.head.entries)
  numele : rax'.numele = rax.numele - 1
  nodes : rax'.numnodes = rax'.head.nodes

theorem not_found_of_absent (hwf : rax.head.Wf) (habsent : ∀ v, (s, v) ∉ rax.head.entries) :
    ¬ ((raxLowWalk rax s).Found ∧ (raxLowWalk rax s).stop.iskey = true) := by
  have hw := raxLowWalk_correct hwf s
  rintro ⟨hfound, hkey⟩
  apply habsent (raxGetData (raxLowWalk rax s).stop)
  rw [hw.mem_iff, Walk.mem_of_found hw.wf hw.stopped hfound]
  exact ⟨hkey, rfl⟩

theorem raxRemove_absent (hwf : rax.head.Wf) (habsent : ∀ v, (s, v) ∉ rax.head.entries) :
    raxRemove rax s = (rax, false, none) := by
  simp only [raxRemove, not_found_iff]
  rw [if_pos (not_found_of_absent hwf habsent)]

/-- The node of a key that is removed, before anything is reclaimed. -/
def Node.clearKey (n : Node V) : Node V := { n with iskey := false }

theorem entries_clearKey (n : Node V) : n.clearKey.entries = n.edges.flatMap branch :=
  entries_of_not_key rfl

theorem nodes_clearKey (n : Node V) : n.clearKey.nodes = n.nodes := by
  rw [Node.nodes_eq, Node.nodes_eq]
  rfl

theorem Node.Wf.clearKey {n : Node V} (h : n.Wf) : n.clearKey.Wf :=
  Node.wf_of_child h.shape fun _ => h.child

/-- The node at which `raxRemove` tries to compress, without the key, and its parents. -/
def trycompress (rax : Rax V) (s : Bytes) : Option (Node V × List (Frame V)) :=
  let w := raxLowWalk rax s
  if w.rest ≠ [] ∨ (w.stop.iscompr ∧ w.splitpos ≠ 0) ∨ !w.stop.iskey then none
  else
    let h : Node V := { w.stop with iskey := false }
    if h.data = [] then
      match reclaim w.stack with
      | (none, _) => none
      | (some (f, stack), _) =>
        let new := raxRemoveChild f.node f.index
        if new.data.length = 1 ∧ !new.iskey then some (new, stack) else none
    else if h.data.length = 1 then some (h, w.stack)
    else none

theorem trycompress_absent (hwf : rax.head.Wf) (habsent : ∀ v, (s, v) ∉ rax.head.entries) :
    trycompress rax s = none := by
  simp only [trycompress, not_found_iff]
  rw [if_pos (not_found_of_absent hwf habsent)]

/-- The tree without the key, as it is when it is compressed. -/
structure Compressible (rax : Rax V) (s : Bytes) (v : Option V) (h : Node V)
    (stack : List (Frame V)) : Prop where
  frames : ∀ f ∈ stack, f.Ok
  wf : h.Wf
  link : endsChain h = false
  entries : rax.head.entries.Perm ((s, v) :: (plug stack h).entries)

theorem endsChain_eq_false {h : Node V} (hlen : h.data.length = 1) (hkey : h.iskey = false) :
    endsChain h = false := by
  rw [endsChain, hkey, hlen]
  simp

/-- What `raxRemove` does with a key that is there, up to compression. -/
inductive Removal (rax : Rax V) (s : Bytes) (v : Option V) :
    Option (Node V × List (Frame V)) → Rax V → Prop where
  | done {rax' : Rax V} (h : rax.Loses rax' s v) : Removal rax s v none rax'
  | compress {h : Node V} {stack : List (Frame V)} (hc : Compressible rax s v h stack) :
    Removal rax s v (some (h, stack)) (recompress h stack (rax.numele - 1) (plug stack h).nodes)

/-- The branch of `raxRemove` for a node without children. -/
theorem removal_reclaim {h : Node V} {stack : List (Frame V)}
    (hperm : rax.head.entries.Perm ((s, v) :: (plug stack h).entries))
    (hcount : rax.numnodes = (plug stack h).nodes) (hempty : h.entries = []) (hone : h.nodes = 1)
    {g : Frame V} {parents : List (Frame V)} {freed : Nat} (hr : Reclaimed stack g parents freed)
    (hstack : ∀ f ∈ stack, f.Ok) :
    let new := raxRemoveChild g.node g.index
    Removal rax s v (if new.data.length = 1 ∧ (!new.iskey) = true then some (new, parents) else none)
      (if new.data.length = 1 ∧ (!new.iskey) = true then
        recompress new parents (rax.numele - 1) (rax.numnodes - freed)
      else ⟨plug parents new, rax.numele - 1, rax.numnodes - freed⟩) := by
  rw [← hr.entries h hempty] at hperm
  have hnodes := hr.nodes
  rw [nodes_plug hstack, hone, hnodes] at hcount
  have hfreed : rax.numnodes - freed = (plug parents (raxRemoveChild g.node g.index)).nodes := by
    omega
  have hwf := removeChild_wf hr.frame
  simp only
  split_ifs with hcond
  · rw [hfreed]
    exact .compress ⟨hr.frames, hwf, endsChain_eq_false hcond.1 (by simpa using hcond.2), hperm⟩
  · have hocc := fun hne => removeChild_occupied hr.frame (hr.ends hne)
    exact .done ⟨wf_plug hr.frames hwf hocc, hperm, rfl, hfreed⟩

theorem raxRemove_removal (hwf : rax.head.Wf) (hnodes : rax.numnodes = rax.head.nodes)
    (hmem : (s, v) ∈ rax.head.entries) :
    ∃ rax', raxRemove rax s = (rax', true, some v) ∧ Removal rax s v (trycompress rax s) rax' := by
  have hw := raxLowWalk_correct hwf s
  simp only [raxRemove, trycompress, not_found_iff]
  generalize raxLowWalk rax s = w at *
  rw [hw.mem_iff] at hmem
  by_cases hfound : w.Found
  · obtain ⟨hkey, rfl⟩ := (Walk.mem_of_found hw.wf hw.stopped hfound).mp hmem
    have hperm : rax.head.entries.Perm
        ((s, raxGetData w.stop) :: (plug w.stack w.stop.clearKey).entries) := by
      have hstop : w.stop.entries.Perm (([], raxGetData w.stop) :: w.stop.clearKey.entries) := by
        rw [entries_of_key hkey, entries_clearKey]
      have hlocal := perm_plug hw.frames hstop
      rwa [hw.plugged, ← hfound.inner_eq hw.stopped, hw.key] at hlocal
    have hcount : rax.numnodes = (plug w.stack w.stop.clearKey).nodes := by
      rw [hnodes, ← hw.plugged, nodes_plug hw.frames, nodes_plug hw.frames, nodes_clearKey]
    have hclear : ({ w.stop with iskey := false } : Node V) = w.stop.clearKey := rfl
    have hwfc := hw.wf.clearKey
    simp only [hfound, hkey, and_self, not_true_eq_false, if_false, hclear]
    split_ifs with hempty hone
    · have hchildren := hw.wf.shape.data_nil_iff.mp hempty
      have hnone : w.stop.clearKey.entries = [] := by
        rw [entries_clearKey, Node.edges, hchildren, zip_nil_right]
        rfl
      have hsingle : w.stop.clearKey.nodes = 1 := by
        rw [nodes_clearKey, Node.nodes_eq, hchildren]
        rfl
      cases hstack : w.stack with
      | nil =>
        rw [hstack] at hperm hcount
        exact ⟨_, rfl, .done ⟨hwfc, hperm, rfl, hcount⟩⟩
      | cons f stack =>
        have hframes := hw.frames
        rw [hstack] at hperm hcount hframes
        obtain ⟨g, parents, freed, hreclaim, hr⟩ := reclaim_reclaimed hframes
        have hremoval := removal_reclaim hperm hcount hnone hsingle hr hframes
        rw [hreclaim]
        simp only at hremoval ⊢
        split_ifs at hremoval ⊢
        · exact ⟨_, rfl, hremoval⟩
        · exact ⟨_, rfl, hremoval⟩
    · rw [hcount]
      exact ⟨_, rfl, .compress ⟨hw.frames, hwfc, endsChain_eq_false hone rfl, hperm⟩⟩
    · have hocc : w.stop.clearKey.Occupied := .inr (mt hw.wf.shape.data_nil_iff.mpr hempty)
      exact ⟨_, rfl, .done ⟨wf_plug hw.frames hwfc (fun _ => hocc), hperm, rfl, hcount⟩⟩
  · exact absurd hmem (Walk.not_mem_of_not_found hw.stopped hfound v)

theorem Removal.compressible {h : Node V} {stack : List (Frame V)}
    (hr : Removal rax s v (some (h, stack)) rax') : Compressible rax s v h stack := by
  cases hr with
  | compress hc => exact hc

/-- The key is lost and nothing else, if the chain that is compressed fits. -/
theorem Removal.loses {start : Option (Node V × List (Frame V))}
    (hr : Removal rax s v start rax') (hfits : ∀ h stack, start = some (h, stack) →
      Compressible rax s v h stack → ChainFits (seekStart h stack).1) :
    rax.Loses rax' s v := by
  cases hr with
  | done h => exact h
  | @compress h stack hc =>
    obtain ⟨_, hstart, hends, _⟩ := seekStart_spec hc.frames hc.wf hc.link
    obtain ⟨hwf, hentries, hnumele, hnodes⟩ := recompress_spec hc.frames hc.wf hc.link
      ((passesAgree_iff hstart hends).mpr (hfits h stack rfl hc)) (rax.numele - 1)
    exact ⟨hwf, hentries ▸ hc.entries, hnumele, hnodes⟩

end Remove

end Redis.RadixTree
