import Redis.RadixTree.Basic

/-! The meaning of a tree: the list of its keys, in order, with their values.
The entries of a subtree are a segment of the entries of the whole tree, and
the stack of its parents says what stands before and behind it. -/
namespace Redis.RadixTree

open ByteBuffer List

variable {V : Type}

abbrev Entry (V : Type) := Bytes × Option V

/-- The key that ends at the node itself. -/
def Node.own (n : Node V) : List (Entry V) := if n.iskey then [([], raxGetData n)] else []

/-- The strings on the edges to the children. -/
def Node.labels (n : Node V) : List Bytes :=
  if n.iscompr then [n.data] else n.data.map fun b => [b]

def addPrefix (l : Bytes) (e : Entry V) : Entry V := (l ++ e.1, e.2)

mutual

/-- The keys below a node, relative to it, with their values. -/
def Node.entries : Node V → List (Entry V)
  | ⟨iskey, isnull, iscompr, data, children, value⟩ =>
    Node.own ⟨iskey, isnull, iscompr, data, children, value⟩ ++
      entriesList (Node.labels ⟨iskey, isnull, iscompr, data, children, value⟩) children

def entriesList : List Bytes → List (Node V) → List (Entry V)
  | _, [] => []
  | [], _ => []
  | l :: labels, c :: children => c.entries.map (addPrefix l) ++ entriesList labels children

end

mutual

/-- The number of nodes of a subtree. -/
def Node.nodes : Node V → Nat
  | ⟨_, _, _, _, children, _⟩ => 1 + nodesList children

def nodesList : List (Node V) → Nat
  | [] => 0
  | c :: children => c.nodes + nodesList children

end

/-- A compressed node has at least two bytes and one child; the edges of any
other node are in strictly increasing order. -/
def Node.Shape (n : Node V) : Prop :=
  if n.iscompr then 2 ≤ n.data.length ∧ n.children.length = 1
  else n.data.length = n.children.length ∧ n.data.Pairwise (· < ·)

/-- Not a childless node that is no key. -/
def Node.Occupied (n : Node V) : Prop := n.iskey = true ∨ n.children ≠ []

/-- All nodes of the tree have the right shape, and all but the top one are in use. -/
inductive Node.Wf : Node V → Prop
  | mk {n : Node V} (shape : n.Shape) (wf : ∀ c ∈ n.children, c.Wf)
      (occupied : ∀ c ∈ n.children, c.Occupied) : n.Wf

/-- Induction over a tree: from the children to the node. -/
theorem Node.children_induction {P : Node V → Prop}
    (h : ∀ n : Node V, (∀ c ∈ n.children, P c) → P n) (n : Node V) : P n := by
  refine @Node.rec V P (fun l => ∀ c ∈ l, P c) ?_ ?_ ?_ n
  · exact fun _ _ _ _ _ _ ih => h _ ih
  · exact fun c hc => absurd hc not_mem_nil
  · intro head tail hhead htail c hc
    rcases mem_cons.mp hc with rfl | hc
    · exact hhead
    · exact htail c hc

/-- The edges of a node with the children they lead to. -/
def Node.edges (n : Node V) : List (Bytes × Node V) := n.labels.zip n.children

/-- The entries that go through an edge. -/
def branch (e : Bytes × Node V) : List (Entry V) := e.2.entries.map (addPrefix e.1)

theorem entriesList_eq (labels : List Bytes) (children : List (Node V)) :
    entriesList labels children = (labels.zip children).flatMap branch := by
  induction children generalizing labels with
  | nil => simp [entriesList]
  | cons c children ih =>
    cases labels with
    | nil => simp [entriesList]
    | cons l labels => simp [entriesList, ih, branch]

theorem Node.entries_eq (n : Node V) : n.entries = n.own ++ n.edges.flatMap branch := by
  obtain ⟨iskey, isnull, iscompr, data, children, value⟩ := n
  rw [Node.entries, entriesList_eq]
  rfl

theorem nodesList_eq (children : List (Node V)) :
    nodesList children = (children.map Node.nodes).sum := by
  induction children with
  | nil => rfl
  | cons c children ih => simp [nodesList, ih]

theorem Node.nodes_eq (n : Node V) : n.nodes = 1 + (n.children.map Node.nodes).sum := by
  obtain ⟨iskey, isnull, iscompr, data, children, value⟩ := n
  rw [Node.nodes, nodesList_eq]

@[simp] theorem addPrefix_nil : addPrefix (V := V) [] = id := rfl

theorem addPrefix_addPrefix (l m : Bytes) :
    addPrefix (V := V) l ∘ addPrefix m = addPrefix (l ++ m) := by
  funext e
  simp [addPrefix]

section Shape

variable {n : Node V}

theorem Node.Shape.labels_length (h : n.Shape) : n.labels.length = n.children.length := by
  unfold Node.Shape at h
  unfold Node.labels
  split_ifs at h ⊢ with hc
  · simp [h.2]
  · simp [h.1]

theorem Node.Shape.label_ne_nil (h : n.Shape) {l : Bytes} (hl : l ∈ n.labels) : l ≠ [] := by
  unfold Node.Shape at h
  unfold Node.labels at hl
  rintro rfl
  split_ifs at h hl with hc
  · have hdata : [] = n.data := by simpa using hl
    rw [← hdata] at h
    simp at h
  · simp at hl

/-- Edges are told apart by their first byte. -/
theorem Node.Shape.labels_sorted (h : n.Shape) :
    n.labels.Pairwise (fun l m => ∀ a b : Bytes, l ++ a < m ++ b) := by
  unfold Node.Shape at h
  unfold Node.labels
  split_ifs at h ⊢ with hc
  · exact pairwise_singleton _ _
  · rw [pairwise_map]
    apply h.2.imp
    intro x y hxy a b
    exact cons_lt_cons_iff.mpr (.inl hxy)

theorem Node.Shape.edges_fst (h : n.Shape) : n.edges.map Prod.fst = n.labels := by
  rw [Node.edges, map_fst_zip]
  rw [h.labels_length]

theorem Node.Wf.shape (h : n.Wf) : n.Shape := by
  cases h with
  | mk shape wf occupied => exact shape

theorem Node.Wf.child (h : n.Wf) {c : Node V} (hc : c ∈ n.children) : c.Wf ∧ c.Occupied := by
  cases h with
  | mk shape wf occupied => exact ⟨wf c hc, occupied c hc⟩

theorem Node.wf_of_child (hshape : n.Shape) (h : ∀ c ∈ n.children, c.Wf ∧ c.Occupied) : n.Wf :=
  ⟨hshape, fun c hc => (h c hc).1, fun c hc => (h c hc).2⟩

/-- The keys are found in strictly increasing order. -/
theorem Node.Wf.sorted (h : n.Wf) : n.entries.Pairwise (fun a b => a.1 < b.1) := by
  induction n using Node.children_induction with
  | h n ih =>
    have hshape := h.shape
    rw [Node.entries_eq, pairwise_append, pairwise_flatMap]
    refine ⟨?_, ⟨?_, ?_⟩, ?_⟩
    · rw [Node.own]
      split_ifs <;> simp
    · rintro ⟨l, c⟩ he
      have hc : c ∈ n.children := (of_mem_zip he).2
      rw [branch, pairwise_map]
      apply (ih c hc (h.child hc).1).imp
      intro a b hab
      exact append_left_lt hab
    · have hpair := hshape.labels_sorted
      rw [← hshape.edges_fst, pairwise_map] at hpair
      apply hpair.imp
      intro e f hef a ha b hb
      obtain ⟨a', _, rfl⟩ := mem_map.mp ha
      obtain ⟨b', _, rfl⟩ := mem_map.mp hb
      exact hef _ _
    · intro a ha b hb
      have hnil : a.1 = [] := by
        rw [Node.own] at ha
        split_ifs at ha
        · rw [mem_singleton.mp ha]
        · cases ha
      obtain ⟨⟨l, c⟩, he, hb⟩ := mem_flatMap.mp hb
      obtain ⟨b', _, rfl⟩ := mem_map.mp hb
      have hl := hshape.label_ne_nil (of_mem_zip he).1
      obtain ⟨x, l', rfl⟩ := exists_cons_of_ne_nil hl
      rw [hnil]
      exact nil_lt_cons _ _

/-- Below every node but an empty head there is a key. -/
theorem Node.Wf.entries_ne_nil (h : n.Wf) (ho : n.Occupied) : n.entries ≠ [] := by
  induction n using Node.children_induction with
  | h n ih =>
    have hshape := h.shape
    rw [Node.entries_eq]
    rcases ho with hkey | hne
    · simp [Node.own, hkey]
    · obtain ⟨c, children, hchildren⟩ := exists_cons_of_ne_nil hne
      have hc : c ∈ n.children := by simp [hchildren]
      have hlen := hshape.labels_length
      obtain ⟨l, labels, hlabels⟩ := exists_cons_of_ne_nil
        (show n.labels ≠ [] by
          intro hnil
          rw [hnil, hchildren] at hlen
          simp at hlen)
      have hsub := ih c hc (h.child hc).1 (h.child hc).2
      simp [Node.edges, hlabels, hchildren, branch, hsub]

end Shape

section Stack

/-- What a frame has before the child that was followed, the edge to it, and what
it has behind. -/
def Frame.left (f : Frame V) : List (Entry V) :=
  f.node.own ++ (f.node.edges.take f.index).flatMap branch

def Frame.label (f : Frame V) : Bytes := f.node.labels.getD f.index []

def Frame.right (f : Frame V) : List (Entry V) := (f.node.edges.drop (f.index + 1)).flatMap branch

/-- The key that the path of a stack spells. -/
def path : List (Frame V) → Bytes
  | [] => []
  | f :: stack => path stack ++ f.label

/-- The entries of the whole tree before those of the subtree. -/
def before : List (Frame V) → List (Entry V)
  | [] => []
  | f :: stack => before stack ++ f.left.map (addPrefix (path stack))

/-- The entries of the whole tree behind those of the subtree. -/
def after : List (Frame V) → List (Entry V)
  | [] => []
  | f :: stack => f.right.map (addPrefix (path stack)) ++ after stack

/-- The nodes of the tree outside the subtree. -/
def Frame.others (f : Frame V) : Nat := 1 + ((f.node.children.eraseIdx f.index).map Node.nodes).sum

def outside : List (Frame V) → Nat
  | [] => 0
  | f :: stack => f.others + outside stack

/-- The frame was a well-formed node, and a child was followed. -/
def Frame.Ok (f : Frame V) : Prop := f.node.Wf ∧ f.index < f.node.children.length

variable {f : Frame V} {h : Node V} {stack : List (Frame V)}

theorem Frame.entries_link (hf : f.Ok) :
    (f.link h).entries = f.left ++ h.entries.map (addPrefix f.label) ++ f.right := by
  have hlen := hf.1.shape.labels_length
  have hi : f.index < f.node.labels.length := by
    rw [hlen]
    exact hf.2
  have hedges : (f.link h).edges =
      f.node.edges.take f.index ++ (f.label, h) :: f.node.edges.drop (f.index + 1) := by
    have hset : (f.link h).edges = f.node.labels.zip (f.node.children.set f.index h) := rfl
    have hlabels : f.node.labels = f.node.labels.take f.index ++
        f.node.labels[f.index] :: f.node.labels.drop (f.index + 1) := by simp
    rw [hset, set_eq_take_cons_drop _ hf.2]
    conv_lhs => rw [hlabels]
    rw [zip_append (by simp; omega), zip_cons_cons, Node.edges, Frame.label,
      getD_eq_getElem _ _ hi]
    simp only [zip_eq_zipWith, take_zipWith, drop_zipWith]
  have hown : (f.link h).own = f.node.own := rfl
  rw [Node.entries_eq, hedges, hown, Frame.left, Frame.right, flatMap_append,
    flatMap_cons]
  simp [branch]

theorem Frame.wf_link (hf : f.Ok) (hh : h.Wf) (ho : h.Occupied) :
    (f.link h).Wf ∧ (f.link h).Occupied := by
  have hchild : ∀ c ∈ (f.link h).children, c.Wf ∧ c.Occupied := by
    intro c hc
    rcases mem_or_eq_of_mem_set hc with hc | rfl
    · exact hf.1.child hc
    · exact ⟨hh, ho⟩
  refine ⟨⟨?_, fun c hc => (hchild c hc).1, fun c hc => (hchild c hc).2⟩, ?_⟩
  · have hshape := hf.1.shape
    unfold Node.Shape at hshape ⊢
    simpa [Frame.link] using hshape
  · right
    have hlen : (f.link h).children.length = f.node.children.length := by simp [Frame.link]
    have hlt := hf.2
    intro hnil
    rw [hnil, length_nil] at hlen
    omega

theorem Frame.nodes_link (hf : f.Ok) : (f.link h).nodes = f.others + h.nodes := by
  have hi : f.index < (f.node.children.set f.index h).length := by
    rw [length_set]
    exact hf.2
  have hperm := (getElem_cons_eraseIdx_perm hi).map Node.nodes
  rw [getElem_set_self, eraseIdx_set_eq] at hperm
  have hsum := hperm.sum_eq
  rw [map_cons, sum_cons] at hsum
  have hlink : (f.link h).nodes = 1 + ((f.node.children.set f.index h).map Node.nodes).sum :=
    (f.link h).nodes_eq
  rw [hlink, Frame.others]
  omega

section

variable (hstack : ∀ f ∈ stack, f.Ok)
include hstack

/-- The entries of a tree, seen from a subtree. -/
theorem entries_plug : (plug stack h).entries =
      before stack ++ h.entries.map (addPrefix (path stack)) ++ after stack := by
  induction stack generalizing h with
  | nil => simp [plug, before, after, path]
  | cons f stack ih =>
    have hf := hstack f (mem_cons_self ..)
    rw [plug, ih (fun g hg => hstack g (mem_cons_of_mem _ hg)), Frame.entries_link hf]
    simp only [before, after, path, map_append, map_map, addPrefix_addPrefix,
      append_assoc]

theorem wf_plug (hh : h.Wf) (ho : stack ≠ [] → h.Occupied) : (plug stack h).Wf := by
  induction stack generalizing h with
  | nil => exact hh
  | cons f stack ih =>
    have hf := hstack f (mem_cons_self ..)
    obtain ⟨hwf, hocc⟩ := f.wf_link hf hh (ho (cons_ne_nil _ _))
    exact ih (fun g hg => hstack g (mem_cons_of_mem _ hg)) hwf (fun _ => hocc)

theorem nodes_plug : (plug stack h).nodes = outside stack + h.nodes := by
  induction stack generalizing h with
  | nil => simp [plug, outside]
  | cons f stack ih =>
    have hf := hstack f (mem_cons_self ..)
    rw [plug, ih (fun g hg => hstack g (mem_cons_of_mem _ hg)), Frame.nodes_link hf, outside]
    omega

end

/-- The frame of a child gives the node back. -/
theorem Frame.link_getD {n : Node V} {i : Nat} (hi : i < n.children.length) (d : Node V) :
    Frame.link ⟨n, i⟩ (n.children.getD i d) = n := by
  obtain ⟨iskey, isnull, iscompr, data, children, value⟩ := n
  rw [getD_eq_getElem _ _ hi]
  simp [Frame.link]

end Stack

end Redis.RadixTree
