import Redis.Library.ByteBuffer

/-! The radix tree of `rax.c`. A node is a value of a recursive structure; a
pointer to a node inside the tree is the node together with the stack of its
parents, each with the index of the child that was followed, so that writing
through a parent link is rebuilding the path. No allocation fails. -/
namespace Redis.RadixTree

open ByteBuffer

def raxNodeMaxSize : Nat := 2 ^ 29 - 1

/-- `raxNode`; `size` is the length of `data`, and `value` the slot behind the
children that holds the value pointer of a key that is not `NULL`. -/
structure Node (V : Type) where
  iskey : Bool
  isnull : Bool
  iscompr : Bool
  data : Bytes
  children : List (Node V)
  value : Option V

structure Rax (V : Type) where
  head : Node V
  numele : Nat
  numnodes : Nat

variable {V : Type}

/-- A node without children, as `raxNewNode(0,0)` makes it. -/
def raxNewNode : Node V :=
  { iskey := false, isnull := false, iscompr := false, data := [], children := [], value := none }

def raxNew : Rax V := { head := raxNewNode, numele := 0, numnodes := 1 }

/-- No value is the `NULL` pointer. -/
def raxSetData (n : Node V) : Option V → Node V
  | some v => { n with iskey := true, isnull := false, value := some v }
  | none => { n with iskey := true, isnull := true }

def raxGetData (n : Node V) : Option V := if n.isnull then none else n.value

/-- Insert a child for the character `c` in front of the first larger edge. -/
def raxAddChild (n : Node V) (c : UInt8) (child : Node V) : Node V :=
  let pos := n.data.findIdx (fun b => b > c)
  { n with data := n.data.insertIdx pos c, children := n.children.insertIdx pos child }

/-- Turn a node without children into a compressed one. -/
def raxCompressNode (n : Node V) (s : Bytes) (child : Node V) : Node V :=
  let newn := { n with iscompr := true, data := s, children := [child] }
  if n.iskey then raxSetData newn (raxGetData n) else newn

/-- A parent on the stack, with the child that was followed. -/
structure Frame (V : Type) where
  node : Node V
  index : Nat

/-- Write a node through the parent link at a position. -/
def Frame.link (f : Frame V) (h : Node V) : Node V :=
  { f.node with children := f.node.children.set f.index h }

/-- The tree around a node; the nearest parent is the first frame. -/
def plug : List (Frame V) → Node V → Node V
  | [], h => h
  | f :: stack, h => plug stack (f.link h)

/-- The comparison loop at a compressed node: how many bytes agree. -/
def matchLength : Bytes → Bytes → Nat
  | v :: vs, c :: cs => if v = c then matchLength vs cs + 1 else 0
  | _, _ => 0

/-- Where a walk stopped: what is left of the string, the node, the position in
it if it is compressed, and its parents. -/
structure Walk (V : Type) where
  rest : Bytes
  stop : Node V
  splitpos : Nat
  stack : List (Frame V)

/-- The loop of `raxLowWalk`; every round takes at least one byte. -/
def lowWalk : Nat → Node V → Bytes → List (Frame V) → Walk V
  | 0, h, s, stack => ⟨s, h, 0, stack⟩
  | fuel + 1, h, s, stack =>
    match s with
    | [] => ⟨[], h, 0, stack⟩
    | c :: cs =>
      if h.data = [] then ⟨c :: cs, h, 0, stack⟩
      else if h.iscompr then
        let j := matchLength h.data (c :: cs)
        if j ≠ h.data.length then ⟨(c :: cs).drop j, h, j, stack⟩
        else lowWalk fuel (h.children.getD 0 raxNewNode) ((c :: cs).drop j) (⟨h, 0⟩ :: stack)
      else
        let j := h.data.idxOf c
        if j = h.data.length then ⟨c :: cs, h, 0, stack⟩
        else lowWalk fuel (h.children.getD j raxNewNode) cs (⟨h, j⟩ :: stack)

def raxLowWalk (rax : Rax V) (s : Bytes) : Walk V := lowWalk (s.length + 1) rax.head s []

/-- The node the loop at the end of `raxGenericInsert` puts in the place of `h`,
the number of nodes it adds, and whether the last one was a key before. -/
structure Extended (V : Type) where
  node : Node V
  nodes : Nat
  waskey : Bool

/-- The loop that adds the missing nodes, one or more bytes a round. Each round
leaves its node behind and goes on at the new child. -/
def insertRest (data : Option V) : Nat → Node V → Bytes → Extended V
  | 0, h, _ => ⟨raxSetData h data, 0, h.iskey⟩
  | fuel + 1, h, s =>
    match s with
    | [] => ⟨raxSetData h data, 0, h.iskey⟩
    | c :: cs =>
      if h.data = [] ∧ 1 < (c :: cs).length then
        let comprsize := min (c :: cs).length raxNodeMaxSize
        let child := insertRest data fuel raxNewNode ((c :: cs).drop comprsize)
        ⟨raxCompressNode h ((c :: cs).take comprsize) child.node, child.nodes + 1, child.waskey⟩
      else
        let child := insertRest data fuel raxNewNode cs
        ⟨raxAddChild h c child.node, child.nodes + 1, child.waskey⟩

/-- The only child of a compressed node. -/
def raxNodeLastChild (h : Node V) : Node V := h.children.getLastD raxNewNode

/-- The first algorithm: split a compressed node at a mismatch. Gives the split
node, with what is behind it, and how many nodes were added so far. -/
def splitNode (h : Node V) (j : Nat) : Node V × Nat :=
  let next := raxNodeLastChild h
  let postfixlen := h.data.length - j - 1
  let suffix : Node V :=
    if postfixlen ≠ 0 then
      { iskey := false, isnull := false, iscompr := postfixlen > 1, data := h.data.drop (j + 1),
        children := [next], value := none }
    else next
  let splitnode : Node V := { raxNewNode with data := (h.data.drop j).take 1, children := [suffix] }
  let splitnode := if j = 0 ∧ h.iskey then raxSetData splitnode (raxGetData h) else splitnode
  (splitnode, (if j = 0 then 0 else 1) + (if postfixlen ≠ 0 then 1 else 0))

/-- The node in front of a split node, with the key of the node that was split. -/
def trimNode (h : Node V) (j : Nat) (child : Node V) : Node V :=
  let trimmed : Node V :=
    { iskey := h.iskey, isnull := h.isnull, iscompr := j > 1, data := h.data.take j,
      children := [child], value := none }
  if h.iskey ∧ !h.isnull then raxSetData trimmed (raxGetData h) else trimmed

/-- The second algorithm: split a compressed node at the end of the new key. -/
def splitAtKey (h : Node V) (j : Nat) (data : Option V) : Node V :=
  let postfixlen := h.data.length - j
  let suffix : Node V := raxSetData
    { iskey := true, isnull := false, iscompr := postfixlen > 1, data := h.data.drop j,
      children := [raxNodeLastChild h], value := none } data
  let trimmed : Node V :=
    { iskey := false, isnull := false, iscompr := j > 1, data := h.data.take j,
      children := [suffix], value := none }
  if h.iskey then raxSetData trimmed (raxGetData h) else trimmed

/-- `raxGenericInsert`: the tree, the return value, and what is stored in `*old`
if anything is. -/
def raxGenericInsert (rax : Rax V) (s : Bytes) (data : Option V) (overwrite : Bool) :
    Rax V × Bool × Option (Option V) :=
  let w := raxLowWalk rax s
  let h := w.stop
  let j := w.splitpos
  if w.rest = [] ∧ (!h.iscompr ∨ j = 0) then
    if h.iskey then
      let h' := if overwrite then raxSetData h data else h
      ({ rax with head := plug w.stack h' }, false, some (raxGetData h))
    else
      ({ rax with head := plug w.stack (raxSetData h data), numele := rax.numele + 1 }, true, none)
  else if h.iscompr ∧ w.rest ≠ [] then
    let (splitnode, added) := splitNode h j
    let e := insertRest data (w.rest.length + 1) splitnode w.rest
    let h' := if j = 0 then e.node else trimNode h j e.node
    ({ head := plug w.stack h', numele := if e.waskey then rax.numele else rax.numele + 1,
       numnodes := rax.numnodes + added + e.nodes }, true, none)
  else if h.iscompr then
    ({ head := plug w.stack (splitAtKey h j data), numele := rax.numele + 1,
       numnodes := rax.numnodes + 1 }, true, none)
  else
    let e := insertRest data (w.rest.length + 1) h w.rest
    ({ head := plug w.stack e.node, numele := if e.waskey then rax.numele else rax.numele + 1,
       numnodes := rax.numnodes + e.nodes }, true, none)

def raxInsert (rax : Rax V) (s : Bytes) (data : Option V) : Rax V × Bool × Option (Option V) :=
  raxGenericInsert rax s data true

def raxTryInsert (rax : Rax V) (s : Bytes) (data : Option V) : Rax V × Bool × Option (Option V) :=
  raxGenericInsert rax s data false

/-- `none` is `raxNotFound`. -/
def raxFind (rax : Rax V) (s : Bytes) : Option (Option V) :=
  let w := raxLowWalk rax s
  if w.rest ≠ [] ∨ (w.stop.iscompr ∧ w.splitpos ≠ 0) ∨ !w.stop.iskey then none
  else some (raxGetData w.stop)

/-- Unlink the child at an index. -/
def raxRemoveChild (parent : Node V) (index : Nat) : Node V :=
  if parent.iscompr then
    let n := { parent with isnull := false, iscompr := false, data := [], children := [] }
    if parent.iskey then raxSetData n (raxGetData parent) else n
  else
    { parent with data := parent.data.eraseIdx index, children := parent.children.eraseIdx index }

/-- A key, or a node with more than one child: where chains of nodes end. -/
def endsChain (h : Node V) : Bool := h.iskey || (!h.iscompr && h.data.length != 1)

/-- The upward loop over the nodes that are no longer used: the frame whose child
is unlinked, with its parents, and the number of nodes that are freed. -/
def reclaim : List (Frame V) → Option (Frame V × List (Frame V)) × Nat
  | [] => (none, 0)
  | f :: stack =>
    if endsChain f.node ∨ stack.isEmpty then (some (f, stack), 1)
    else ((reclaim stack).1, (reclaim stack).2 + 1)

/-- Go up to the first node that can be compressed. -/
def seekStart : Node V → List (Frame V) → Node V × List (Frame V)
  | h, [] => (h, [])
  | h, f :: stack => if endsChain f.node then (h, f :: stack) else seekStart (f.link h) stack

/-- Measure the chain of nodes that can be compressed. -/
def scanChain : Node V → Nat → Nat → Nat × Nat
  | ⟨_, _, _, _, [h], _⟩, comprsize, nodes =>
    if endsChain h then (comprsize, nodes)
    else if comprsize + h.data.length > raxNodeMaxSize then (comprsize, nodes)
    else scanChain h (comprsize + h.data.length) (nodes + 1)
  | _, comprsize, nodes => (comprsize, nodes)

/-- Collect the bytes of the chain, the node behind it, and the number of nodes
that are freed. -/
def collectChain : Node V → Bytes × Node V × Nat
  | ⟨_, _, _, data, [h], _⟩ =>
    if endsChain h then (data, h, 1)
    else (data ++ (collectChain h).1, (collectChain h).2.1, (collectChain h).2.2 + 1)
  | h => ([], h, 0)

/-- The recompression at the end of `raxRemove`. The new node is as large as was
measured; the bytes are collected into it. -/
def recompress (h : Node V) (stack : List (Frame V)) (numele numnodes : Nat) : Rax V :=
  let (start, parents) := seekStart h stack
  let (comprsize, nodes) := scanChain start start.data.length 1
  if nodes > 1 then
    let (data, last, freed) := collectChain start
    let new : Node V :=
      { iskey := false, isnull := false, iscompr := true, data := data.take comprsize,
        children := [last], value := none }
    { head := plug parents new, numele, numnodes := numnodes + 1 - freed }
  else { head := plug parents start, numele, numnodes }

/-- `raxRemove`: the tree, the return value, and what is stored in `*old`. -/
def raxRemove (rax : Rax V) (s : Bytes) : Rax V × Bool × Option (Option V) :=
  let w := raxLowWalk rax s
  if w.rest ≠ [] ∨ (w.stop.iscompr ∧ w.splitpos ≠ 0) ∨ !w.stop.iskey then (rax, false, none)
  else
    let old := some (raxGetData w.stop)
    let h := { w.stop with iskey := false }
    let numele := rax.numele - 1
    if h.data = [] then
      match reclaim w.stack with
      | (none, _) => ({ rax with head := h, numele }, true, old)
      | (some (f, stack), freed) =>
        let new := raxRemoveChild f.node f.index
        if new.data.length = 1 ∧ !new.iskey then
          (recompress new stack numele (rax.numnodes - freed), true, old)
        else ({ head := plug stack new, numele, numnodes := rax.numnodes - freed }, true, old)
    else if h.data.length = 1 then (recompress h w.stack numele rax.numnodes, true, old)
    else ({ rax with head := plug w.stack h, numele }, true, old)

end Redis.RadixTree
