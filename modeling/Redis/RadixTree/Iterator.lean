import Redis.RadixTree.Walk

/-! The iterator of `rax.c`. It stands at a node, with the stack of the parents of that node
and the key that the path to it spells. That the node is the head is that the stack is
empty. No allocation fails, and there is no node callback. -/
namespace Redis.RadixTree

open ByteBuffer

variable {V : Type}

/-- The key, node and stack of an iterator, which are put back together at the end of the tree. -/
structure Cursor (V : Type) where
  key : Bytes
  node : Node V
  stack : List (Frame V)

/-- `raxIterator`, with its two flags. -/
structure Iterator (V : Type) where
  eof : Bool
  justSeeked : Bool
  data : Option V
  cur : Cursor V

def raxStart : Iterator V := ⟨true, false, none, ⟨[], raxNewNode, []⟩⟩

/-- Push the node and go to one of its children over an edge with some bytes. -/
def Cursor.enter (c : Cursor V) (bytes : Bytes) (i : Nat) : Cursor V :=
  ⟨c.key ++ bytes, c.node.children.getD i raxNewNode, ⟨c.node, i⟩ :: c.stack⟩

/-- Back at a node, without the bytes of its edge. -/
def backAt (key : Bytes) (node : Node V) (stack : List (Frame V)) : Cursor V :=
  let todel := if node.iscompr then node.data.length else 1
  ⟨key.take (key.length - todel), node, stack⟩

/-- The scan for the child behind `prevchild`. With one child, it is where the iterator came
from, unless `noup` says that it did not come from below. -/
def Cursor.nextChild (c : Cursor V) (noup : Bool) (prevchild : UInt8) : Option (Cursor V) :=
  if c.node.iscompr = false ∧ c.node.data.length > (if noup then 0 else 1) then
    let i := c.node.data.findIdx (fun b => b > prevchild)
    if i ≠ c.node.data.length then some (c.enter ((c.node.data.drop i).take 1) i) else none
  else none

/-- The inner loop of `raxIteratorNextStep`: up to the first parent with a further child. -/
def nextUp : Bytes → List (Frame V) → Option (Cursor V)
  | _, [] => none
  | key, f :: stack =>
    let c := backAt key f.node stack
    match c.nextChild false (key.getLastD 0) with
    | some d => some d
    | none => nextUp c.key stack

/-- The inner loop, whose first round stays at the node if `noup` is set. -/
def nextBranch (noup : Bool) (c : Cursor V) : Option (Cursor V) :=
  if noup then
    let b := backAt c.key c.node c.stack
    match b.nextChild true (c.key.getLastD 0) with
    | some d => some d
    | none => nextUp b.key c.stack
  else nextUp c.key c.stack

def numChildren (n : Node V) : Nat := if n.iscompr then 1 else n.data.length

/-- One step of the outer loop: to the first child, or to the next branch. -/
def nextNode (noup : Bool) (c : Cursor V) : Option (Cursor V) :=
  if noup = false ∧ numChildren c.node ≠ 0 then
    some (c.enter (c.node.data.take (if c.node.iscompr then c.node.data.length else 1)) 0)
  else nextBranch noup c

/-- The outer loop of `raxIteratorNextStep`: every round enters another node. -/
def nextLoop : Nat → Bool → Cursor V → Option (Cursor V)
  | 0, _, _ => none
  | fuel + 1, noup, c =>
    match nextNode noup c with
    | none => none
    | some d => if d.node.iskey then some d else nextLoop fuel false d

/-- Down along the last children. -/
def raxSeekGreatest : Nat → Cursor V → Cursor V
  | 0, c => c
  | fuel + 1, c =>
    if c.node.data.length = 0 then c
    else if c.node.iscompr then raxSeekGreatest fuel (c.enter c.node.data 0)
    else
      let i := c.node.data.length - 1
      raxSeekGreatest fuel (c.enter ((c.node.data.drop i).take 1) i)

/-- The scan for the child in front of `prevchild`, down to the greatest key behind it. -/
def Cursor.prevChild (c : Cursor V) (fuel : Nat) (noup : Bool) (prevchild : UInt8) : Cursor V :=
  if c.node.iscompr = false ∧ c.node.data.length > (if noup then 0 else 1) then
    let seen := c.node.data.reverse.findIdx (fun b => b < prevchild)
    if seen ≠ c.node.data.length then
      let i := c.node.data.length - 1 - seen
      raxSeekGreatest fuel (c.enter ((c.node.data.drop i).take 1) i)
    else c
  else c

/-- The node where a round of `raxIteratorPrevStep` looks for a child. -/
def prevNode (noup : Bool) (c : Cursor V) : Option (Cursor V) :=
  if noup then some (backAt c.key c.node c.stack)
  else
    match c.stack with
    | [] => none
    | f :: stack => some (backAt c.key f.node stack)

def prevLoop (size : Nat) : Nat → Bool → Cursor V → Option (Cursor V)
  | 0, _, _ => none
  | fuel + 1, noup, c =>
    match prevNode noup c with
    | none => none
    | some b =>
      let d := b.prevChild size noup (c.key.getLastD 0)
      if d.node.iskey then some d else prevLoop size fuel false d

/-- Stop at the node that was found, or at the end of the tree. -/
def Iterator.arrive (it : Iterator V) : Option (Cursor V) → Iterator V
  | none => { it with eof := true }
  | some c => { it with cur := c, data := raxGetData c.node }

def raxIteratorNextStep (rax : Rax V) (it : Iterator V) (noup : Bool) : Iterator V :=
  if it.eof then it
  else if it.justSeeked then { it with justSeeked := false }
  else it.arrive (nextLoop (rax.numnodes + 1) noup it.cur)

def raxIteratorPrevStep (rax : Rax V) (it : Iterator V) (noup : Bool) : Iterator V :=
  if it.eof then it
  else if it.justSeeked then { it with justSeeked := false }
  else it.arrive (prevLoop (rax.numnodes + 1) (rax.numnodes + 1) noup it.cur)

/-- The key of the node where a walk stopped, from the stack of its parents. -/
def spell : List (Frame V) → Bytes
  | [] => []
  | f :: stack =>
    spell stack ++ (if f.node.iscompr then f.node.data else (f.node.data.drop f.index).take 1)

/-- The step at the end of a seek. -/
def seekStep (rax : Rax V) (it : Iterator V) (lt gt noup : Bool) (c : Cursor V) : Iterator V :=
  let it := { it with justSeeked := false, cur := c }
  let it := if lt then raxIteratorPrevStep rax it noup else it
  if gt then raxIteratorNextStep rax it noup else it

/-- The search for a key that is not there, or not wanted, from where the walk stopped. -/
def seekAround (rax : Rax V) (it : Iterator V) (lt gt : Bool) (w : Walk V) : Iterator V :=
  let c : Cursor V := ⟨spell w.stack, w.stop, w.stack⟩
  let past : Cursor V := ⟨spell w.stack ++ w.stop.data, w.stop, w.stack⟩
  match w.rest with
  | keychar :: _ =>
    if w.stop.iscompr = false then
      seekStep rax it lt gt true ⟨spell w.stack ++ [keychar], w.stop, w.stack⟩
    else
      let nodechar := w.stop.data.getD w.splitpos 0
      let it :=
        if gt then
          if nodechar > keychar then seekStep rax it false true false c
          else seekStep rax it false true true past
        else it
      if lt then
        if nodechar < keychar then it.arrive (some (raxSeekGreatest (rax.numnodes + 1) c))
        else seekStep rax it true false true past
      else it
  | [] =>
    if w.stop.iscompr ∧ w.stop.iskey ∧ w.splitpos ≠ 0 ∧ lt then it.arrive (some c)
    else seekStep rax it lt gt false c

/-- The part of `raxSeek` that looks for a given key. -/
def seekKey (rax : Rax V) (it : Iterator V) (eq lt gt : Bool) (ele : Bytes) : Iterator V :=
  let w := raxLowWalk rax ele
  if eq ∧ w.rest = [] ∧ (w.stop.iscompr = false ∨ w.splitpos = 0) ∧ w.stop.iskey then
    it.arrive (some ⟨ele, w.stop, w.stack⟩)
  else if lt ∨ gt then { seekAround rax it lt gt w with justSeeked := true }
  else { it with eof := true }

/-- The operators `>`, `>=`, `<`, `<=`, `=`, `^` and `$`. -/
inductive SeekOp where
  | gt
  | ge
  | lt
  | le
  | eq
  | first
  | last
  deriving DecidableEq

def raxSeek (rax : Rax V) (it : Iterator V) (op : SeekOp) (ele : Bytes) : Iterator V :=
  let it : Iterator V :=
    { it with eof := false, justSeeked := true, cur := ⟨[], raxNewNode, []⟩ }
  if rax.numele = 0 then { it with eof := true }
  else
    match op with
    | .gt => seekKey rax it false false true ele
    | .ge => seekKey rax it true false true ele
    | .lt => seekKey rax it false true false ele
    | .le => seekKey rax it true true false ele
    | .eq => seekKey rax it true false false ele
    | .first => seekKey rax it true false true []
    | .last => it.arrive (some (raxSeekGreatest (rax.numnodes + 1) ⟨[], rax.head, []⟩))

/-- The iterator after the call, and its return value. -/
def raxNext (rax : Rax V) (it : Iterator V) : Iterator V × Bool :=
  let it := raxIteratorNextStep rax it false
  (it, !it.eof)

def raxPrev (rax : Rax V) (it : Iterator V) : Iterator V × Bool :=
  let it := raxIteratorPrevStep rax it false
  (it, !it.eof)

end Redis.RadixTree
