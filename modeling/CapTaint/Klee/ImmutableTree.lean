import CapTaint.Lib.HeightTree
import CapTaint.Lib.RefCount

/-! # ImmutableTree

The nodes are on a heap, and their numbers stand for the pointers to them. There is no result where the code would use a
node that has been freed, where an assertion fails, or when the steps of a loop are used up. -/

namespace CapTaint.Klee.ImmutableTree

open RefCount

variable {K V : Type}

structure Node (V : Type) where
  left : Nat
  right : Nat
  value : V
  height : Nat

/-- The references that a node has. -/
def Node.kids (n : Node V) : List Nat := [n.left, n.right]

abbrev NodeHeap (V : Type) := Heap (Node V)

/-- The address of `Node::terminator`. -/
def terminator : Nat := 0

/-- The heap with the terminator, which refers to itself. -/
def initial [Inhabited V] : NodeHeap V := ⟨fun p => if p = terminator then some ⟨⟨terminator, terminator, default, 0⟩, 3⟩ else none, 1⟩

def node (h : NodeHeap V) (p : Nat) : Option (Node V) := (h.cell p).map Cell.data

/-- `new Node`. The references to the subtrees are the new node's from now on. -/
def new (h : NodeHeap V) (left right : Nat) (value : V) : Option (NodeHeap V × Nat) := do
  let l ← node h left
  let r ← node h right
  return (h.alloc ⟨left, right, value, max l.height r.height + 1⟩, h.next)

def decref (h : NodeHeap V) (p : Nat) : Option (NodeHeap V) := h.decref Node.kids (p + 1) p

/-! ### Nodes -/

/-- The first branch of `balance`. -/
def balanceLeft (h : NodeHeap V) (left : Nat) (value : V) (right : Nat) (l : Node V) : Option (NodeHeap V × Nat) := do
  let ll ← node h l.left
  let lr ← node h l.right
  if lr.height ≤ ll.height then
    let h ← h.incref l.right
    let (h, nlr) ← new h l.right right value
    let h ← h.incref l.left
    let (h, res) ← new h l.left nlr l.value
    let h ← decref h left
    return (h, res)
  else
    let h ← h.incref l.left
    let h ← h.incref lr.left
    let (h, nll) ← new h l.left lr.left l.value
    let h ← h.incref lr.right
    let (h, nlr) ← new h lr.right right value
    let (h, res) ← new h nll nlr lr.value
    let h ← decref h left
    return (h, res)

/-- The second branch of `balance`. -/
def balanceRight (h : NodeHeap V) (left : Nat) (value : V) (right : Nat) (r : Node V) : Option (NodeHeap V × Nat) := do
  let rl ← node h r.left
  let rr ← node h r.right
  if rl.height ≤ rr.height then
    let h ← h.incref r.left
    let (h, nrl) ← new h left r.left value
    let h ← h.incref r.right
    let (h, res) ← new h nrl r.right r.value
    let h ← decref h right
    return (h, res)
  else
    let h ← h.incref rl.left
    let (h, nrl) ← new h left rl.left value
    let h ← h.incref rl.right
    let h ← h.incref r.right
    let (h, nrr) ← new h rl.right r.right r.value
    let (h, res) ← new h nrl nrr rl.value
    let h ← decref h right
    return (h, res)

def balance (h : NodeHeap V) (left : Nat) (value : V) (right : Nat) : Option (NodeHeap V × Nat) := do
  let l ← node h left
  let r ← node h right
  if r.height + 2 < l.height then balanceLeft h left value right l
  else if l.height + 2 < r.height then balanceRight h left value right r
  else new h left right value

/-- `Node::popMin`, with `valueOut`. The arguments of a call are evaluated from left to right, here and below. -/
def Node.popMin : Nat → NodeHeap V → Nat → Option (NodeHeap V × Nat × V)
  | 0, _, _ => none
  | n + 1, h, p => do
    let c ← node h p
    if c.left = terminator then
      let h ← h.incref c.right
      return (h, c.right, c.value)
    else
      let (h, left, valueOut) ← popMin n h c.left
      let h ← h.incref c.right
      let (h, res) ← balance h left c.value c.right
      return (h, res, valueOut)

def Node.popMax : Nat → NodeHeap V → Nat → Option (NodeHeap V × Nat × V)
  | 0, _, _ => none
  | n + 1, h, p => do
    let c ← node h p
    if c.right = terminator then
      let h ← h.incref c.left
      return (h, c.left, c.value)
    else
      let h ← h.incref c.left
      let (h, right, valueOut) ← popMax n h c.right
      let (h, res) ← balance h c.left c.value right
      return (h, res, valueOut)

section
variable [LinearOrder K] (key : V → K)

/-- A node between two terminators. -/
def leaf (h : NodeHeap V) (v : V) : Option (NodeHeap V × Nat) := do
  let h ← h.incref terminator
  let h ← h.incref terminator
  new h terminator terminator v

def Node.insert (v : V) : Nat → NodeHeap V → Nat → Option (NodeHeap V × Nat)
  | 0, _, _ => none
  | n + 1, h, p => do
    if p = terminator then leaf h v
    else
      let c ← node h p
      if key v < key c.value then
        let (h, left) ← insert v n h c.left
        let h ← h.incref c.right
        balance h left c.value c.right
      else if key c.value < key v then
        let h ← h.incref c.left
        let (h, right) ← insert v n h c.right
        balance h c.left c.value right
      else
        let h ← h.incref p
        return (h, p)

def Node.replace (v : V) : Nat → NodeHeap V → Nat → Option (NodeHeap V × Nat)
  | 0, _, _ => none
  | n + 1, h, p => do
    if p = terminator then leaf h v
    else
      let c ← node h p
      if key v < key c.value then
        let (h, left) ← replace v n h c.left
        let h ← h.incref c.right
        balance h left c.value c.right
      else if key c.value < key v then
        let h ← h.incref c.left
        let (h, right) ← replace v n h c.right
        balance h c.left c.value right
      else
        let h ← h.incref c.left
        let h ← h.incref c.right
        new h c.left c.right v

/-- The last branch of `remove`. -/
def removeRoot (h : NodeHeap V) (left right : Nat) : Option (NodeHeap V × Nat) := do
  if left = terminator then
    let h ← h.incref right
    return (h, right)
  else if right = terminator then
    let h ← h.incref left
    return (h, left)
  else
    let (h, nr, min) ← Node.popMin (right + 1) h right
    let h ← h.incref left
    balance h left min nr

def Node.remove (k : K) : Nat → NodeHeap V → Nat → Option (NodeHeap V × Nat)
  | 0, _, _ => none
  | n + 1, h, p => do
    if p = terminator then
      let h ← h.incref p
      return (h, p)
    else
      let c ← node h p
      if k < key c.value then
        let (h, left) ← remove k n h c.left
        let h ← h.incref c.right
        balance h left c.value c.right
      else if key c.value < k then
        let h ← h.incref c.left
        let (h, right) ← remove k n h c.right
        balance h c.left c.value right
      else removeRoot h c.left c.right

/-! ### Questions -/

/-- The loop of `count` and `lookup`. -/
def find (k : K) : Nat → NodeHeap V → Nat → Option (Option V)
  | 0, _, _ => none
  | n + 1, h, p => do
    if p = terminator then return none
    else
      let c ← node h p
      if k < key c.value then find k n h c.left
      else if key c.value < k then find k n h c.right
      else return some c.value

/-- The loop of `lookup_previous`. -/
def findPrevious (k : K) : Nat → NodeHeap V → Nat → Option V → Option (Option V)
  | 0, _, _, _ => none
  | n + 1, h, p, result => do
    if p = terminator then return result
    else
      let c ← node h p
      if k < key c.value then findPrevious k n h c.left result
      else if key c.value < k then findPrevious k n h c.right (some c.value)
      else return some c.value

def Root.count (h : NodeHeap V) (p : Nat) (k : K) : Option Nat := do
  let found ← find key k (p + 1) h p
  return if found.isSome then 1 else 0

def Root.lookup (h : NodeHeap V) (p : Nat) (k : K) : Option (Option V) := find key k (p + 1) h p

def Root.lookup_previous (h : NodeHeap V) (p : Nat) (k : K) : Option (Option V) := findPrevious key k (p + 1) h p none

end

/-- The loop of `min`. -/
def leftmost : Nat → NodeHeap V → Nat → Option V
  | 0, _, _ => none
  | n + 1, h, p => do
    let c ← node h p
    if c.left = terminator then return c.value else leftmost n h c.left

/-- The loop of `max`. -/
def rightmost : Nat → NodeHeap V → Nat → Option V
  | 0, _, _ => none
  | n + 1, h, p => do
    let c ← node h p
    if c.right = terminator then return c.value else rightmost n h c.right

def Root.min (h : NodeHeap V) (p : Nat) : Option V := if p = terminator then none else leftmost (p + 1) h p

def Root.max (h : NodeHeap V) (p : Nat) : Option V := if p = terminator then none else rightmost (p + 1) h p

def Node.size : Nat → NodeHeap V → Nat → Option Nat
  | 0, _, _ => none
  | n + 1, h, p => do
    if p = terminator then return 0
    else
      let c ← node h p
      return (← size n h c.left) + 1 + (← size n h c.right)

def Root.size (h : NodeHeap V) (p : Nat) : Option Nat := Node.size (p + 1) h p

/-! ### Trees -/

/-- The heap, the roots of the trees that there are, and the values that came out of `popMin` and `popMax`. -/
structure State (V : Type) where
  heap : NodeHeap V
  trees : List Nat
  out : List V

/-- An operation on one of the trees. The result of the first six is a new tree. -/
inductive Command (K V : Type)
  | insert (value : V)
  | replace (value : V)
  | remove (key : K)
  | popMin
  | popMax
  | copy
  | destroy

/-- The empty tree has a reference to the terminator. -/
def start [Inhabited V] : Option (State V) := do
  let h ← (initial : NodeHeap V).incref terminator
  return ⟨h, [terminator], []⟩

section
variable [LinearOrder K] (key : V → K)

/-- The result is added to the trees. -/
def State.add (s : State V) (result : Option (NodeHeap V × Nat)) : Option (State V) :=
  result.map fun (h, p) => { s with heap := h, trees := s.trees ++ [p] }

/-- The result is added to the trees, with the value that has come out. -/
def State.addOut (s : State V) (result : Option (NodeHeap V × Nat × V)) : Option (State V) :=
  result.map fun (h, p, valueOut) => ⟨h, s.trees ++ [p], s.out ++ [valueOut]⟩

def exec (s : State V) (i : Nat) (command : Command K V) : Option (State V) :=
  match s.trees[i]? with
  | none => some s
  | some p =>
    match command with
    | .insert value => s.add (Node.insert key value (p + 1) s.heap p)
    | .replace value => s.add (Node.replace key value (p + 1) s.heap p)
    | .remove k => s.add (Node.remove key k (p + 1) s.heap p)
    | .popMin => s.addOut (Node.popMin (p + 1) s.heap p)
    | .popMax => s.addOut (Node.popMax (p + 1) s.heap p)
    | .copy => s.add ((s.heap.incref p).map fun h => (h, p))
    | .destroy => (decref s.heap p).map fun h => { s with heap := h, trees := s.trees.eraseIdx i }

/-- Commands in their order, each for the tree at a place. What is for no tree does nothing. -/
def run [Inhabited V] (commands : List (Nat × Command K V)) : Option (State V) := do
  commands.foldlM (fun s command => exec key s command.1 command.2) (← start)

end

end CapTaint.Klee.ImmutableTree
