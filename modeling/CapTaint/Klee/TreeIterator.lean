import CapTaint.Klee.ImmutableTree

/-! # ImmutableTree::iterator

An iterator has the path from its root to a node on a stack. Its reference to the root is that of a copy of the tree.
There is no result where the code would write past the end of the stack, too. -/

namespace CapTaint.Klee.ImmutableTree

variable {K V : Type}

/-- The elements have the last one first. There are `max` places for them. -/
structure FixedStack (T : Type) where
  max : Nat
  elts : List T

def FixedStack.push_back {T : Type} (s : FixedStack T) (elt : T) : Option (FixedStack T) :=
  if s.elts.length < s.max then some { s with elts := elt :: s.elts } else none

structure Iterator where
  root : Nat
  stack : FixedStack Nat

/-- The loops that push a node and then go on to its `side`. -/
def pushAll (side : Node V → Nat) : Nat → NodeHeap V → FixedStack Nat → Nat → Option (FixedStack Nat)
  | 0, _, _, _ => none
  | n + 1, h, stack, p => do
    if p = terminator then return stack
    else
      let stack ← stack.push_back p
      let c ← node h p
      pushAll side n h stack (side c)

/-- The loops that pop a node until the one below has it at its `side`. The list is the stack without `prev`. -/
def climb (side : Node V → Nat) (h : NodeHeap V) (prev : Nat) : List Nat → Option (List Nat)
  | [] => some []
  | n :: below => do
    let c ← node h n
    if prev = side c then return n :: below else climb side h n below

namespace Iterator

/-- The constructor. -/
def new (h : NodeHeap V) (root : Nat) (atBeginning : Bool) : Option Iterator := do
  let r ← node h root
  let stack : FixedStack Nat := ⟨r.height, []⟩
  if atBeginning then return ⟨root, ← pushAll Node.left (root + 1) h stack root⟩ else return ⟨root, stack⟩

/-- `operator*` -/
def deref (h : NodeHeap V) (it : Iterator) : Option V := do
  let n ← it.stack.elts.head?
  let c ← node h n
  return c.value

/-- `operator==`, for iterators of one tree. -/
def eq (a b : Iterator) : Bool := a.stack.elts == b.stack.elts

/-- `operator--` -/
def decr (h : NodeHeap V) (it : Iterator) : Option Iterator := do
  match it.stack.elts with
  | [] => return { it with stack := ← pushAll Node.right (it.root + 1) h it.stack it.root }
  | n :: below =>
    let c ← node h n
    if c.left = terminator then return { it with stack := ⟨it.stack.max, ← climb Node.right h n below⟩ }
    else
      let stack ← it.stack.push_back c.left
      let l ← node h c.left
      return { it with stack := ← pushAll Node.right (c.left + 1) h stack l.right }

/-- `operator++` -/
def incr (h : NodeHeap V) (it : Iterator) : Option Iterator := do
  match it.stack.elts with
  | [] => none
  | n :: below =>
    let c ← node h n
    if c.right = terminator then return { it with stack := ⟨it.stack.max, ← climb Node.left h n below⟩ }
    else
      let stack ← it.stack.push_back c.right
      let r ← node h c.right
      return { it with stack := ← pushAll Node.left (c.right + 1) h stack r.left }

end Iterator

def Root.begin (h : NodeHeap V) (p : Nat) : Option Iterator := Iterator.new h p true

def Root.end (h : NodeHeap V) (p : Nat) : Option Iterator := Iterator.new h p false

section
variable [LinearOrder K] (key : V → K)

/-- The loop of `lower_bound`. It also says if the loop has returned. -/
def descend (k : K) : Nat → NodeHeap V → FixedStack Nat → Nat → Option (FixedStack Nat × Bool)
  | 0, _, _, _ => none
  | n + 1, h, stack, p => do
    if p = terminator then return (stack, false)
    else
      let stack ← stack.push_back p
      let c ← node h p
      if k < key c.value then descend k n h stack c.left
      else if key c.value < k then descend k n h stack c.right
      else return (stack, true)

def Root.lower_bound (h : NodeHeap V) (p : Nat) (k : K) : Option Iterator := do
  let it ← Iterator.new h p false
  let (stack, returned) ← descend key k (p + 1) h it.stack p
  let it := { it with stack }
  if returned then return it
  else
    match stack.elts with
    | [] => return it
    | last :: _ =>
      let c ← node h last
      if key c.value < k then it.incr h else return it

def Root.find (h : NodeHeap V) (p : Nat) (k : K) : Option Iterator := do
  let last ← Root.end h p
  let it ← Root.lower_bound key h p k
  if it.eq last then return last
  else
    let value ← it.deref h
    if k < key value then return last else return it

def Root.upper_bound (h : NodeHeap V) (p : Nat) (k : K) : Option Iterator := do
  let last ← Root.end h p
  let it ← Root.lower_bound key h p k
  if it.eq last then return it
  else
    let value ← it.deref h
    if k < key value then return it else it.incr h

end

end CapTaint.Klee.ImmutableTree
