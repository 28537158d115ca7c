import CapTaint.Lib.LinkedTree
import Mathlib.Algebra.Order.Ring.Rat

/-! # DiscretePDF

The nodes are on a heap, and their numbers stand for the pointers to them; `none` is the null pointer. Weights are exact
rationals. There is no result where the code would use a null pointer or a node that has been deleted, where an assertion
fails, or when the steps of a loop are used up. -/

namespace CapTaint.Klee

open LinkedTree

structure DiscretePDF.Node (T : Type) extends Links where
  /-- `m_mark`: the node is red. -/
  mark : Bool
  key : T
  weight : ℚ
  sumWeights : ℚ

structure DiscretePDF (T : Type) where
  nodes : Nat → Option (DiscretePDF.Node T)
  m_root : Option Nat
  next : Nat

namespace DiscretePDF

variable {T : Type}

/-- `DiscretePDF()` -/
def empty : DiscretePDF T := ⟨fun _ => none, none, 0⟩

/-- A write to the fields of a node. -/
def modify (s : DiscretePDF T) (n : Nat) (f : Node T → Node T) : Option (DiscretePDF T) :=
  (s.nodes n).map fun c => { s with nodes := Function.update s.nodes n (some (f c)) }

def setLinks (s : DiscretePDF T) (n : Nat) (f : Links → Links) : Option (DiscretePDF T) :=
  s.modify n fun c => { c with toLinks := f c.toLinks }

/-! ### Nodes -/

def markRed (s : DiscretePDF T) (n : Nat) : Option (DiscretePDF T) := s.modify n fun c => { c with mark := true }

def markBlack (s : DiscretePDF T) (n : Nat) : Option (DiscretePDF T) := s.modify n fun c => { c with mark := false }

def isBlack (s : DiscretePDF T) (n : Nat) : Option Bool := (s.nodes n).map fun c => !c.mark

/-- `leftIsBlack` and `rightIsBlack`. -/
def childIsBlack (s : DiscretePDF T) (side : Side) (n : Nat) : Option Bool := do
  let c ← s.nodes n
  match c.child side with
  | none => return true
  | some child => s.isBlack child

def sumBelow (s : DiscretePDF T) : Option Nat → Option ℚ
  | none => some 0
  | some n => (s.nodes n).map Node.sumWeights

def setSum (s : DiscretePDF T) (n : Nat) : Option (DiscretePDF T) := do
  let c ← s.nodes n
  let left ← s.sumBelow c.left
  let right ← s.sumBelow c.right
  s.modify n fun c => { c with sumWeights := c.weight + left + right }

def sibling (s : DiscretePDF T) (n : Nat) : Option (Option Nat) := do
  let c ← s.nodes n
  let p ← c.parent
  let pc ← s.nodes p
  return if pc.left = some n then pc.right else pc.left

/-! ### Balance -/

/-- The branches of `rotate` for the child on a side of `p`. -/
def hang (s : DiscretePDF T) (side : Side) (n p : Nat) : Option (DiscretePDF T) := do
  let c ← s.nodes n
  let inner := c.child side.other
  let s ← s.setLinks p (·.setChild side inner)
  let s ← s.setLinks n (·.setChild side.other (some p))
  match inner with
  | none => return s
  | some child => s.setLinks child ({ · with parent := some p })

/-- The child `p` of `pp` is replaced. -/
def replaceChild (s : DiscretePDF T) (pp p : Nat) (n : Option Nat) : Option (DiscretePDF T) := do
  let c ← s.nodes pp
  if c.left = some p then s.setLinks pp (·.setChild .left n) else s.setLinks pp (·.setChild .right n)

/-- The pointers between `n`, its parent `p` and its inner child, and the two sums. -/
def turn (s : DiscretePDF T) (n p : Nat) : Option (DiscretePDF T) := do
  let pc ← s.nodes p
  let s ← s.setLinks n ({ · with parent := pc.parent })
  let s ← s.setLinks p ({ · with parent := some n })
  let s ← if pc.left = some n then s.hang .left n p else s.hang .right n p
  let s ← s.setSum n
  s.setSum p

def rotate (s : DiscretePDF T) (n : Nat) : Option (DiscretePDF T) := do
  let c ← s.nodes n
  let p ← c.parent
  let pc ← s.nodes p
  let s ← s.turn n p
  match pc.parent with
  | none => return { s with m_root := some n }
  | some pp => s.replaceChild pp p (some n)

def markChildBlack (s : DiscretePDF T) (side : Side) (n : Nat) : Option (DiscretePDF T) := do
  let c ← s.nodes n
  match c.child side with
  | none => return s
  | some child => s.markBlack child

/-- The parent `p` of `n` is red. -/
def splitBelowRed (s : DiscretePDF T) (n p : Nat) : Option (DiscretePDF T) := do
  let pc ← s.nodes p
  let pp ← pc.parent
  let s ← s.markRed pp
  let ppc ← s.nodes pp
  if (pc.left = some n ∧ ppc.left = some p) ∨ (pc.right = some n ∧ ppc.right = some p) then
    let s ← s.rotate p
    s.markBlack p
  else
    let s ← s.rotate n
    let s ← s.rotate n
    s.markBlack n

def split (s : DiscretePDF T) (n : Nat) : Option (DiscretePDF T) := do
  let s ← s.markChildBlack .left n
  let s ← s.markChildBlack .right n
  let c ← s.nodes n
  match c.parent with
  | none => return s
  | some p =>
    let s ← s.markRed n
    if ← s.isBlack p then return s else s.splitBelowRed n p

/-- The sibling of `n` is made black. -/
def blackSibling (s : DiscretePDF T) (n p : Nat) : Option (DiscretePDF T) := do
  match ← s.sibling n with
  | none => return s
  | some sibling =>
    if ← s.isBlack sibling then return s
    else
      let s ← s.markRed p
      let s ← s.markBlack sibling
      s.rotate sibling

/-- The near child of the sibling, which is red, takes the sibling's place. -/
def turnSibling (s : DiscretePDF T) (side : Side) (sibling : Nat) : Option (DiscretePDF T × Nat) := do
  let c ← s.nodes sibling
  let near ← c.child side
  let s ← s.rotate near
  let s ← s.markRed sibling
  let c ← s.nodes sibling
  let above ← c.parent
  let s ← s.markBlack above
  return (s, above)

/-- The rotation at the end of `lengthen`. The far child of the sibling is red. -/
def raiseSibling (s : DiscretePDF T) (n sibling : Nat) : Option (DiscretePDF T) := do
  let s ← s.rotate sibling
  let c ← s.nodes n
  let p ← c.parent
  let s ← if ← s.isBlack p then some s else s.markRed sibling
  let c ← s.nodes sibling
  let left ← c.left
  let s ← s.markBlack left
  let c ← s.nodes sibling
  let right ← c.right
  s.markBlack right

/-- `lengthen` with a black sibling. It goes on with `up`. -/
def lengthenBy (up : DiscretePDF T → Nat → Option (DiscretePDF T)) (s : DiscretePDF T) (n : Nat) : Option (DiscretePDF T) := do
  let c ← s.nodes n
  let p ← c.parent
  match ← s.sibling n with
  | none => up s p
  | some sibling =>
    let leftIsBlack ← s.childIsBlack .left sibling
    let rightIsBlack ← s.childIsBlack .right sibling
    if leftIsBlack && rightIsBlack then
      if ← s.isBlack p then
        let s ← s.markRed sibling
        up s p
      else
        let s ← s.markRed sibling
        s.markBlack p
    else
      let pc ← s.nodes p
      let (s, sibling) ←
        if pc.left = some n ∧ rightIsBlack = true then s.turnSibling .left sibling
        else if pc.right = some n ∧ leftIsBlack = true then s.turnSibling .right sibling
        else some (s, sibling)
      s.raiseSibling n sibling

def lengthen : Nat → DiscretePDF T → Nat → Option (DiscretePDF T)
  | 0, _, _ => none
  | fuel + 1, s, n => do
    if ← s.isBlack n then
      let c ← s.nodes n
      match c.parent with
      | none => return s
      | some p =>
        let s ← s.blackSibling n p
        s.lengthenBy (lengthen fuel) n
    else s.markBlack n

def propogateSumsUp : Nat → DiscretePDF T → Option Nat → Option (DiscretePDF T)
  | _, s, none => some s
  | 0, _, some _ => none
  | fuel + 1, s, some n => do
    let s ← s.setSum n
    let c ← s.nodes n
    propogateSumsUp fuel s c.parent

/-! ### Items -/

/-- A pointer to a pointer of the tree. -/
inductive Place
  | root
  | child (side : Side) (n : Nat)

/-- `*np` -/
def read (s : DiscretePDF T) : Place → Option (Option Nat)
  | .root => some s.m_root
  | .child side n => (s.nodes n).map fun c => c.child side

/-- `*np = p` -/
def write (s : DiscretePDF T) (place : Place) (p : Option Nat) : Option (DiscretePDF T) :=
  match place with
  | .root => some { s with m_root := p }
  | .child side n => s.setLinks n (·.setChild side p)

/-- The loop to the node with the greatest key below a place. -/
def leftMax : Nat → DiscretePDF T → Place → Option Place
  | 0, _, _ => none
  | fuel + 1, s, place => do
    let n ← (← s.read place)
    let c ← s.nodes n
    if c.right.isSome then leftMax fuel s (.child .right n) else return place

/-- `delete n`, without the subtrees. -/
def free (s : DiscretePDF T) (n : Nat) : DiscretePDF T := { s with nodes := Function.update s.nodes n none }

section
variable [LinearOrder T]

def lookup (item : T) : Nat → DiscretePDF T → Place → Option Place
  | 0, _, _ => none
  | fuel + 1, s, np => do
    match ← s.read np with
    | none => return np
    | some n =>
      let c ← s.nodes n
      if c.key = item then return np
      else lookup item fuel s (.child (if item < c.key then .left else .right) n)

/-- The loop of `insert`, from the node `n` below `p`. -/
def descend (item : T) : Nat → DiscretePDF T → Option Nat → Option Nat → Option (DiscretePDF T × Option Nat)
  | _, s, p, none => some (s, p)
  | 0, _, _, some _ => none
  | fuel + 1, s, _, some n => do
    let leftIsBlack ← s.childIsBlack .left n
    let rightIsBlack ← s.childIsBlack .right n
    let s ← if !leftIsBlack && !rightIsBlack then s.split n else some s
    let c ← s.nodes n
    if c.key = item then none
    else descend item fuel s (some n) (c.child (if item < c.key then .left else .right))

/-- `new Node` -/
def new (s : DiscretePDF T) (item : T) (weight : ℚ) (parent : Option Nat) : DiscretePDF T :=
  ⟨Function.update s.nodes s.next (some ⟨⟨parent, none, none⟩, false, item, weight, 0⟩), s.m_root, s.next + 1⟩

def insert (s : DiscretePDF T) (item : T) (weight : ℚ) : Option (DiscretePDF T) := do
  let (s, p) ← s.descend item ((s.next + 1) * (s.next + 1)) none s.m_root
  let n := s.next
  let s := s.new item weight p
  let s ← match p with
    | none => some { s with m_root := some n }
    | some p => do
      let pc ← s.nodes p
      let s ← s.setLinks p (·.setChild (if item < pc.key then .left else .right) (some n))
      s.split n
  s.propogateSumsUp (s.next + 1) (some n)

/-- The greatest item of the left subtree takes the place of the one that is removed. -/
def replaceItem (s : DiscretePDF T) (np : Place) (n : Nat) : Option (DiscretePDF T × Place × Nat) := do
  let c ← s.nodes n
  match c.left with
  | none => return (s, np, n)
  | some _ =>
    let leftMaxp ← s.leftMax (s.next + 1) (.child .left n)
    let m ← (← s.read leftMaxp)
    let mc ← s.nodes m
    let s ← s.modify n fun c => { c with key := mc.key, weight := mc.weight }
    return (s, leftMaxp, m)

/-- The end of `remove`: the node `n` at a place has at most one child. -/
def cut (s : DiscretePDF T) (np : Place) (n : Nat) : Option (DiscretePDF T) := do
  let c ← s.nodes n
  let child := if c.left.isSome then c.left else c.right
  let s ← s.write np child
  let s ← match child with
    | none => some s
    | some child => do
      let s ← s.setLinks child ({ · with parent := c.parent })
      if ← s.isBlack n then s.lengthen (s.next + 1) child else some s
  let c ← s.nodes n
  let s ← s.propogateSumsUp (s.next + 1) c.parent
  return s.free n

def remove (s : DiscretePDF T) (item : T) : Option (DiscretePDF T) := do
  let np ← s.lookup item (s.next + 1) .root
  let n ← (← s.read np)
  let (s, np, n) ← s.replaceItem np n
  s.cut np n

def update (s : DiscretePDF T) (item : T) (weight : ℚ) : Option (DiscretePDF T) := do
  let np ← s.lookup item (s.next + 1) .root
  let n ← (← s.read np)
  let s ← s.modify n fun c => { c with weight := weight }
  s.propogateSumsUp (s.next + 1) (some n)

/-- The loop of `choose`. -/
def walk : Nat → DiscretePDF T → ℚ → Nat → Option T
  | 0, _, _, _ => none
  | fuel + 1, s, w, n => do
    let c ← s.nodes n
    let left ← s.sumBelow c.left
    if c.left.isSome ∧ w < left then
      let l ← c.left
      walk fuel s w l
    else
      let w := w - left
      match c.right with
      | none => return c.key
      | some r => if w < c.weight then return c.key else walk fuel s (w - c.weight) r

def choose (s : DiscretePDF T) (p : ℚ) : Option T := do
  if p < 0 ∨ 1 ≤ p then none
  else
    let n ← s.m_root
    let c ← s.nodes n
    walk (s.next + 1) s (c.sumWeights * p) n

def inTree (s : DiscretePDF T) (item : T) : Option Bool := do
  let np ← s.lookup item (s.next + 1) .root
  return (← s.read np).isSome

def getWeight (s : DiscretePDF T) (item : T) : Option ℚ := do
  let np ← s.lookup item (s.next + 1) .root
  let n ← (← s.read np)
  let c ← s.nodes n
  return c.weight

end

/-! ### Runs -/

inductive Command (T : Type)
  | insert (item : T) (weight : ℚ)
  | update (item : T) (weight : ℚ)
  | remove (item : T)

def exec [LinearOrder T] (s : DiscretePDF T) : Command T → Option (DiscretePDF T)
  | .insert item weight => s.insert item weight
  | .update item weight => s.update item weight
  | .remove item => s.remove item

def run [LinearOrder T] (commands : List (Command T)) : Option (DiscretePDF T) := commands.foldlM exec empty

end DiscretePDF

end CapTaint.Klee
