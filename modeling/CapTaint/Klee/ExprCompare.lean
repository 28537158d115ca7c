import Mathlib.Logic.Function.Basic

/-! # Comparison of expressions

Expressions, update nodes and arrays are objects on a heap that share each other, and numbers stand for their addresses.
Hashes are `unsigned`; the sizes of update lists are exact. `compare` returns -1, 0 or 1 as an `Ordering`. There is no
result where an object is missing, the assertion about the two ends of the update lists fails, or the steps are used up. -/

namespace CapTaint.Klee.ExprCompare

inductive CastKind
  | zext | sext

inductive BinaryKind
  | add | sub | mul | udiv | sdiv | urem | srem
  | and | or | xor | shl | lshr | ashr
  | eq | ne | ult | ule | ugt | uge | slt | sle | sgt | sge

/-- The value of the enumeration. -/
def CastKind.value : CastKind → Nat
  | zext => 7
  | sext => 8

/-- The value of the enumeration. -/
def BinaryKind.value : BinaryKind → Nat
  | add => 9 | sub => 10 | mul => 11 | udiv => 12 | sdiv => 13 | urem => 14 | srem => 15
  | and => 17 | or => 18 | xor => 19 | shl => 20 | lshr => 21 | ashr => 22
  | eq => 23 | ne => 24 | ult => 25 | ule => 26 | ugt => 27 | uge => 28 | slt => 29 | sle => 30 | sgt => 31 | sge => 32

structure UpdateList where
  root : Nat
  head : Option Nat

/-- The classes of expressions, with the addresses of the expressions that they refer to. -/
inductive Body
  | constant (width : Nat) (value : BitVec width)
  | notOptimized (src : Nat)
  | read (updates : UpdateList) (index : Nat)
  | select (cond trueExpr falseExpr : Nat)
  | concat (left right : Nat)
  | extract (expr offset width : Nat)
  | cast (kind : CastKind) (src width : Nat)
  | not (expr : Nat)
  | binary (kind : BinaryKind) (left right : Nat)

/-- The values of the enumeration of kinds. -/
def Body.getKind : Body → Nat
  | constant _ _ => 0
  | notOptimized _ => 1
  | read _ _ => 3
  | select _ _ _ => 4
  | concat _ _ => 5
  | extract _ _ _ => 6
  | cast kind _ _ => kind.value
  | not _ => 16
  | binary kind _ _ => kind.value

def Body.kids : Body → List Nat
  | constant _ _ => []
  | notOptimized src => [src]
  | read _ index => [index]
  | select cond trueExpr falseExpr => [cond, trueExpr, falseExpr]
  | concat left right => [left, right]
  | extract expr _ _ => [expr]
  | cast _ src _ => [src]
  | not expr => [expr]
  | binary _ left right => [left, right]

structure Object where
  body : Body
  hashValue : UInt32

structure UpdateNode where
  next : Option Nat
  index : Nat
  value : Nat
  size : Nat
  hashValue : UInt32

/-- Of an array only the name is read. -/
structure Heap where
  exprs : Nat → Option Object
  updates : Nat → Option UpdateNode
  arrays : Nat → Option (List UInt8)

namespace Heap

def empty : Heap := ⟨fun _ => none, fun _ => none, fun _ => none⟩

/-! ### Comparison -/

/-- The pairs of addresses that have compared equal, the lower address first. -/
abbrev ExprEquivSet := List (Nat × Nat)

/-- A comparison of two expressions. It may use the set, and leaves another one. -/
abbrev Comparer := Nat → Nat → ExprEquivSet → Option (Ordering × ExprEquivSet)

/-- `compare` with one argument. All its calls, the nested ones too, have one set, and clear it at the end. -/
def compareOne (cmp : Comparer) : Comparer := fun p q equivs => do
  let (res, _) ← cmp p q equivs
  return (res, [])

/-- `UpdateNode::compare` -/
def compareNode (cmp : Comparer) (a b : UpdateNode) (equivs : ExprEquivSet) : Option (Ordering × ExprEquivSet) := do
  let (res, equivs) ← compareOne cmp a.index b.index equivs
  if res = .eq then compareOne cmp a.value b.value equivs else return (res, equivs)

/-- The loop of `UpdateList::compare`. -/
def compareNodes (cmp : Comparer) (h : Heap) : Nat → Option Nat → Option Nat → ExprEquivSet → Option (Ordering × ExprEquivSet)
  | _, none, none, equivs => some (.eq, equivs)
  | _, none, some _, _ => none
  | _, some _, none, _ => none
  | 0, some _, some _, _ => none
  | fuel + 1, some an, some bn, equivs =>
    if an = bn then some (.eq, equivs)
    else do
      let a ← h.updates an
      let b ← h.updates bn
      let (res, equivs) ← compareNode cmp a b equivs
      if res = .eq then compareNodes cmp h fuel a.next b.next equivs else return (res, equivs)

/-- `getSize` of an update list with this head. -/
def getSize (h : Heap) : Option Nat → Option Nat
  | none => some 0
  | some head => (h.updates head).map UpdateNode.size

/-- `UpdateList::compare` -/
def compareUpdates (cmp : Comparer) (h : Heap) (fuel : Nat) (a b : UpdateList) (equivs : ExprEquivSet) :
    Option (Ordering × ExprEquivSet) := do
  let name ← h.arrays a.root
  let name' ← h.arrays b.root
  if name ≠ name' then return (Ord.compare name name', equivs)
  else if a.root ≠ b.root then return (Ord.compare a.root b.root, equivs)
  else
    let size ← h.getSize a.head
    let size' ← h.getSize b.head
    if size ≠ size' then return (Ord.compare size size', equivs)
    else compareNodes cmp h fuel a.head b.head equivs

/-- `compareContents` of two expressions of the same kind. -/
def compareContents (cmp : Comparer) (h : Heap) (fuel : Nat) : Body → Body → ExprEquivSet → Option (Ordering × ExprEquivSet)
  | .constant width value, .constant width' value', equivs =>
    some (if width ≠ width' then Ord.compare width width' else Ord.compare value.toNat value'.toNat, equivs)
  | .read updates _, .read updates' _, equivs => compareUpdates cmp h fuel updates updates' equivs
  | .extract _ offset width, .extract _ offset' width', equivs =>
    some (if offset ≠ offset' then Ord.compare offset offset' else Ord.compare width width', equivs)
  | .cast _ _ width, .cast _ _ width', equivs => some (Ord.compare width width', equivs)
  | .not expr, .not expr', equivs => do
    let (res, equivs) ← compareOne cmp expr expr' equivs
    if res = .eq then return (.eq, equivs)
    else
      let (res, equivs) ← compareOne cmp expr expr' equivs
      return (if res = .lt then .lt else .gt, equivs)
  | _, _, equivs => some (.eq, equivs)

def compareKids (cmp : Comparer) : List Nat → List Nat → ExprEquivSet → Option (Ordering × ExprEquivSet)
  | p :: ps, q :: qs, equivs => do
    let (res, equivs) ← cmp p q equivs
    if res = .eq then compareKids cmp ps qs equivs else return (res, equivs)
  | _, _, equivs => some (.eq, equivs)

/-- `Expr::compare` with a set of pairs. -/
def compare (h : Heap) : Nat → Comparer
  | 0, _, _, _ => none
  | fuel + 1, p, q, equivs =>
    if p = q then some (.eq, equivs)
    else if (min p q, max p q) ∈ equivs then some (.eq, equivs)
    else do
      let a ← h.exprs p
      let b ← h.exprs q
      if a.body.getKind ≠ b.body.getKind then return (Ord.compare a.body.getKind b.body.getKind, equivs)
      else if a.hashValue ≠ b.hashValue then return (Ord.compare a.hashValue b.hashValue, equivs)
      else
        let (res, equivs) ← compareContents (h.compare fuel) h fuel a.body b.body equivs
        if res ≠ .eq then return (res, equivs)
        else
          let (res, equivs) ← compareKids (h.compare fuel) a.body.kids b.body.kids equivs
          if res ≠ .eq then return (res, equivs) else return (.eq, (min p q, max p q) :: equivs)

/-- Comparisons one after the other, with one set. -/
def compareAll (h : Heap) (fuel : Nat) : List (Nat × Nat) → ExprEquivSet → Option ExprEquivSet
  | [], equivs => some equivs
  | (p, q) :: pairs, equivs => do
    let (_, equivs) ← h.compare fuel p q equivs
    h.compareAll fuel pairs equivs

/-! ### Hashes -/

def magic : UInt32 := 39

def hash (h : Heap) (p : Nat) : Option UInt32 := (h.exprs p).map Object.hashValue

/-- The hash of an update list without its nodes. A character is signed. -/
def nameHash (name : List UInt8) : UInt32 :=
  name.foldl (fun res c => res * magic + c.toInt8.toInt32.toUInt32) 0

/-- `UpdateList::hash` -/
def updatesHash (h : Heap) (updates : UpdateList) : Option UInt32 := do
  let name ← h.arrays updates.root
  match updates.head with
  | none => return nameHash name
  | some head => return nameHash name ^^^ (← h.updates head).hashValue

/-- `Expr::computeHash` -/
def kidsHash (h : Heap) (body : Body) : Option UInt32 :=
  body.kids.foldlM (fun res kid => do return (res <<< 1) ^^^ ((← h.hash kid) * magic)) (.ofNat body.getKind * magic)

variable (hashValue : (width : Nat) → BitVec width → UInt32)

/-- `computeHash` of the classes. The hash of an `APInt` is that of LLVM. -/
def computeHash (h : Heap) : Body → Option UInt32
  | .constant width value => some (hashValue width value ^^^ (.ofNat width * magic))
  | .cast _ src width => do return (.ofNat width * magic) ^^^ ((← h.hash src) * magic)
  | .extract expr offset width => do
    return ((.ofNat offset * magic) ^^^ (.ofNat width * magic)) ^^^ ((← h.hash expr) * magic)
  | .read updates index => do return ((← h.hash index) * magic) ^^^ (← h.updatesHash updates)
  | .not expr => do return (← h.hash expr) * magic * 16
  | body => h.kidsHash body

/-- `UpdateNode::computeHash` -/
def nodeHash (h : Heap) (next : Option Nat) (index value : Nat) : Option UInt32 := do
  let res := (← h.hash index) ^^^ (← h.hash value)
  match next with
  | none => return res
  | some n => return res ^^^ (← h.updates n).hashValue

/-! ### Allocation -/

/-- A new object at an address. -/
inductive Command
  | array (address : Nat) (name : List UInt8)
  | update (address : Nat) (next : Option Nat) (index value : Nat)
  | alloc (address : Nat) (body : Body)

/-- The objects that it refers to are there, and the address is free. Nothing is done otherwise. -/
def exec (h : Heap) : Command → Heap
  | .array address name =>
    if (h.arrays address).isSome then h else { h with arrays := Function.update h.arrays address (some name) }
  | .update address next index value =>
    if (h.updates address).isSome then h
    else (do
      let hashValue ← h.nodeHash next index value
      let size ← h.getSize next
      return { h with updates := Function.update h.updates address (some ⟨next, index, value, 1 + size, hashValue⟩) }).getD h
  | .alloc address body =>
    if (h.exprs address).isSome then h
    else ((h.computeHash hashValue body).map fun hash =>
      { h with exprs := Function.update h.exprs address (some ⟨body, hash⟩) }).getD h

def run (commands : List Command) : Heap := commands.foldl (exec hashValue) empty

end Heap

end CapTaint.Klee.ExprCompare
