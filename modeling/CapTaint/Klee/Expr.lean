import CapTaint.KQuery2Z3

/-! # Expressions of KLEE

`klee::Expr` with its arrays and update lists: widths, values and what the `create` functions assert of their operands.
The kinds `Ugt`, `Uge`, `Sgt` and `Sge` are not used in canonical form and no function allocates one. The marks for
floats and taint are left out: no value depends on them. -/

namespace CapTaint.Klee

/-- An array of the program under test. Without constant values it is symbolic. -/
structure Array where
  /-- The address of the object, which tells arrays of the same name apart. -/
  id : Nat
  size : Nat
  domain : Nat := 32
  range : Nat := 8
  constantValues : List (BitVec range) := []
  deriving DecidableEq

namespace Array

def isSymbolicArray (array : Array) : Bool := array.constantValues.isEmpty

def isConstantArray (array : Array) : Bool := !array.isSymbolicArray

/-- What the constructor asserts, and that `unsigned` holds the size. -/
structure WellFormed (array : Array) : Prop where
  range_pos : 0 < array.range
  size_le : array.size ≤ 2 ^ array.domain
  constants : array.isConstantArray = true → array.constantValues.length = array.size

end Array

mutual
/-- `klee::Expr`. -/
inductive Expr
  | constant (width : Nat) (value : BitVec width)
  | notOptimized (src : Expr)
  | read (updates : UpdateList) (index : Expr)
  | select (cond trueExpr falseExpr : Expr)
  | concat (left right : Expr)
  | extract (expr : Expr) (offset width : Nat)
  | zext (src : Expr) (width : Nat)
  | sext (src : Expr) (width : Nat)
  | not (expr : Expr)
  | arith (kind : ArithKind) (left right : Expr)
  | cmp (kind : CmpKind) (left right : Expr)

/-- An array and the updates of it, the most recent one outermost. -/
inductive UpdateList
  | root (array : Array)
  | extend (next : UpdateList) (index value : Expr)
end

deriving instance DecidableEq for Expr, UpdateList

def UpdateList.array : UpdateList → Array
  | root array => array
  | extend next _ _ => next.array

/-- The update nodes, the most recent one first. -/
def UpdateList.nodes : UpdateList → List (Expr × Expr)
  | root _ => []
  | extend next index value => (index, value) :: next.nodes

namespace Expr

def getWidth : Expr → Nat
  | constant width _ => width
  | notOptimized src => src.getWidth
  | read updates _ => updates.array.range
  | select _ trueExpr _ => trueExpr.getWidth
  | concat left right => left.getWidth + right.getWidth
  | extract _ _ width => width
  | zext _ width => width
  | sext _ width => width
  | not expr => expr.getWidth
  | arith _ left _ => left.getWidth
  | cmp _ _ _ => 1

/-- The number of nodes, those of updates left out. -/
def size : Expr → Nat
  | constant _ _ => 1
  | notOptimized src => src.size + 1
  | read _ index => index.size + 1
  | select cond trueExpr falseExpr => cond.size + trueExpr.size + falseExpr.size + 1
  | concat left right => left.size + right.size + 1
  | extract expr _ _ => expr.size + 1
  | zext src _ => src.size + 1
  | sext src _ => src.size + 1
  | not expr => expr.size + 1
  | arith _ left right => left.size + right.size + 1
  | cmp _ left right => left.size + right.size + 1

end Expr

def Expr.isConstant : Expr → Bool
  | .constant _ _ => true
  | _ => false

/-! ## Well-typed expressions -/

mutual
/-- What the `create` functions assert of their operands. -/
def Expr.WellTyped : Expr → Prop
  | .constant width _ => 0 < width
  | .notOptimized src => src.WellTyped
  | .read updates index => updates.WellTyped ∧ index.WellTyped ∧ index.getWidth = updates.array.domain
  | .select cond trueExpr falseExpr =>
    cond.WellTyped ∧ trueExpr.WellTyped ∧ falseExpr.WellTyped ∧ cond.getWidth = 1 ∧
      trueExpr.getWidth = falseExpr.getWidth
  | .concat left right => left.WellTyped ∧ right.WellTyped
  | .extract expr offset width => expr.WellTyped ∧ 0 < width ∧ offset + width ≤ expr.getWidth
  | .zext src width => src.WellTyped ∧ src.getWidth < width
  | .sext src width => src.WellTyped ∧ src.getWidth < width
  | .not expr => expr.WellTyped
  | .arith _ left right => left.WellTyped ∧ right.WellTyped ∧ left.getWidth = right.getWidth
  | .cmp _ left right => left.WellTyped ∧ right.WellTyped ∧ left.getWidth = right.getWidth

/-- What `extend` asserts of each node. -/
def UpdateList.WellTyped : UpdateList → Prop
  | .root array => array.WellFormed
  | .extend next index value =>
    next.WellTyped ∧ index.WellTyped ∧ value.WellTyped ∧ index.getWidth = next.array.domain ∧
      value.getWidth = next.array.range
end

/-- A well-typed expression of width `w`. -/
structure Expr.Typed (w : Nat) (e : Expr) : Prop where
  wellTyped : e.WellTyped
  width : e.getWidth = w

/-! ## Values -/

/-- The elements of the symbolic arrays. -/
abbrev Valuation := Array → Nat → Nat

/-- The element of the array before all updates. There is none behind the end, which reads as zero. -/
def Array.initial (v : Valuation) (array : Array) (index : Nat) : Nat :=
  if array.isConstantArray then (array.constantValues[index]?.map (·.toNat)).getD 0
  else if index < array.size then v array index % 2 ^ array.range
  else 0

/-- The kinds whose right operand is a divisor. -/
def divides : ArithKind → Bool
  | .udiv | .sdiv | .urem | .srem => true
  | _ => false

/-- The operators. Division by zero has no value of its own: here it is the one that the one-bit rules of the `create`
    functions give, the dividend for the quotients and zero for the remainders. -/
def applyArith {w : Nat} (kind : ArithKind) (x y : BitVec w) : BitVec w :=
  if divides kind = true ∧ y = 0 then
    match kind with
    | .udiv | .sdiv => x
    | _ => 0
  else kind.eval x y

mutual
/-- The value of an expression, below two to its width. -/
def Expr.value (v : Valuation) : Expr → Nat
  | .constant _ value => value.toNat
  | .notOptimized src => src.value v
  | .read updates index => updates.readAt v (index.value v)
  | .select cond trueExpr falseExpr => if cond.value v ≠ 0 then trueExpr.value v else falseExpr.value v
  | .concat left right => left.value v * 2 ^ right.getWidth + right.value v
  | .extract expr offset width => expr.value v / 2 ^ offset % 2 ^ width
  | .zext src _ => src.value v
  | .sext src width => ((BitVec.ofNat src.getWidth (src.value v)).signExtend width).toNat
  | .not expr => (~~~BitVec.ofNat expr.getWidth (expr.value v)).toNat
  | .arith kind left right =>
    (applyArith kind (BitVec.ofNat left.getWidth (left.value v)) (BitVec.ofNat left.getWidth (right.value v))).toNat
  | .cmp kind left right =>
    (kind.eval (BitVec.ofNat left.getWidth (left.value v)) (BitVec.ofNat left.getWidth (right.value v))).toNat

/-- The element at an index after the updates. -/
def UpdateList.readAt (v : Valuation) : UpdateList → Nat → Nat
  | .root array, i => array.initial v i
  | .extend next index value, i => if index.value v = i then value.value v else next.readAt v i
end

/-- The value as a vector of `w` bits. -/
def Expr.bits (v : Valuation) (w : Nat) (e : Expr) : BitVec w := BitVec.ofNat w (e.value v)

/-! ## Weights -/

/-- How many operators the one-bit rules make of one. -/
def ArithKind.cost : ArithKind → Nat
  | .or | .shl | .lshr => 2
  | _ => 1

def CmpKind.cost : CmpKind → Nat
  | .eq => 1
  | .ne | .ult | .slt => 2
  | .ule | .sle => 3

mutual
/-- A bound on the operators, with room for the comparisons that replace the read of a constant array and for the second
    part that an extraction may need. Only constants weigh nothing. -/
def Expr.weight : Expr → Nat
  | .constant _ _ => 0
  | .notOptimized src => src.weight + 1
  | .read updates index => updates.weight + 100 * (index.weight + 3) + 1
  | .select cond trueExpr falseExpr => cond.weight + trueExpr.weight + falseExpr.weight + 3
  | .concat left right => left.weight + right.weight + 1
  | .extract expr _ _ => 2 * expr.weight + 1
  | .zext src _ => src.weight + 1
  | .sext src _ => src.weight + 1
  | .not expr => expr.weight + 1
  | .arith kind left right => left.weight + right.weight + ArithKind.cost kind
  | .cmp kind left right => left.weight + right.weight + CmpKind.cost kind

def UpdateList.weight : UpdateList → Nat
  | .root _ => 0
  | .extend next index value => next.weight + index.weight + value.weight + 1
end

/-! ## What an expression reads

`findSymbolicObjects` of `ExprUtil.cpp`. The table of its visitor only spares visits that find nothing new. -/

mutual
/-- The visit of `SymbolicObjectFinder`, which appends to the objects found so far. -/
def Expr.symbolicObjects : Expr → List Array → List Array
  | .constant _ _, objects => objects
  | .notOptimized src, objects => src.symbolicObjects objects
  | .read updates index, objects =>
    let objects := updates.symbolicObjects objects
    let root := updates.array
    index.symbolicObjects (if root.isSymbolicArray ∧ root ∉ objects then objects ++ [root] else objects)
  | .select cond trueExpr falseExpr, objects =>
    falseExpr.symbolicObjects (trueExpr.symbolicObjects (cond.symbolicObjects objects))
  | .concat left right, objects => right.symbolicObjects (left.symbolicObjects objects)
  | .extract expr _ _, objects => expr.symbolicObjects objects
  | .zext src _, objects => src.symbolicObjects objects
  | .sext src _, objects => src.symbolicObjects objects
  | .not expr, objects => expr.symbolicObjects objects
  | .arith _ left right, objects => right.symbolicObjects (left.symbolicObjects objects)
  | .cmp _ left right, objects => right.symbolicObjects (left.symbolicObjects objects)

/-- The objects in the indices and values of the updates. -/
def UpdateList.symbolicObjects : UpdateList → List Array → List Array
  | .root _, objects => objects
  | .extend next index value, objects =>
    next.symbolicObjects (value.symbolicObjects (index.symbolicObjects objects))
end

def findSymbolicObjects (es : List Expr) : List Array := es.foldl (fun objects e => e.symbolicObjects objects) []

end CapTaint.Klee
