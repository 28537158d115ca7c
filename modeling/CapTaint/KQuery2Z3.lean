import CapTaint.Lib.Z3

/-! # The translation of expressions

`KQuery2Z3` turns a KLEE expression into a term of z3. Every integer becomes a vector of `BIT_WIDTH` bits and every
one-bit value a Boolean. The part for expressions that are marked as floats is left out. -/

namespace CapTaint

/-! ## Expressions with widths -/

/-- The kinds with two kids of the result's width. -/
inductive ArithKind
  | add | sub | mul | udiv | sdiv | urem | srem | and | or | xor | shl | lshr | ashr
  deriving Repr, DecidableEq

/-- The comparisons that the `create` functions leave. -/
inductive CmpKind
  | eq | ne | ult | ule | slt | sle
  deriving Repr, DecidableEq

/-- `klee::Expr`. A read takes the element `index` of a symbolic array whose elements have `range` bits. -/
inductive KExpr
  | constant (width : Nat) (value : BitVec width)
  | read (range : Nat) (root : String) (index : KExpr)
  | select (cond trueExpr falseExpr : KExpr)
  | concat (left right : KExpr)
  | extract (expr : KExpr) (offset width : Nat)
  | zext (src : KExpr) (width : Nat)
  | sext (src : KExpr) (width : Nat)
  | not (expr : KExpr)
  | arith (kind : ArithKind) (left right : KExpr)
  | cmp (kind : CmpKind) (left right : KExpr)
  deriving DecidableEq

/-- The bitwise kinds exist for one-bit operands too; the `create` functions turn the others into these. -/
def ArithKind.isBitwise : ArithKind → Bool
  | .and | .or | .xor => true
  | _ => false

def CmpKind.isEquality : CmpKind → Bool
  | .eq | .ne => true
  | _ => false

namespace KExpr

def getWidth : KExpr → Nat
  | constant width _ => width
  | read range _ _ => range
  | select _ trueExpr _ => trueExpr.getWidth
  | concat left right => left.getWidth + right.getWidth
  | extract _ _ width => width
  | zext _ width => width
  | sext _ width => width
  | not expr => expr.getWidth
  | arith _ left _ => left.getWidth
  | cmp _ _ _ => 1

/-- A read or a concatenation of reads. -/
def isReads : KExpr → Bool
  | read _ _ _ => true
  | concat left right => left.isReads && right.isReads
  | _ => false

/-- What the `create` functions assert and leave; concatenations are those of reads. -/
def WellTyped : KExpr → Prop
  | constant width _ => 0 < width
  | read range _ index => 0 < range ∧ index.WellTyped
  | select cond trueExpr falseExpr =>
    cond.getWidth = 1 ∧ trueExpr.getWidth = falseExpr.getWidth ∧ cond.WellTyped ∧ trueExpr.WellTyped ∧ falseExpr.WellTyped
  | concat left right => left.isReads = true ∧ right.isReads = true ∧ left.WellTyped ∧ right.WellTyped
  | extract expr offset width => 0 < width ∧ offset + width ≤ expr.getWidth ∧ expr.WellTyped
  | zext src width => src.getWidth < width ∧ src.WellTyped
  | sext src width => src.getWidth < width ∧ src.WellTyped
  | not expr => expr.WellTyped
  | arith kind left right =>
    left.getWidth = right.getWidth ∧ (kind.isBitwise = false → left.getWidth ≠ 1) ∧ left.WellTyped ∧ right.WellTyped
  | cmp kind left right =>
    left.getWidth = right.getWidth ∧ (kind.isEquality = false → left.getWidth ≠ 1) ∧ left.WellTyped ∧ right.WellTyped

end KExpr

/-! ### Values -/

section
variable {w : Nat}

def ArithKind.eval (x y : BitVec w) : ArithKind → BitVec w
  | .add => x + y
  | .sub => x - y
  | .mul => x * y
  | .udiv => x / y
  | .sdiv => x.sdiv y
  | .urem => x % y
  | .srem => x.srem y
  | .and => x &&& y
  | .or => x ||| y
  | .xor => x ^^^ y
  | .shl => x <<< y
  | .lshr => x >>> y
  | .ashr => x.sshiftRight' y

def CmpKind.eval (x y : BitVec w) : CmpKind → Bool
  | .eq => x = y
  | .ne => x ≠ y
  | .ult => x.ult y
  | .ule => x.ule y
  | .slt => x.slt y
  | .sle => x.sle y

end

namespace KExpr

/-- The value of an expression where the arrays have the elements `arrays`. -/
def value (arrays : String → Nat → Nat) : (e : KExpr) → BitVec e.getWidth
  | constant _ value => value
  | read range root index => BitVec.ofNat range (arrays root (index.value arrays).toNat)
  | select cond trueExpr falseExpr =>
    if (cond.value arrays).toNat ≠ 0 then trueExpr.value arrays else (falseExpr.value arrays).setWidth trueExpr.getWidth
  | concat left right => left.value arrays ++ right.value arrays
  | extract expr offset width => (expr.value arrays).extractLsb' offset width
  | zext src width => (src.value arrays).setWidth width
  | sext src width => (src.value arrays).signExtend width
  | not expr => ~~~(expr.value arrays)
  | arith kind left right => kind.eval (left.value arrays) ((right.value arrays).setWidth left.getWidth)
  | cmp kind left right => BitVec.ofBool (kind.eval (left.value arrays) ((right.value arrays).setWidth left.getWidth))

end KExpr

/-! ## The translation -/

/-- What happens while a term is built: the applications that z3 is asked for, and the term unless an exception or a
    failed assertion comes out. -/
structure Build (α : Type) where
  requests : List Z3.Expr := []
  result : Option α

def Build.bind {α β : Type} (b : Build α) (f : α → Build β) : Build β :=
  match b.result with
  | none => { requests := b.requests, result := none }
  | some a => { requests := b.requests ++ (f a).requests, result := (f a).result }

instance : Monad Build where
  pure a := { result := some a }
  bind := Build.bind

def ArithKind.toBvOp : ArithKind → Z3.BvOp
  | .add => .add
  | .sub => .sub
  | .mul => .mul
  | .udiv => .udiv
  | .sdiv => .sdiv
  | .urem => .urem
  | .srem => .srem
  | .and => .and
  | .or => .or
  | .xor => .xor
  | .shl => .shl
  | .lshr => .lshr
  | .ashr => .ashr

namespace KQuery2Z3

/-- z3 throws when it is asked for an application that has no sort. -/
def build (z : Z3.Expr) : Build Z3.Expr := { requests := [z], result := if z.sort.isSome then some z else none }

/-- A failed assertion. -/
def abort : Build Z3.Expr := { result := none }

/-- `try` around one application: after an exception the result is what it was before. -/
def tryBuild (before : Z3.Expr) (b : Build Z3.Expr) : Build Z3.Expr := { b with result := some (b.result.getD before) }

abbrev BIT_WIDTH : Nat := 64

/-- `int temp = ce->getZExtValue()`, then `bv_val(temp, BIT_WIDTH)`. -/
def intVal {w : Nat} (value : BitVec w) : BitVec BIT_WIDTH := ((value.setWidth 64).setWidth 32).signExtend BIT_WIDTH

/-- The arithmetic of z3++ asserts on operands that are not vectors; the functions of the C interface throw. -/
def arithToZ3 (kind : ArithKind) (left right : Z3.Expr) : Build Z3.Expr :=
  let bv := build (.bv kind.toBvOp left right)
  match kind with
  | .add | .sub | .mul => if left.isBv ∧ right.isBv then bv else abort
  | .udiv | .sdiv => tryBuild (.boolVal true) (if left.isBv then bv else build (.num .div left right))
  | .urem | .srem => tryBuild (.boolVal true) (if left.isBv then bv else build (.num .rem left right))
  | .and => if left.isBv then bv else if left.isBool ∧ right.isBool then build (.bool .and left right) else abort
  | .or => if left.isBv then bv else if left.isBool ∧ right.isBool then build (.bool .or left right) else abort
  | .xor => tryBuild (.boolVal true) (if left.isBv then bv else build (.bool .xor left right))
  | .shl | .lshr | .ashr => bv

/-- The comparisons in a `try`. -/
def relToZ3 (rel : Z3.BvRel) (num : Z3.NumOp) (left right : Z3.Expr) : Build Z3.Expr :=
  tryBuild (.boolVal true) (if left.isBv then build (.rel rel left right) else build (.num num left right))

def cmpToZ3 (kind : CmpKind) (left right : Z3.Expr) : Build Z3.Expr :=
  match kind with
  | .eq => build (.eq left right)
  | .ne => build (.distinct left right)
  | .ult => relToZ3 .ult .lt left right
  | .ule => relToZ3 .ule .le left right
  | .slt => relToZ3 .slt .lt left right
  | .sle => relToZ3 .sle .le left right

/-- `ite(cond, bv_val(1, BIT_WIDTH), bv_val(0, BIT_WIDTH))`. -/
def oneOrZero (cond : Z3.Expr) : Build Z3.Expr :=
  build (.ite cond (.bvVal BIT_WIDTH 1#64) (.bvVal BIT_WIDTH 0#64))

/-- A variable is known by the array of a read that is one of the two kids. -/
def concatToZ3 : KExpr → KExpr → Build Z3.Expr
  | .read _ root _, _ => build (.const root (.bitVec BIT_WIDTH))
  | _, .read _ root _ => build (.const root (.bitVec BIT_WIDTH))
  | _, _ => abort

/-- `KQuery2Z3::eachExprToZ3`. -/
def eachExprToZ3 : KExpr → Build Z3.Expr
  | .constant width value =>
    if width = 1 then build (.boolVal (value.toNat ≠ 0))
    else if width ≤ 64 then build (.bvVal BIT_WIDTH (intVal value))
    else abort
  | .read range root _ => build (.const root (if range = 1 then .bool else .bitVec BIT_WIDTH))
  | .select cond trueExpr falseExpr => do
    let cond ← eachExprToZ3 cond
    let tExpr ← eachExprToZ3 trueExpr
    let fExpr ← eachExprToZ3 falseExpr
    build (.ite cond tExpr fExpr)
  | .concat left right => concatToZ3 left right
  | .extract expr _ width => do
    let src ← eachExprToZ3 expr
    if width = 1 then
      let bit ← build (.extract 0 0 src)
      oneOrZero bit
    else pure src
  | .zext expr _ => do
    let src ← eachExprToZ3 expr
    if expr.getWidth = 1 then oneOrZero src else pure src
  | .sext expr width => do
    let src ← eachExprToZ3 expr
    if expr.getWidth = 1 ∧ width ≠ 1 then oneOrZero src else pure src
  | .not expr => do
    let res ← eachExprToZ3 expr
    tryBuild res (if res.isBv then build (.bvnot res) else build (.not res))
  | .arith kind left right => do
    let left ← eachExprToZ3 left
    let right ← eachExprToZ3 right
    arithToZ3 kind left right
  | .cmp kind left right => do
    let left ← eachExprToZ3 left
    let right ← eachExprToZ3 right
    cmpToZ3 kind left right

end KQuery2Z3
end CapTaint
