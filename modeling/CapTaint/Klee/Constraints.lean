import CapTaint.Klee.Create

/-! # Constraints

`ConstraintManager` with the visitors that it rewrites expressions with. `opt` is the option `ConstArrayOpt` and
`useVisitorHash` the option `UseVisitorHash`. The source bounds neither the visitors nor the adding of constraints; the
recursions here are bounded by the weight of the expressions. -/

namespace CapTaint.Klee

/-! ## Visitors -/

def Expr.kids : Expr → List Expr
  | .constant _ _ => []
  | .notOptimized src => [src]
  | .read _ index => [index]
  | .select cond trueExpr falseExpr => [cond, trueExpr, falseExpr]
  | .concat left right => [left, right]
  | .extract expr _ _ => [expr]
  | .zext src _ => [src]
  | .sext src _ => [src]
  | .not expr => [expr]
  | .arith _ left right => [left, right]
  | .cmp _ left right => [left, right]

def createCmp (opt : Bool) (l r : Expr) : CmpKind → Created
  | .eq => createComparison opt l r .eq
  | .ne => createComparison opt l r .ne
  | .ult => createComparison opt l r .ult
  | .ule => createComparison opt l r .ule
  | .slt => createComparison opt l r .slt
  | .sle => createComparison opt l r .sle

/-- The same kind of expression with other kids. -/
def Expr.rebuild (opt : Bool) : Expr → List Expr → Created
  | .notOptimized _, [src] => .ok (.notOptimized src)
  | .read updates _, [index] => ReadExpr.create opt updates index
  | .select _ _ _, [c, t, f] => SelectExpr.create opt c t f
  | .concat _ _, [l, r] => ConcatExpr.create l r
  | .extract _ offset width, [e] => ExtractExpr.create e offset width
  | .zext _ width, [e] => ZExtExpr.create e width
  | .sext _ width, [e] => SExtExpr.create e width
  | .not _, [e] => NotExpr.create e
  | .arith kind _ _, [l, r] => createArith opt kind l r
  | .cmp kind _ _, [l, r] => createCmp opt l r kind
  | _, _ => .error .assertion

/-- A visitor: what it changes an expression to before and after the kids are visited, if it changes it. -/
structure ExprVisitor where
  recursive : Bool
  visitExpr : Expr → Option Expr
  visitExprPost : Expr → Option Expr

/-- The results so far. -/
abbrev Visited := List (Expr × Expr)

namespace ExprVisitor

variable (opt useVisitorHash : Bool) (visitor : ExprVisitor)

def visitKids (visit : Expr → Visited → Except Abort (Expr × Visited)) :
    List Expr → Visited → Except Abort (List Expr × Visited)
  | [], visited => .ok ([], visited)
  | kid :: kids, visited => do
    let (kid, visited) ← visit kid visited
    let (kids, visited) ← visitKids visit kids visited
    return (kid :: kids, visited)

/-- `visitActual`, where the recursive calls are of `visit`. -/
def visitActual (visit : Expr → Visited → Except Abort (Expr × Visited)) (e : Expr) (visited : Visited) :
    Except Abort (Expr × Visited) :=
  if e.isConstant then .ok (e, visited)
  else
    match visitor.visitExpr e with
    | some argument => .ok (argument, visited)
    | none => do
      let (kids, visited) ← visitKids visit e.kids visited
      let (e, visited) ←
        if kids = e.kids then pure (e, visited)
        else do
          let e ← e.rebuild opt kids
          if visitor.recursive then visit e visited else pure (e, visited)
      if e.isConstant then return (e, visited)
      else return ((visitor.visitExprPost e).getD e, visited)

/-- The table of `visit`, where `actual` is what `visitActual` gives. -/
def remember (e : Expr) (visited : Visited) (actual : Except Abort (Expr × Visited)) : Except Abort (Expr × Visited) :=
  if !useVisitorHash || e.isConstant then actual
  else
    match visited.lookup e with
    | some res => .ok (res, visited)
    | none => do
      let (res, visited) ← actual
      -- `insert` of the map leaves an entry that is there already
      if (visited.lookup e).isSome then return (res, visited) else return (res, (e, res) :: visited)

def visit : Nat → Expr → Visited → Except Abort (Expr × Visited)
  | 0, _, _ => .error .unfinished
  | fuel + 1, e, visited => remember useVisitorHash e visited (visitActual opt visitor (visit fuel) e visited)

end ExprVisitor

def ExprReplaceVisitor (src dst : Expr) : ExprVisitor where
  recursive := false
  visitExpr e := if e = src then some dst else none
  visitExprPost e := if e = src then some dst else none

def ExprReplaceVisitor2 (replacements : List (Expr × Expr)) : ExprVisitor where
  recursive := true
  visitExpr _ := none
  visitExprPost e := replacements.lookup e

/-! ## The manager -/

namespace ConstraintManager

variable (opt useVisitorHash : Bool)

/-- What a constraint lets the expressions in it be replaced by. -/
def equality : Expr → Expr × Expr
  | .cmp .eq (.constant w c) right => (right, .constant w c)
  | constraint => (constraint, boolean true)

/-- Kids and changed expressions weigh less. -/
def simplifyExpr (constraints : List Expr) (e : Expr) : Created :=
  if e.isConstant then .ok e
  else do
    let visitor := ExprReplaceVisitor2 (constraints.map equality)
    let (e, _) ← visitor.visit opt useVisitorHash (e.weight + 1) e []
    return e

/-- The loop of `rewriteConstraints` over the old constraints; `add` is `addConstraintInternal`. -/
def rewriteConstraints (visit : Expr → Visited → Except Abort (Expr × Visited))
    (add : List Expr → Expr → Except Abort (List Expr)) :
    List Expr → Visited → List Expr → Except Abort (List Expr)
  | [], _, constraints => .ok constraints
  | ce :: old, visited, constraints => do
    let (e, visited) ← visit ce visited
    let constraints ← if e ≠ ce then add constraints e else pure (constraints ++ [ce])
    rewriteConstraints visit add old visited constraints

/-- With a bound on the depth of the recursion. -/
def addConstraintInternal : Nat → List Expr → Expr → Except Abort (List Expr)
  | 0, _, _ => .error .unfinished
  | fuel + 1, constraints, e =>
    match e with
    | .constant w c => if w = 1 ∧ c ≠ 0 then .ok constraints else .error .invalidConstraint
    | .arith .and left right => do
      let constraints ← addConstraintInternal fuel constraints left
      addConstraintInternal fuel constraints right
    | .cmp .eq (.constant w c) right => do
      let visitor := ExprReplaceVisitor right (.constant w c)
      let constraints ← rewriteConstraints (ExprVisitor.visit opt useVisitorHash visitor fuel)
        (addConstraintInternal fuel) constraints [] []
      return constraints ++ [e]
    | _ => .ok (constraints ++ [e])

def totalWeight (constraints : List Expr) : Nat := (constraints.map Expr.weight).sum

/-- Constraints that are added again weigh less. -/
def addConstraint (constraints : List Expr) (e : Expr) : Except Abort (List Expr) := do
  let e ← simplifyExpr opt useVisitorHash constraints e
  addConstraintInternal opt useVisitorHash (totalWeight constraints + e.weight + 1) constraints e

end ConstraintManager

end CapTaint.Klee
