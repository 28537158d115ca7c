import CapTaint.Klee.Expr

/-! # Taint of an expression

Expressions as the taint listener sees them: the leaves carry the mark `isTaint`, which `Expr::compare` does not look at.
Reads and concatenations are leaves here, as `resolveTaintExpr` does not go into them. The marks of inner nodes are left
out: the traversal does not read them. A node that is shared has one mark, and stands at each of its places. -/

namespace CapTaint
open Klee

inductive TaintExpr
  | constant (isTaint : Bool) (width : Nat) (value : BitVec width)
  | read (isTaint : Bool) (updates : UpdateList) (index : Klee.Expr)
  | concat (isTaint : Bool) (left right : Klee.Expr)
  | notOptimized (src : TaintExpr)
  | select (cond trueExpr falseExpr : TaintExpr)
  | extract (expr : TaintExpr) (offset width : Nat)
  | zext (src : TaintExpr) (width : Nat)
  | sext (src : TaintExpr) (width : Nat)
  | not (expr : TaintExpr)
  | arith (kind : ArithKind) (left right : TaintExpr)
  | cmp (kind : CmpKind) (left right : TaintExpr)
  deriving DecidableEq

/-- What a traversal has collected. -/
structure TaintResult where
  relatedSymbolicExpr : List TaintExpr := []
  isTaint : Bool := false
  deriving DecidableEq

namespace TaintExpr

/-- The mark of a leaf. -/
def isTaint : TaintExpr → Bool
  | constant isTaint _ _ | read isTaint _ _ | concat isTaint _ _ => isTaint
  | _ => false

def isConstant : TaintExpr → Bool
  | constant _ _ _ => true
  | _ => false

/-- The expression without its marks. -/
def toExpr : TaintExpr → Klee.Expr
  | constant _ width value => .constant width value
  | read _ updates index => .read updates index
  | concat _ left right => .concat left right
  | notOptimized src => .notOptimized src.toExpr
  | select cond trueExpr falseExpr => .select cond.toExpr trueExpr.toExpr falseExpr.toExpr
  | extract expr offset width => .extract expr.toExpr offset width
  | zext src width => .zext src.toExpr width
  | sext src width => .sext src.toExpr width
  | not expr => .not expr.toExpr
  | arith kind left right => .arith kind left.toExpr right.toExpr
  | cmp kind left right => .cmp kind left.toExpr right.toExpr

/-- `operator==`: the same structure. -/
def equal (a b : TaintExpr) : Bool := decide (a.toExpr = b.toExpr)

/-- The branch for a read or a concatenation: the first of its equals is kept, and only its mark counts. -/
def resolveSymbolic (value : TaintExpr) (s : TaintResult) : TaintResult :=
  if s.relatedSymbolicExpr.any (·.equal value) then s
  else { relatedSymbolicExpr := s.relatedSymbolicExpr ++ [value], isTaint := s.isTaint || value.isTaint }

/-- `DealWithSymbolicExpr::resolveTaintExpr`. Of two kids that are equal only the first is visited. -/
def resolveTaintExpr : TaintExpr → TaintResult → TaintResult
  | constant isTaint _ _, s => { s with isTaint := s.isTaint || isTaint }
  | read isTaint updates index, s => (read isTaint updates index).resolveSymbolic s
  | concat isTaint left right, s => (concat isTaint left right).resolveSymbolic s
  | notOptimized src, s => src.resolveTaintExpr s
  | select cond trueExpr falseExpr, s =>
    falseExpr.resolveTaintExpr (trueExpr.resolveTaintExpr (cond.resolveTaintExpr s))
  | extract expr _ _, s => expr.resolveTaintExpr s
  | zext src _, s => src.resolveTaintExpr s
  | sext src _, s => src.resolveTaintExpr s
  | not expr, s => expr.resolveTaintExpr s
  | arith _ left right, s =>
    if left.equal right then left.resolveTaintExpr s else right.resolveTaintExpr (left.resolveTaintExpr s)
  | cmp _ left right, s =>
    if left.equal right then left.resolveTaintExpr s else right.resolveTaintExpr (left.resolveTaintExpr s)

/-- The leaves, from left to right. -/
def leaves : TaintExpr → List TaintExpr
  | constant isTaint width value => [constant isTaint width value]
  | read isTaint updates index => [read isTaint updates index]
  | concat isTaint left right => [concat isTaint left right]
  | notOptimized src => src.leaves
  | select cond trueExpr falseExpr => cond.leaves ++ trueExpr.leaves ++ falseExpr.leaves
  | extract expr _ _ => expr.leaves
  | zext src _ => src.leaves
  | sext src _ => src.leaves
  | not expr => expr.leaves
  | arith _ left right => left.leaves ++ right.leaves
  | cmp _ left right => left.leaves ++ right.leaves

end TaintExpr
end CapTaint
