import Mathlib

/-! Terms over Booleans and bit vectors as an SMT solver builds them: their sorts, with `none` for an application that
    the solver refuses, and their values. -/

namespace CapTaint.Z3

inductive TermSort
  | bool
  | bitVec (w : Nat)
  deriving Repr, DecidableEq

/-- The operations on two bit vectors of one width. -/
inductive BvOp
  | add | sub | mul | udiv | sdiv | urem | srem | and | or | xor | shl | lshr | ashr
  deriving Repr, DecidableEq

inductive BvRel
  | ult | ule | slt | sle
  deriving Repr, DecidableEq

inductive BoolOp
  | and | or | xor
  deriving Repr, DecidableEq

/-- The operations on numbers, a sort that has no terms here. -/
inductive NumOp
  | div | rem | lt | le
  deriving Repr, DecidableEq

inductive Expr
  | boolVal (b : Bool)
  | bvVal (w : Nat) (v : BitVec w)
  | const (name : String) (s : TermSort)
  | not (a : Expr)
  | bvnot (a : Expr)
  | ite (c t f : Expr)
  | extract (high low : Nat) (a : Expr)
  | bv (op : BvOp) (a b : Expr)
  | rel (op : BvRel) (a b : Expr)
  | bool (op : BoolOp) (a b : Expr)
  | eq (a b : Expr)
  | distinct (a b : Expr)
  | num (op : NumOp) (a b : Expr)
  deriving DecidableEq

/-! ### Sorts -/

/-- The width of two bit vectors of the same width. -/
def sameWidth : Option TermSort → Option TermSort → Option Nat
  | some (.bitVec w), some (.bitVec v) => if w = v then some w else none
  | _, _ => none

namespace Expr

def sort : Expr → Option TermSort
  | boolVal _ => some .bool
  | bvVal w _ => some (.bitVec w)
  | const _ s => some s
  | not a => if a.sort = some .bool then some .bool else none
  | bvnot a => (sameWidth a.sort a.sort).map .bitVec
  | ite c t f => if c.sort = some .bool ∧ t.sort = f.sort then t.sort else none
  | extract high low a =>
    match a.sort with
    | some (.bitVec w) => if low ≤ high ∧ high < w then some (.bitVec (high - low + 1)) else none
    | _ => none
  | bv _ a b => (sameWidth a.sort b.sort).map .bitVec
  | rel _ a b => (sameWidth a.sort b.sort).map fun _ => .bool
  | bool _ a b => if a.sort = some .bool ∧ b.sort = some .bool then some .bool else none
  | eq a b | distinct a b => if a.sort = b.sort then a.sort.map fun _ => .bool else none
  | num _ _ _ => none

def isBool (a : Expr) : Bool := a.sort = some .bool

def isBv (a : Expr) : Bool :=
  match a.sort with
  | some (.bitVec _) => true
  | _ => false

end Expr

/-! ### Values -/

inductive Value
  | bool (b : Bool)
  | bitVec (w : Nat) (v : BitVec w)
  deriving DecidableEq

structure Valuation where
  bool : String → Bool
  bitVec : (w : Nat) → String → BitVec w

variable {w : Nat}

def BvOp.eval (x y : BitVec w) : BvOp → BitVec w
  | .add => x + y
  | .sub => x - y
  | .mul => x * y
  | .udiv => x.smtUDiv y
  | .sdiv => x.smtSDiv y
  | .urem => x % y
  | .srem => x.srem y
  | .and => x &&& y
  | .or => x ||| y
  | .xor => x ^^^ y
  | .shl => x <<< y
  | .lshr => x >>> y
  | .ashr => x.sshiftRight' y

def BvRel.eval (x y : BitVec w) : BvRel → Bool
  | .ult => x.ult y
  | .ule => x.ule y
  | .slt => x.slt y
  | .sle => x.sle y

def BoolOp.eval (x y : Bool) : BoolOp → Bool
  | .and => x && y
  | .or => x || y
  | .xor => x ^^ y

/-- An operation on two bit vectors of the same width. -/
def onBitVecs {α : Type} (f : {w : Nat} → BitVec w → BitVec w → α) : Option Value → Option Value → Option α
  | some (.bitVec w x), some (.bitVec v y) => if h : v = w then some (f x (h ▸ y)) else none
  | _, _ => none

/-- The value of a term; `none` for one that has no sort. -/
def Expr.eval (σ : Valuation) : Expr → Option Value
  | boolVal b => some (.bool b)
  | bvVal w v => some (.bitVec w v)
  | const name .bool => some (.bool (σ.bool name))
  | const name (.bitVec w) => some (.bitVec w (σ.bitVec w name))
  | not a =>
    match a.eval σ with
    | some (.bool b) => some (.bool !b)
    | _ => none
  | bvnot a =>
    match a.eval σ with
    | some (.bitVec w v) => some (.bitVec w (~~~v))
    | _ => none
  | ite c t f =>
    match c.eval σ with
    | some (.bool b) => if b then t.eval σ else f.eval σ
    | _ => none
  | extract high low a =>
    match a.eval σ with
    | some (.bitVec _ v) => some (.bitVec (high - low + 1) (v.extractLsb high low))
    | _ => none
  | bv op a b => onBitVecs (fun {w} x y => .bitVec w (op.eval x y)) (a.eval σ) (b.eval σ)
  | rel op a b => onBitVecs (fun x y => .bool (op.eval x y)) (a.eval σ) (b.eval σ)
  | bool op a b =>
    match a.eval σ, b.eval σ with
    | some (.bool x), some (.bool y) => some (.bool (op.eval x y))
    | _, _ => none
  | eq a b =>
    match a.eval σ, b.eval σ with
    | some x, some y => some (.bool (x = y))
    | _, _ => none
  | distinct a b =>
    match a.eval σ, b.eval σ with
    | some x, some y => some (.bool (x ≠ y))
    | _, _ => none
  | num _ _ _ => none

end CapTaint.Z3
