import CapTaint.Klee.AddressSpace
import CapTaint.Klee.Solver
import CapTaint.Lib.BinarySearch

/-! # The range of an expression

`Solver::getRange` over the implementation of a solver, and the functions of `Solver` that it calls. An assertion that a
query succeeds stops the program when the solver fails. Numbers of type `uint64_t` wrap around at 2^64. -/

namespace CapTaint.Klee

/-- `bits64::maxValueOfNBits`, for `n` up to 64. -/
def maxValueOfNBits (n : Nat) : Nat := if n = 0 then 0 else (2 ^ 64 - 1) >>> (64 - n)

namespace Solver

variable {σ : Type} (opt : Bool) (impl : SolverImpl σ)

def evaluate (query : Query) (s : σ) : Except Abort (Option Validity × σ) :=
  if query.expr.getWidth ≠ 1 then .error .assertion
  else
    match query.expr with
    | .constant _ value => .ok (some (if value = 0 then .False else .True), s)
    | _ => .ok (impl.computeValidity query s)

def mustBeTrue (query : Query) (s : σ) : Except Abort (Option Bool × σ) :=
  if query.expr.getWidth ≠ 1 then .error .assertion
  else
    match query.expr with
    | .constant _ value => .ok (some (value ≠ 0), s)
    | _ => .ok (impl.computeTruth query s)

def mustBeFalse (query : Query) (s : σ) : Except Abort (Option Bool × σ) := do
  mustBeTrue impl (← query.negateExpr opt) s

def mayBeTrue (query : Query) (s : σ) : Except Abort (Option Bool × σ) := do
  let (res, s) ← mustBeFalse opt impl query s
  return (res.map not, s)

/-- The assertion that the solver has not failed. -/
def assertSuccess {α : Type} (result : Option α × σ) : Except Abort (α × σ) :=
  match result.1 with
  | some answer => .ok (answer, result.2)
  | none => .error .assertion

variable (query : Query)

/-- Whether `e >> mid` is always zero. -/
def fitsBits (mid : Nat) (s : σ) : Except Abort (Bool × σ) := do
  let width := query.expr.getWidth
  let shifted ← LShrExpr.create opt query.expr (← ConstantExpr.create mid width)
  let isZero ← EqExpr.create opt shifted (← ConstantExpr.create 0 width)
  assertSuccess (← mustBeTrue impl (query.withExpr isZero) s)

/-- Whether `e` may be zero. -/
def mayBeZero (s : σ) : Except Abort (Bool × σ) := do
  let isZero ← EqExpr.create opt query.expr (← ConstantExpr.create 0 query.expr.getWidth)
  assertSuccess (← mayBeTrue opt impl (query.withExpr isZero) s)

/-- Whether `e` may be `mid` or less. -/
def mayBeAtMost (mid : Nat) (s : σ) : Except Abort (Bool × σ) := do
  let isAtMost ← UleExpr.create opt query.expr (← ConstantExpr.create mid query.expr.getWidth)
  assertSuccess (← mayBeTrue opt impl (query.withExpr isAtMost) s)

/-- Whether `e` must be `mid` or less. -/
def mustBeAtMost (mid : Nat) (s : σ) : Except Abort (Bool × σ) := do
  let isAtMost ← UleExpr.create opt query.expr (← ConstantExpr.create mid query.expr.getWidth)
  assertSuccess (← mustBeTrue impl (query.withExpr isAtMost) s)

/-- The loops of `getRange`. 64 steps are enough for each of them. -/
def search (ask : Nat → σ → Except Abort (Bool × σ)) (lo hi : Nat) (s : σ) : Except Abort (Nat × σ) :=
  BinarySearch.search .unfinished (2 ^ 64) ask 64 lo hi s

/-- The least value; `res` tells whether it is zero. -/
def searchMin (res : Bool) (bits : Nat) (s : σ) : Except Abort (Nat × σ) :=
  if res then .ok (0, s) else search (mayBeAtMost opt impl query) 0 (maxValueOfNBits bits) s

/-- The last branch of `getRange`: the useful bits, the least value and the greatest value. -/
def searchRange (s : σ) : Except Abort ((Nat × Nat) × σ) := do
  let (bits, s) ← search (fitsBits opt impl query) 0 query.expr.getWidth s
  -- check common case
  let (res, s) ← mayBeZero opt impl query s
  let (min, s) ← searchMin opt impl query res bits s
  let (max, s) ← search (mustBeAtMost opt impl query) min (maxValueOfNBits bits) s
  return ((min, max), s)

/-- `min` and `max`. -/
def rangeValues (s : σ) : Except Abort ((Nat × Nat) × σ) :=
  if query.expr.getWidth = 1 then do
    let (result, s) ← assertSuccess (← evaluate impl query s)
    match result with
    | .True => return ((1, 1), s)
    | .False => return ((0, 0), s)
    | .Unknown => return ((0, 1), s)
  else
    match query.expr with
    | .constant width value =>
      -- `getZExtValue` asserts that the value has at most 64 bits
      if 64 < width then .error .assertion else .ok ((value.toNat, value.toNat), s)
    | _ => searchRange opt impl query s

def getRange (s : σ) : Except Abort ((Expr × Expr) × σ) := do
  let ((min, max), s) ← rangeValues opt impl query s
  let width := query.expr.getWidth
  return ((← ConstantExpr.create min width, ← ConstantExpr.create max width), s)

end Solver
end CapTaint.Klee
