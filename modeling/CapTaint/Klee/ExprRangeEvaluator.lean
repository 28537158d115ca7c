import CapTaint.Klee.Range

/-! # The range evaluator

`ValueRange` and `ExprRangeEvaluator<ValueRange>`. A range is a pair of 64-bit numbers, and the range whose minimum is above
its maximum is empty. A failed assertion has no result, and neither has a shift by 64 bits or more. -/

namespace CapTaint.Klee

/-! ## Bounds of the bitwise operators

The loops run through the bits from the highest on; `m` is the bit. -/

def minOR (a b c d : BitVec 64) : BitVec 64 := loop 64
where
  loop : Nat → BitVec 64
    | 0 => a ||| c
    | k + 1 =>
      let m := 1#64 <<< k
      if ~~~a &&& c &&& m ≠ 0 then
        let temp := (a ||| m) &&& -m
        if temp ≤ b then temp ||| c else loop k
      else if a &&& ~~~c &&& m ≠ 0 then
        let temp := (c ||| m) &&& -m
        if temp ≤ d then a ||| temp else loop k
      else loop k

def maxOR (a b c d : BitVec 64) : BitVec 64 := loop 64
where
  loop : Nat → BitVec 64
    | 0 => b ||| d
    | k + 1 =>
      let m := 1#64 <<< k
      if b &&& d &&& m ≠ 0 then
        let temp := (b - m) ||| (m - 1)
        if a ≤ temp then temp ||| d
        else
          let temp := (d - m) ||| (m - 1)
          if c ≤ temp then b ||| temp else loop k
      else loop k

def minAND (a b c d : BitVec 64) : BitVec 64 := loop 64
where
  loop : Nat → BitVec 64
    | 0 => a &&& c
    | k + 1 =>
      let m := 1#64 <<< k
      if ~~~a &&& ~~~c &&& m ≠ 0 then
        let temp := (a ||| m) &&& -m
        if temp ≤ b then temp &&& c
        else
          let temp := (c ||| m) &&& -m
          if temp ≤ d then a &&& temp else loop k
      else loop k

def maxAND (a b c d : BitVec 64) : BitVec 64 := loop 64
where
  loop : Nat → BitVec 64
    | 0 => b &&& d
    | k + 1 =>
      let m := 1#64 <<< k
      if b &&& ~~~d &&& m ≠ 0 then
        let temp := (b &&& ~~~m) ||| (m - 1)
        if a ≤ temp then temp &&& d else loop k
      else if ~~~b &&& d &&& m ≠ 0 then
        let temp := (d &&& ~~~m) ||| (m - 1)
        if c ≤ temp then b &&& temp else loop k
      else loop k

def withoutRightmostBit (x : BitVec 64) : BitVec 64 := x &&& (x - 1)

def isPowerOfTwo (x : BitVec 64) : Bool := x ≠ 0 ∧ withoutRightmostBit x = 0

/-- The loop of `binaryXor`. Each step clears a bit; for zero there is no end. -/
def leadingBit : Nat → BitVec 64 → Option (BitVec 64)
  | 0, _ => none
  | n + 1, t => if isPowerOfTwo t then some t else leadingBit n (withoutRightmostBit t)

/-- `ints::sext` to 64 bits, as a signed number. -/
def sext (l : BitVec 64) (inWidth : Nat) : Int := ((l <<< (64 - inWidth)).sshiftRight (64 - inWidth)).toInt

/-! ## Ranges -/

structure ValueRange where
  min : BitVec 64
  max : BitVec 64
  deriving DecidableEq, Repr

namespace ValueRange

variable (r b : ValueRange)

def empty : ValueRange := ⟨1, 0⟩

def fixed (value : BitVec 64) : ValueRange := ⟨value, value⟩

def isEmpty : Bool := r.max < r.min

def isFixed : Bool := r.min = r.max

def set_intersection : ValueRange :=
  ⟨if r.min ≤ b.min then b.min else r.min, if r.max ≤ b.max then r.max else b.max⟩

def set_union : ValueRange :=
  ⟨if r.min ≤ b.min then r.min else b.min, if r.max ≤ b.max then b.max else r.max⟩

def intersects : Bool := !(r.set_intersection b).isEmpty

def isFullRange (bits : Nat) : Bool := r.min = 0 ∧ r.max = .ofNat 64 (maxValueOfNBits bits)

def binaryAnd : Option ValueRange :=
  if r.isEmpty ∨ b.isEmpty then none
  else if r.isFixed ∧ b.isFixed then some (fixed (r.min &&& b.min))
  else some ⟨minAND r.min r.max b.min b.max, maxAND r.min r.max b.min b.max⟩

def binaryOr : Option ValueRange :=
  if r.isEmpty ∨ b.isEmpty then none
  else if r.isFixed ∧ b.isFixed then some (fixed (r.min ||| b.min))
  else some ⟨minOR r.min r.max b.min b.max, maxOR r.min r.max b.min b.max⟩

def binaryXor : Option ValueRange :=
  if r.isFixed ∧ b.isFixed then some (fixed (r.min ^^^ b.min))
  else (leadingBit 65 (r.max ||| b.max)).map fun t : BitVec 64 => ⟨0, (t <<< 1) - 1⟩

def binaryShiftLeft (bits : Nat) : ValueRange := ⟨r.min <<< bits, r.max <<< bits⟩

def concat (bits : Nat) : Option ValueRange := (r.binaryShiftLeft bits).binaryOr b

/-- The range of the operators that nothing is known of. -/
def full (width : Nat) : Option ValueRange := if width ≤ 64 then some ⟨0, .ofNat 64 (maxValueOfNBits width)⟩ else none

def mustEqualValue (value : BitVec 64) : Bool := r.min = r.max ∧ r.min = value

def mustEqual : Bool := r.isFixed ∧ b.isFixed ∧ r.min = b.min

def mayEqual : Bool := r.intersects b

def getMin : Option (BitVec 64) := if r.isEmpty then none else some r.min

def getMax : Option (BitVec 64) := if r.isEmpty then none else some r.max

/-- The assertion that the range is inside of the given number of bits. -/
def insideBits (bits : Nat) : Bool := bits < 64 ∧ r.min >>> bits = 0 ∧ r.max >>> bits = 0

def minSigned (bits : Nat) : Option Int :=
  if r.insideBits bits then
    let smallest := 1#64 <<< (bits - 1)
    some (if smallest ≤ r.max then sext smallest bits else r.min.toInt)
  else none

def maxSigned (bits : Nat) : Option Int :=
  if r.insideBits bits then
    let smallest := 1#64 <<< (bits - 1)
    some (if r.min < smallest ∧ smallest ≤ r.max then (smallest - 1).toInt else sext r.max bits)
  else none

end ValueRange

/-! ## The evaluator -/

/-- `ConstantExpr::getLimitedValue` -/
def getLimitedValue {width : Nat} (value : BitVec width) : BitVec 64 :=
  if value.toNat < 2 ^ 64 then .ofNat 64 value.toNat else .allOnes 64

namespace ExprRangeEvaluator

open ValueRange (full fixed)

/-- What a comparison gives that must hold, or cannot. -/
def decided (must cannot : Bool) : Option ValueRange :=
  if must then some (fixed 1) else if cannot then some (fixed 0) else full 1

def evaluateCmp (bits : Nat) (left right : ValueRange) : CmpKind → Option ValueRange
  | .eq => decided (left.mustEqual right) (!left.mayEqual right)
  | .ult => do decided ((← left.getMax) < (← right.getMin)) ((← right.getMax) ≤ (← left.getMin))
  | .ule => do decided ((← left.getMax) ≤ (← right.getMin)) ((← right.getMax) < (← left.getMin))
  | .slt => do
    decided ((← left.maxSigned bits) < (← right.minSigned bits)) ((← right.maxSigned bits) ≤ (← left.minSigned bits))
  | .sle => do
    decided ((← left.maxSigned bits) ≤ (← right.minSigned bits)) ((← right.maxSigned bits) < (← left.minSigned bits))
  -- `invalid expressions (uncanonicalized)`
  | .ne => none

def evaluateArith (width : Nat) (left right : ValueRange) : ArithKind → Option ValueRange
  | .and => left.binaryAnd right
  | .or => left.binaryOr right
  | .xor => left.binaryXor right
  | _ => full width

/-- The shifts do not look at their operands. -/
def isShift : ArithKind → Bool
  | .shl | .lshr | .ashr => true
  | _ => false

variable (getInitialReadRange : Array → ValueRange → ValueRange)

mutual
def evaluate : Expr → Option ValueRange
  | .constant _ value => some (fixed (getLimitedValue value))
  | .notOptimized src => full src.getWidth
  | .read updates index => do evalRead updates (← evaluate index) .empty
  | .select cond trueExpr falseExpr => do
    let cond ← evaluate cond
    if cond.mustEqualValue 1 then evaluate trueExpr
    else if cond.mustEqualValue 0 then evaluate falseExpr
    else return (← evaluate trueExpr).set_union (← evaluate falseExpr)
  -- both kids are appended as bytes, whatever the width of the right one
  | .concat left right => do
    let res ← (fixed 0).concat (← evaluate left) 8
    res.concat (← evaluate right) 8
  | .extract _ _ width => full width
  | .zext _ width => full width
  | .sext _ width => full width
  | .not expr => full expr.getWidth
  | .arith kind left right =>
    if isShift kind then full left.getWidth
    else do evaluateArith left.getWidth (← evaluate left) (← evaluate right) kind
  | .cmp kind left right => do evaluateCmp left.getWidth (← evaluate left) (← evaluate right) kind

/-- `res` is what the updates in front add. -/
def evalRead : UpdateList → ValueRange → ValueRange → Option ValueRange
  | .root array, index, res => some (res.set_union (getInitialReadRange array index))
  | .extend next updateIndex value, index, res => do
    let ui ← evaluate updateIndex
    if ui.mustEqual index then return res.set_union (← evaluate value)
    else if ui.mayEqual index then
      let res := res.set_union (← evaluate value)
      if res.isFullRange 8 then return res else evalRead next index res
    else evalRead next index res
end

end ExprRangeEvaluator

/-- `CexRangeEvaluator::getInitialReadRange` -/
def CexRangeEvaluator.getInitialReadRange (array : Array) (index : ValueRange) : ValueRange :=
  if array.isConstantArray ∧ index.isFixed ∧ index.min.toNat < array.size then
    .fixed (.ofNat 64 ((array.constantValues[index.min.toNat]?.map (·.toNat)).getD 0))
  else ⟨0, 255⟩

end CapTaint.Klee
