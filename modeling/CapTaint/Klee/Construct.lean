import CapTaint.Lib.Memo
import CapTaint.Klee.STPBuilder
import CapTaint.Klee.ExprRangeEvaluator

/-! # Terms for expressions

`STPBuilder::construct`. The terms are given by their values in one model of STP, an assignment of the elements of the arrays,
which are free also behind the end of an array. There is no term where STP reports a type error or an assertion fails. The
table of the terms of array versions, whose keys are addresses of update nodes, is left out. -/

namespace CapTaint.Klee

/-- The operators of STP for quotients and remainders. -/
abbrev StpDivision := ArithKind → (w : Nat) → BitVec w → BitVec w → BitVec w

namespace STP

/-- `vc_bvDivExpr`, `vc_sbvDivExpr`, `vc_bvModExpr` and `vc_sbvModExpr`. -/
def divide (division : StpDivision) (kind : ArithKind) (width : Nat) (l r : Term) : Option Term :=
  if l.width = width ∧ r.width = width then
    some (.ofInt width (division kind width (.ofNat width l.value) (.ofNat width r.value)).toNat)
  else none

/-- The comparisons of vectors; `ne` is not constructed. -/
def compare [STP] : CmpKind → Term → Term → Option Bool
  | .eq => vc_eqExpr
  | .ult => vc_bvLtExpr
  | .ule => vc_bvLeExpr
  | .slt => vc_sbvLtExpr
  | .sle => vc_sbvLeExpr
  | .ne => fun _ _ => none

end STP

/-! ### Constants and shifts -/

namespace STPBuilder
open STP

variable [STP]

def bvConst64 (width : Nat) (value : BitVec 64) : Term := vc_bvConstExprFromLL width value

/-- The loop of `bvZExtConst` and what follows it. -/
def zextLoop (width : Nat) (expr : Term) : Term :=
  if 64 < width then zextLoop (width - 64) (vc_bvConcatExpr (bvConst64 64 0) expr)
  else vc_bvConcatExpr (bvConst64 width 0) expr
termination_by width

def bvZExtConst (width : Nat) (value : BitVec 64) : Term :=
  if width ≤ 64 then bvConst64 width value else zextLoop (width - 64) (bvConst64 64 value)

def bvSExtConst (width : Nat) (value : BitVec 64) : Option Term :=
  if width ≤ 64 then some (bvConst64 width value) else vc_bvSignExtend (bvConst64 64 value) width

/-- The loop for constants of more than 64 bits. -/
def constantLoop (width : Nat) (tmp : BitVec width) (res : Term) : Term :=
  if 64 < width then
    let rest := tmp.extractLsb' 64 (width - 64)
    constantLoop (width - 64) rest
      (vc_bvConcatExpr (bvConst64 (min 64 (width - 64)) ((rest.extractLsb' 0 (min 64 (width - 64))).setWidth 64)) res)
  else res
termination_by width

def constructConstant (width : Nat) (value : BitVec width) : Option STPExpr :=
  if width = 1 then some (.bool (value.toNat = 1))
  else if width ≤ 32 then (bvConst32 width (value.setWidth 32)).map .bv
  else if width ≤ 64 then some (.bv (bvConst64 width (value.setWidth 64)))
  else some (.bv (constantLoop width value (bvConst64 64 ((value.extractLsb' 0 64).setWidth 64))))

/-- One case of the amount in `bvVarLeftShift`. -/
def leftShiftCase (expr shift res : Term) (i : Nat) : Option Term := do
  iteTerm (← vc_eqExpr shift (← bvConst32 expr.width (BitVec.ofNat 32 i))) (← bvLeftShift expr i) res

/-- An amount of at least the width gives zero. -/
def overshift (expr shift res : Term) : Option Term := do
  iteTerm (← vc_bvLtExpr shift (← bvConst32 shift.width (BitVec.ofNat 32 expr.width))) res (bvZExtConst expr.width 0)

def bvVarLeftShift (expr shift : Term) : Option Term := do
  let res ← (List.range expr.width).reverse.foldlM (leftShiftCase expr shift) (bvZExtConst expr.width 0)
  overshift expr shift res

def constructAShrByConstant (expr : Term) (shift : Nat) (isSigned : Bool) : Option Term :=
  if shift = 0 then some expr
  else if expr.width - 1 ≤ shift then some (bvZExtConst expr.width 0)
  else do
    iteTerm isSigned (vc_bvConcatExpr (← bvSExtConst shift (-1)) (← vc_bvExtract expr (expr.width - 1) shift))
      (← bvRightShift expr shift)

/-- One case of the amount in `bvVarArithRightShift`. -/
def arithShiftCase (expr shift : Term) (signedBool : Bool) (res : Term) (i : Nat) : Option Term := do
  iteTerm (← vc_eqExpr shift (← bvConst32 expr.width (BitVec.ofNat 32 i))) (← constructAShrByConstant expr i signedBool) res

def bvVarArithRightShift (expr shift : Term) : Option Term := do
  let signedBool ← bvBoolExtract expr (expr.width - 1)
  -- the start is the result of a shift by the width less one
  let start ← constructAShrByConstant expr (expr.width - 1) signedBool
  let res ← (List.range (expr.width - 1)).reverse.foldlM (arithShiftCase expr shift signedBool) start
  overshift expr shift res

/-! ### Arrays -/

/-- The element of a constant array is written over the free one. -/
def writeConstant (root : Array) (array : STPArray) (i : Nat) : Option STPArray := do
  let value ← root.constantValues[i]?
  vc_writeExpr array (← constructConstant root.domain (.ofNat root.domain i)) (← constructConstant root.range value)

def getInitialArray (v : Valuation) (root : Array) : Option STPArray :=
  let array : STPArray := ⟨root.domain, root.range, fun i => v root i % 2 ^ root.range⟩
  if root.isConstantArray then (List.range root.size).foldlM (writeConstant root) array else some array

def getInitialRead (v : Valuation) (root : Array) (index : Nat) : Option STPExpr := do
  vc_readExpr (← getInitialArray v root) (.bv (← bvConst32 32 (BitVec.ofNat 32 index)))

/-! ### Operators -/

/-- Terms with their widths, and the table of those that were constructed. -/
abbrev Build : Type → Type := Memo Expr (STPExpr × Nat)

/-- A constant operand of at most 64 bits. -/
def smallConstant : Expr → Option (BitVec 64)
  | .constant width value => if width ≤ 64 then some (value.setWidth 64) else none
  | _ => none

/-- A constant operand by its limited value, cast to `unsigned`. -/
def constantShift : Expr → Option Nat
  | .constant _ value => some (min value.toNat (2 ^ 64 - 1) % 2 ^ 32)
  | _ => none

/-- The operand of an operator that is asserted not to be of one bit. -/
def operand (width : Nat) (e : STPExpr) : Option Term := if width = 1 then none else e.asBv

/-- Addition, subtraction and the remainder with sign. -/
def constructPlain (op : Nat → Term → Term → Option Term) (left right : Build (STPExpr × Nat)) : Build (STPExpr × Nat) := do
  let (left, _) ← left
  let (right, width) ← right
  return (.bv (← op width (← operand width left) (← operand width right)), width)

def constructMul (kid : Expr) (left right : Build (STPExpr × Nat)) : Build (STPExpr × Nat) := do
  let (right, width) ← right
  let right ← operand width right
  match smallConstant kid with
  | some x => return (.bv (← constructMulByConstant right width x), width)
  | none =>
    let (left, width) ← left
    return (.bv (← vc_bvMultExpr width (← left.asBv) right), width)

/-- The quotient by a constant, if it needs no division. -/
def udivByConstant (optimizeDivides : Bool) (width : Nat) (left : Term) (divisor : BitVec 64) : Option (Option Term) :=
  if isPowerOfTwo divisor then some (bvRightShift left (Bits.indexOfSingleBit divisor))
  else if optimizeDivides ∧ width = 32 then some (constructUDivByConstant left width ((divisor.setWidth 32).setWidth 64))
  else none

/-- The remainder by a constant, if it needs no division. -/
def uremByConstant (optimizeDivides : Bool) (width : Nat) (left : Term) (divisor : BitVec 64) : Option (Option Term) :=
  if isPowerOfTwo divisor then
    let bits := Bits.indexOfSingleBit divisor
    if bits = 0 then some (some (bvZExtConst width 0))
    else some ((vc_bvExtract left (bits - 1) 0).map (vc_bvConcatExpr (bvZExtConst (width - bits) 0)))
  else if optimizeDivides ∧ width = 32 then
    some (do
      let quotient ← constructUDivByConstant left width ((divisor.setWidth 32).setWidth 64)
      let quot_times_divisor ← constructMulByConstant quotient width divisor
      vc_bvMinusExpr width left quot_times_divisor)
  else none

/-- The quotient with sign by a constant. -/
def sdivByConstant (optimizeDivides : Bool) (width : Nat) (left : Term) (divisor : BitVec 64) : Option (Option Term) :=
  if optimizeDivides ∧ width = 32 then some (constructSDivByConstant left width divisor) else none

/-- The quotients and the remainder without sign. -/
def constructDivision (division : StpDivision) (kind : ArithKind) (byConstant : Nat → Term → BitVec 64 → Option (Option Term))
    (divisor : Option (BitVec 64)) (left right : Build (STPExpr × Nat)) : Build (STPExpr × Nat) := do
  let (left, width) ← left
  let left ← operand width left
  match divisor.bind (byConstant width left) with
  | some res => return (.bv (← res), width)
  | none =>
    let (right, width) ← right
    return (.bv (← divide division kind width left (← right.asBv)), width)

def constructBitwise (formula : STPExpr → STPExpr → Option STPExpr) (op : Term → Term → Option Term)
    (left right : Build (STPExpr × Nat)) : Build (STPExpr × Nat) := do
  let (left, _) ← left
  let (right, width) ← right
  if width = 1 then return (← formula left right, width)
  else return (.bv (← op (← left.asBv) (← right.asBv)), width)

/-- The exclusive or of formulas. -/
def xorFormula (left right : STPExpr) : Option STPExpr := do vc_iteExpr left (← vc_notExpr right) right

def constructShift (byConstant : Term → Nat → Option Term) (byTerm : Term → Term → Option Term) (amount : Option Nat)
    (left right : Build (STPExpr × Nat)) : Build (STPExpr × Nat) := do
  let (left, width) ← left
  let left ← operand width left
  match amount with
  | some shift => return (.bv (← byConstant left shift), width)
  | none =>
    let (amount, _) ← right
    return (.bv (← byTerm left (← amount.asBv)), width)

def ashrByConstant (left : Term) (shift : Nat) : Option Term := do
  constructAShrByConstant left shift (← bvBoolExtract left (left.width - 1))

def constructEq (kid : Expr) (left right : Build (STPExpr × Nat)) : Build (STPExpr × Nat) := do
  let (left, _) ← left
  let (right, width) ← right
  if width = 1 then
    match kid with
    | .constant _ value => if value.toNat = 1 then return (right, 1) else return (← vc_notExpr right, 1)
    | _ => return (← vc_iffExpr left right, 1)
  else return (.bool (← STP.compare .eq (← left.asBv) (← right.asBv)), 1)

def constructOrder (kind : CmpKind) (left right : Build (STPExpr × Nat)) : Build (STPExpr × Nat) := do
  let (left, _) ← left
  let (right, width) ← right
  return (.bool (← STP.compare kind (← operand width left) (← operand width right)), 1)

variable (division : StpDivision) (optimizeDivides : Bool)

def constructArith (kind : ArithKind) (l r : Expr) (left right : Build (STPExpr × Nat)) : Build (STPExpr × Nat) :=
  match kind with
  | .add => constructPlain vc_bvPlusExpr left right
  | .sub => constructPlain vc_bvMinusExpr left right
  | .mul => constructMul l left right
  | .udiv => constructDivision division .udiv (udivByConstant optimizeDivides) (smallConstant r) left right
  | .sdiv => constructDivision division .sdiv (sdivByConstant optimizeDivides) (smallConstant r) left right
  | .urem => constructDivision division .urem (uremByConstant optimizeDivides) (smallConstant r) left right
  | .srem => constructPlain (divide division .srem) left right
  | .and => constructBitwise vc_andExpr vc_bvAndExpr left right
  | .or => constructBitwise vc_orExpr vc_bvOrExpr left right
  | .xor => constructBitwise xorFormula vc_bvXorExpr left right
  | .shl => constructShift bvLeftShift bvVarLeftShift (constantShift r) left right
  | .lshr => constructShift bvRightShift bvVarRightShift (constantShift r) left right
  | .ashr => constructShift ashrByConstant bvVarArithRightShift (constantShift r) left right

def constructCmp (kind : CmpKind) (l : Expr) (left right : Build (STPExpr × Nat)) : Build (STPExpr × Nat) :=
  match kind with
  | .eq => constructEq l left right
  | .ne => failure
  | kind => constructOrder kind left right

/-- A cast from one bit chooses between two constants. -/
def constructCast (one : Option Term) (widen : Term → Option Term) (width : Nat) (src : Build (STPExpr × Nat)) :
    Build (STPExpr × Nat) := do
  let (src, srcWidth) ← src
  if srcWidth = 1 then return (← vc_iteExpr src (.bv (← one)) (.bv (bvZExtConst width 0)), width)
  else return (.bv (← widen (← src.asBv)), width)

def zextTerm (width : Nat) (src : Term) : Option Term := some (vc_bvConcatExpr (bvZExtConst (width - src.width) 0) src)

def extractTerm (offset width : Nat) (src : Term) : Option STPExpr :=
  if width = 1 then (bvBoolExtract src offset).map .bool
  else (vc_bvExtract src (offset + width - 1) offset).map .bv

/-! ### The builder -/

variable (useConstructHash : Bool) (v : Valuation)

/-- `construct` of an expression that is no constant. -/
def remembered (e : Expr) (actual : Build (STPExpr × Nat)) : Build (STPExpr × Nat) :=
  if useConstructHash then Memo.remember e actual else actual

mutual
def construct : Expr → Build (STPExpr × Nat)
  | .constant width value => do return (← constructConstant width value, width)
  | .notOptimized src => remembered useConstructHash (.notOptimized src) (construct src)
  | .read updates index => remembered useConstructHash (.read updates index) do
    let array ← getArrayForUpdate updates
    let (index, _) ← construct index
    return (← vc_readExpr array index, updates.array.range)
  | .select cond trueExpr falseExpr => remembered useConstructHash (.select cond trueExpr falseExpr) do
    let (cond, _) ← construct cond
    let (tExpr, _) ← construct trueExpr
    let (fExpr, width) ← construct falseExpr
    return (← vc_iteExpr cond tExpr fExpr, width)
  | .concat left right => remembered useConstructHash (.concat left right) do
    let (res, _) ← construct right
    let (kid, _) ← construct left
    return (.bv (vc_bvConcatExpr (← kid.asBv) (← res.asBv)), left.getWidth + right.getWidth)
  | .extract expr offset width => remembered useConstructHash (.extract expr offset width) do
    let (src, _) ← construct expr
    return (← extractTerm offset width (← src.asBv), width)
  | .zext src width => remembered useConstructHash (.zext src width)
    (constructCast (some (bvZExtConst width 1)) (zextTerm width) width (construct src))
  | .sext src width => remembered useConstructHash (.sext src width)
    (constructCast (bvSExtConst width (-1)) (vc_bvSignExtend · width) width (construct src))
  | .not expr => remembered useConstructHash (.not expr) do
    let (expr, width) ← construct expr
    if width = 1 then return (← vc_notExpr expr, width)
    else return (.bv (vc_bvNotExpr (← expr.asBv)), width)
  | .arith kind left right => remembered useConstructHash (.arith kind left right)
    (constructArith division optimizeDivides kind left right (construct left) (construct right))
  | .cmp kind left right => remembered useConstructHash (.cmp kind left right)
    (constructCmp kind left (construct left) (construct right))

/-- The array of a version, and the expressions of its updates. -/
def getArrayForUpdate : UpdateList → Build STPArray
  | .root array => liftM (getInitialArray v array)
  | .extend next index value => do
    let array ← getArrayForUpdate next
    let (index, _) ← construct index
    let (value, _) ← construct value
    liftM (vc_writeExpr array index value)
end

/-- The term of an expression; the table is cleared. -/
def constructTerm (e : Expr) : Option STPExpr :=
  (construct division optimizeDivides useConstructHash v e).value.map Prod.fst

end STPBuilder
end CapTaint.Klee
