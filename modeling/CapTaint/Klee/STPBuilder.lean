import CapTaint.Klee.ConstantDivision

/-! # Multiplications and divisions by constants

The part of `STPBuilder` that constructs them, over the values of the terms. The functions of STP are a parameter. STP asks
for operands of the widths that an operator prescribes, and the two sides of an equation must have the same type; there is no
term otherwise. -/

namespace CapTaint.Klee

/-- A bit vector of STP by its value. -/
structure Term where
  width : Nat
  value : Nat
  lt : value < 2 ^ width
  deriving DecidableEq

namespace Term

/-- The term of a width whose value is a number modulo two to the width. -/
def ofInt (width : Nat) (x : Int) : Term where
  width := width
  value := (x % (2 ^ width : Nat)).toNat
  lt := by
    have hpos : (0 : Int) < (2 ^ width : Nat) := by exact_mod_cast Nat.two_pow_pos width
    have := Int.emod_lt_of_pos x hpos
    have := Int.emod_nonneg x hpos.ne'
    omega

/-- The value as a signed number. -/
def toInt (t : Term) : Int := if 2 * t.value < 2 ^ t.width then t.value else t.value - (2 ^ t.width : Nat)

end Term

/-- A formula or a bit vector. -/
inductive STPExpr
  | bool (b : Bool)
  | bv (t : Term)
  deriving DecidableEq

namespace STPExpr

def asBool : STPExpr → Option Bool
  | bool b => some b
  | bv _ => none

def asBv : STPExpr → Option Term
  | bool _ => none
  | bv t => some t

end STPExpr

structure STPArray where
  indexWidth : Nat
  valueWidth : Nat
  elements : Nat → Nat

/-! ### The interface of STP -/

/-- The functions of STP that the builder calls, on values. There is no term where the type check of STP fails. -/
class STP where
  vc_bvPlusExpr : Nat → Term → Term → Option Term
  vc_bvMinusExpr : Nat → Term → Term → Option Term
  vc_bvMultExpr : Nat → Term → Term → Option Term
  vc_bvUMinusExpr : Term → Term
  vc_bvNotExpr : Term → Term
  vc_bvAndExpr : Term → Term → Option Term
  vc_bvOrExpr : Term → Term → Option Term
  vc_bvXorExpr : Term → Term → Option Term
  vc_bvConcatExpr : Term → Term → Term
  vc_bvExtract : Term → Nat → Nat → Option Term
  vc_bvSignExtend : Term → Nat → Option Term
  vc_eqExpr : Term → Term → Option Bool
  vc_bvLtExpr : Term → Term → Option Bool
  vc_bvLeExpr : Term → Term → Option Bool
  vc_sbvLtExpr : Term → Term → Option Bool
  vc_sbvLeExpr : Term → Term → Option Bool
  vc_notExpr : STPExpr → Option STPExpr
  vc_andExpr : STPExpr → STPExpr → Option STPExpr
  vc_orExpr : STPExpr → STPExpr → Option STPExpr
  vc_iffExpr : STPExpr → STPExpr → Option STPExpr
  vc_iteExpr : STPExpr → STPExpr → STPExpr → Option STPExpr
  vc_bvConstExprFromInt : Nat → Nat → Option Term
  vc_bvConstExprFromLL : Nat → BitVec 64 → Term
  vc_readExpr : STPArray → STPExpr → Option STPExpr
  vc_writeExpr : STPArray → STPExpr → STPExpr → Option STPArray

namespace STP

/-- Both operands have the width. -/
def arith (op : Int → Int → Int) (width : Nat) (l r : Term) : Option Term :=
  if l.width = width ∧ r.width = width then some (.ofInt width (op l.value r.value)) else none

/-- The bitwise operators have no argument for the width. -/
def bitwise (op : Nat → Nat → Nat) (l r : Term) : Option Term :=
  if l.width = r.width then some (.ofInt l.width (op l.value r.value : Nat)) else none

/-- A relation between vectors of one width. -/
def relation (holds : Term → Term → Bool) (l r : Term) : Option Bool := if l.width = r.width then some (holds l r) else none

/-- The connectives of two formulas. -/
def connective (op : Bool → Bool → Bool) (l r : STPExpr) : Option STPExpr := return .bool (op (← l.asBool) (← r.asBool))

/-- Both branches are formulas, or vectors of one width. -/
def branches (cond : Bool) : STPExpr → STPExpr → Option STPExpr
  | .bool t, .bool e => some (.bool (if cond then t else e))
  | .bv t, .bv e => if t.width = e.width then some (.bv (if cond then t else e)) else none
  | _, _ => none

def readArray (array : STPArray) (index : Term) : Option STPExpr :=
  if index.width = array.indexWidth then some (.bv (.ofInt array.valueWidth (array.elements index.value))) else none

def writeArray (array : STPArray) (index value : Term) : Option STPArray :=
  if index.width = array.indexWidth ∧ value.width = array.valueWidth then
    some { array with elements := fun i => if index.value = i then value.value else array.elements i }
  else none

/-- What is documented of the functions: the types of the operands, and the value of the term. -/
class Documented [STP] : Prop where
  bvPlus : vc_bvPlusExpr = arith (· + ·)
  bvMinus : vc_bvMinusExpr = arith (· - ·)
  bvMult : vc_bvMultExpr = arith (· * ·)
  bvUMinus (t : Term) : vc_bvUMinusExpr t = .ofInt t.width (-t.value)
  bvNot (t : Term) : vc_bvNotExpr t = .ofInt t.width (~~~BitVec.ofNat t.width t.value).toNat
  bvAnd : vc_bvAndExpr = bitwise (· &&& ·)
  bvOr : vc_bvOrExpr = bitwise (· ||| ·)
  bvXor : vc_bvXorExpr = bitwise (· ^^^ ·)
  bvConcat (l r : Term) : vc_bvConcatExpr l r = .ofInt (l.width + r.width) (l.value * 2 ^ r.width + r.value : Nat)
  bvExtract (t : Term) (top bottom : Nat) : vc_bvExtract t top bottom =
    if bottom ≤ top ∧ top < t.width then some (.ofInt (top + 1 - bottom) (t.value / 2 ^ bottom : Nat)) else none
  bvSignExtend (t : Term) (width : Nat) : vc_bvSignExtend t width =
    if t.width ≤ width then some (.ofInt width t.toInt) else none
  eqExpr : vc_eqExpr = relation fun l r => l.value = r.value
  bvLt : vc_bvLtExpr = relation fun l r => l.value < r.value
  bvLe : vc_bvLeExpr = relation fun l r => l.value ≤ r.value
  sbvLt : vc_sbvLtExpr = relation fun l r => l.toInt < r.toInt
  sbvLe : vc_sbvLeExpr = relation fun l r => l.toInt ≤ r.toInt
  notExpr (e : STPExpr) : vc_notExpr e = e.asBool.map fun b => .bool !b
  andExpr : vc_andExpr = connective and
  orExpr : vc_orExpr = connective or
  iffExpr : vc_iffExpr = connective (· == ·)
  iteExpr (cond t e : STPExpr) : vc_iteExpr cond t e = cond.asBool.bind fun cond => branches cond t e
  /-- The value of the constant must fit. -/
  constFromInt (width value : Nat) : vc_bvConstExprFromInt width value =
    if value < 2 ^ width then some (.ofInt width value) else none
  constFromLL (width : Nat) (value : BitVec 64) : vc_bvConstExprFromLL width value = .ofInt width value.toNat
  readExpr (array : STPArray) (index : STPExpr) : vc_readExpr array index = index.asBv.bind (readArray array)
  writeExpr (array : STPArray) (index value : STPExpr) :
    vc_writeExpr array index value = index.asBv.bind fun index => value.asBv.bind (writeArray array index)

/-- The functions as they are documented. -/
@[reducible]
def values : STP where
  vc_bvPlusExpr := arith (· + ·)
  vc_bvMinusExpr := arith (· - ·)
  vc_bvMultExpr := arith (· * ·)
  vc_bvUMinusExpr t := .ofInt t.width (-t.value)
  vc_bvNotExpr t := .ofInt t.width (~~~BitVec.ofNat t.width t.value).toNat
  vc_bvAndExpr := bitwise (· &&& ·)
  vc_bvOrExpr := bitwise (· ||| ·)
  vc_bvXorExpr := bitwise (· ^^^ ·)
  vc_bvConcatExpr l r := .ofInt (l.width + r.width) (l.value * 2 ^ r.width + r.value : Nat)
  vc_bvExtract t top bottom :=
    if bottom ≤ top ∧ top < t.width then some (.ofInt (top + 1 - bottom) (t.value / 2 ^ bottom : Nat)) else none
  vc_bvSignExtend t width := if t.width ≤ width then some (.ofInt width t.toInt) else none
  vc_eqExpr := relation fun l r => l.value = r.value
  vc_bvLtExpr := relation fun l r => l.value < r.value
  vc_bvLeExpr := relation fun l r => l.value ≤ r.value
  vc_sbvLtExpr := relation fun l r => l.toInt < r.toInt
  vc_sbvLeExpr := relation fun l r => l.toInt ≤ r.toInt
  vc_notExpr e := e.asBool.map fun b => .bool !b
  vc_andExpr := connective and
  vc_orExpr := connective or
  vc_iffExpr := connective (· == ·)
  vc_iteExpr cond t e := cond.asBool.bind fun cond => branches cond t e
  vc_bvConstExprFromInt width value := if value < 2 ^ width then some (.ofInt width value) else none
  vc_bvConstExprFromLL width value := .ofInt width value.toNat
  vc_readExpr array index := index.asBv.bind (readArray array)
  vc_writeExpr array index value := index.asBv.bind fun index => value.asBv.bind (writeArray array index)

theorem values_documented : @Documented values := by apply @Documented.mk values <;> intros <;> rfl

end STP

/-! ### The builder -/

namespace STPBuilder
open STP ConstantDivision

variable [STP]

/-- `vc_iteExpr` between vectors. -/
def iteTerm (cond : Bool) (t e : Term) : Option Term := do (← vc_iteExpr (.bool cond) (.bv t) (.bv e)).asBv

def bvConst32 (width : Nat) (value : BitVec 32) : Option Term := vc_bvConstExprFromInt width value.toNat

/-- `bvZero` of at most 64 bits. -/
def bvZero (width : Nat) : Term := vc_bvConstExprFromLL width 0

/-- `bvOne` of at most 64 bits. -/
def bvOne (width : Nat) : Term := vc_bvConstExprFromLL width 1

/-- `bvMinusOne` of at most 64 bits. -/
def bvMinusOne (width : Nat) : Term := vc_bvConstExprFromLL width (-1)

def bvBoolExtract (expr : Term) (bit : Nat) : Option Bool := do
  vc_eqExpr (← vc_bvExtract expr bit bit) (bvOne 1)

def bvRightShift (expr : Term) (shift : Nat) : Option Term :=
  if shift = 0 then some expr
  else if expr.width ≤ shift then some (bvZero expr.width)
  else do
    return vc_bvConcatExpr (bvZero shift) (← vc_bvExtract expr (expr.width - 1) shift)

def bvLeftShift (expr : Term) (shift : Nat) : Option Term :=
  if shift = 0 then some expr
  else if expr.width ≤ shift then some (bvZero expr.width)
  else do
    return vc_bvConcatExpr (← vc_bvExtract expr (expr.width - shift - 1) 0) (bvZero shift)

/-- One case of the amount in `bvVarRightShift`. The constant has the width of the shifted term. -/
def shiftCase (expr shift res : Term) (i : Nat) : Option Term := do
  iteTerm (← vc_eqExpr shift (← bvConst32 expr.width (BitVec.ofNat 32 i))) (← bvRightShift expr i) res

/-- Logical right shift by a variable amount. -/
def bvVarRightShift (expr shift : Term) : Option Term := do
  let res ← (List.range expr.width).reverse.foldlM (shiftCase expr shift) (bvZero expr.width)
  -- if overshifting, shift to zero
  iteTerm (← vc_bvLtExpr shift (← bvConst32 shift.width (BitVec.ofNat 32 expr.width))) res (bvZero expr.width)

/-- The next summand. The sum is null before the first one. -/
def addOp (width : Nat) (op : Term) : Option Term → Option Term
  | some res => vc_bvPlusExpr width res op
  | none => some op

def subOp (width : Nat) (op : Term) : Option Term → Option Term
  | some res => vc_bvMinusExpr width res op
  | none => some (vc_bvUMinusExpr op)

/-- One bit of the loop of `constructMulByConstant`. -/
def mulBit (expr : Term) (width : Nat) (c : MultConstants) (res : Option Term) (j : Nat) : Option (Option Term) :=
  if c.add.getLsbD j || c.sub.getLsbD j then
    if c.add.getLsbD j && c.sub.getLsbD j then none
    else do
      let op ← bvLeftShift expr j
      (if c.add.getLsbD j then addOp width op res else subOp width op res).map some
  else some res

def constructMulByConstant (expr : Term) (width : Nat) (x : BitVec 64) : Option Term := do
  let c ← computeMultConstants64 x
  let res ← (List.range 64).reverse.foldlM
    (mulBit expr width ⟨Bits.truncateToNBits c.add width, Bits.truncateToNBits c.sub width⟩) none
  return res.getD (bvZero width)

def constructUDivByConstant (expr_n : Term) (width : Nat) (d : BitVec 64) : Option Term :=
  if width ≠ 32 then none
  else do
    let c ← computeUDivConstants32 (d.setWidth 32)
    let expr_sh1 ← bvConst32 32 c.sh1
    let expr_sh2 ← bvConst32 32 c.sh2
    -- t1 = MULUH(mprime, n)
    let expr_n_64 := vc_bvConcatExpr (bvZero 32) expr_n
    let t1_64bits ← constructMulByConstant expr_n_64 64 (c.mprime.setWidth 64)
    let t1 ← vc_bvExtract t1_64bits 63 32
    -- n/d = (((n - t1) >> sh1) + t1) >> sh2
    let n_minus_t1 ← vc_bvMinusExpr width expr_n t1
    let shift_sh1 ← bvVarRightShift n_minus_t1 expr_sh1
    let plus_t1 ← vc_bvPlusExpr width shift_sh1 t1
    bvVarRightShift plus_t1 expr_sh2

/-- `n + MULSH(mprime, n)`, extended to 64 bits for the shift. -/
def extendNpm (expr_n : Term) (width : Nat) (mprime : BitVec 32) : Option Term := do
  let expr_n_64 ← vc_bvSignExtend expr_n 64
  let mult_64 ← constructMulByConstant expr_n_64 64 (mprime.signExtend 64)
  let mulsh ← vc_bvExtract mult_64 63 32
  let n_plus_mulsh ← vc_bvPlusExpr width expr_n mulsh
  vc_bvSignExtend n_plus_mulsh 64

/-- What is done with the shifted term: the signs of the dividend and of the divisor. -/
def applySigns (expr_n : Term) (width : Nat) (shift_npm expr_dsign : Term) : Option Term := do
  let shift_shpost ← vc_bvExtract shift_npm 31 0
  -- XSIGN(n)
  let is_signed ← bvBoolExtract expr_n 31
  let xsign_of_n ← iteTerm is_signed (bvMinusOne 32) (bvZero 32)
  -- q0 = (n_plus_mulsh >> shpost) - XSIGN(n)
  let q0 ← vc_bvMinusExpr width shift_shpost xsign_of_n
  -- n/d = (q0 ^ dsign) - dsign
  let q0_xor_dsign ← vc_bvXorExpr q0 expr_dsign
  vc_bvMinusExpr width q0_xor_dsign expr_dsign

def constructSDivByConstant (expr_n : Term) (width : Nat) (d : BitVec 64) : Option Term :=
  if width ≠ 32 then none
  else do
    let c ← computeSDivConstants32 (d.setWidth 32)
    let expr_dsign ← bvConst32 32 c.dsign
    let expr_shpost ← bvConst32 32 c.shpost
    let extend_npm ← extendNpm expr_n width c.mprime
    let shift_npm ← bvVarRightShift extend_npm expr_shpost
    applySigns expr_n width shift_npm expr_dsign

end STPBuilder
end CapTaint.Klee
