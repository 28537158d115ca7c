import CapTaint.Theorems.Terms
import CapTaint.Klee.Construct

/-! # The meaning of terms

The term of an expression has the value of the expression. The conditions are on the forms of the expression (no signed
division by a constant of 32 bits, whose construction fails, no parts of one bit in concatenations and extractions) and on
the values: reads inside the arrays, divisors that are not zero, and no sign that is shifted out. -/

namespace CapTaint.Klee

/-! ### The table of constructed terms

Terms are the same with and without the table. -/

namespace STPBuilder
open STP Memo

variable {f : Expr → Option (STPExpr × Nat)} {left left' right right' : Build (STPExpr × Nat)}

theorem constructPlain_agrees (op : Nat → Term → Term → Option Term) (hleft : Agrees f left left') (hright : Agrees f right right') :
    Agrees f (constructPlain op left right) (constructPlain op left' right') :=
  hleft.bind fun _ => hright.bind fun _ => (Agrees.lift _).bind fun _ => (Agrees.lift _).bind fun _ =>
    (Agrees.lift _).bind fun _ => .pure _

theorem constructDivision_agrees (division : StpDivision) (kind : ArithKind)
    (byConstant : Nat → Term → BitVec 64 → Option (Option Term)) (divisor : Option (BitVec 64)) (hleft : Agrees f left left')
    (hright : Agrees f right right') :
    Agrees f (constructDivision division kind byConstant divisor left right)
      (constructDivision division kind byConstant divisor left' right') := by
  refine hleft.bind fun a => (Agrees.lift _).bind fun l => ?_
  dsimp only
  cases divisor.bind (byConstant a.2 l) with
  | some res => exact (Agrees.lift _).bind fun _ => .pure _
  | none => exact hright.bind fun _ => (Agrees.lift _).bind fun _ => (Agrees.lift _).bind fun _ => .pure _

theorem constructBitwise_agrees (formula : STPExpr → STPExpr → Option STPExpr) (op : Term → Term → Option Term)
    (hleft : Agrees f left left') (hright : Agrees f right right') :
    Agrees f (constructBitwise formula op left right) (constructBitwise formula op left' right') := by
  refine hleft.bind fun _ => hright.bind fun a => ?_
  dsimp only
  split
  case isTrue => exact (Agrees.lift _).bind fun _ => .pure _
  case isFalse => exact (Agrees.lift _).bind fun _ => (Agrees.lift _).bind fun _ => (Agrees.lift _).bind fun _ => .pure _

theorem constructShift_agrees (byConstant : Term → Nat → Option Term) (byTerm : Term → Term → Option Term) (amount : Option Nat)
    (hleft : Agrees f left left') (hright : Agrees f right right') :
    Agrees f (constructShift byConstant byTerm amount left right) (constructShift byConstant byTerm amount left' right') := by
  refine hleft.bind fun _ => (Agrees.lift _).bind fun _ => ?_
  cases amount with
  | some shift => exact (Agrees.lift _).bind fun _ => .pure _
  | none => exact hright.bind fun _ => (Agrees.lift _).bind fun _ => (Agrees.lift _).bind fun _ => .pure _

theorem remembered_agrees (useConstructHash : Bool) {e : Expr} {actual plain : Build (STPExpr × Nat)} (h : Agrees f actual plain)
    (hkey : f e = plain.value) : Agrees f (remembered useConstructHash e actual) plain := by
  cases useConstructHash with
  | true => exact h.remember hkey
  | false => exact h

variable [STP]

theorem constructMul_agrees (kid : Expr) (hleft : Agrees f left left') (hright : Agrees f right right') :
    Agrees f (constructMul kid left right) (constructMul kid left' right') := by
  refine hright.bind fun _ => (Agrees.lift _).bind fun _ => ?_
  cases smallConstant kid with
  | some x => exact (Agrees.lift _).bind fun _ => .pure _
  | none => exact hleft.bind fun _ => (Agrees.lift _).bind fun _ => (Agrees.lift _).bind fun _ => .pure _

theorem constructArith_agrees (division : StpDivision) (optimizeDivides : Bool) (kind : ArithKind) (l r : Expr)
    (hleft : Agrees f left left') (hright : Agrees f right right') :
    Agrees f (constructArith division optimizeDivides kind l r left right)
      (constructArith division optimizeDivides kind l r left' right') := by
  cases kind with
  | add | sub | srem => exact constructPlain_agrees _ hleft hright
  | mul => exact constructMul_agrees l hleft hright
  | udiv | sdiv | urem => exact constructDivision_agrees division _ _ _ hleft hright
  | and | or | xor => exact constructBitwise_agrees _ _ hleft hright
  | shl | lshr | ashr => exact constructShift_agrees _ _ _ hleft hright

theorem constructEq_agrees (kid : Expr) (hleft : Agrees f left left') (hright : Agrees f right right') :
    Agrees f (constructEq kid left right) (constructEq kid left' right') := by
  refine hleft.bind fun _ => hright.bind fun a => ?_
  dsimp only
  split
  case isTrue =>
    split
    case h_1 =>
      split
      case isTrue => exact .pure _
      case isFalse => exact (Agrees.lift _).bind fun _ => .pure _
    case h_2 => exact (Agrees.lift _).bind fun _ => .pure _
  case isFalse => exact (Agrees.lift _).bind fun _ => (Agrees.lift _).bind fun _ => (Agrees.lift _).bind fun _ => .pure _

theorem constructOrder_agrees (kind : CmpKind) (hleft : Agrees f left left') (hright : Agrees f right right') :
    Agrees f (constructOrder kind left right) (constructOrder kind left' right') :=
  hleft.bind fun _ => hright.bind fun _ => (Agrees.lift _).bind fun _ => (Agrees.lift _).bind fun _ =>
    (Agrees.lift _).bind fun _ => .pure _

theorem constructCmp_agrees (kind : CmpKind) (l : Expr) (hleft : Agrees f left left') (hright : Agrees f right right') :
    Agrees f (constructCmp kind l left right) (constructCmp kind l left' right') := by
  cases kind with
  | eq => exact constructEq_agrees l hleft hright
  | ne => exact .failure
  | ult | ule | slt | sle => exact constructOrder_agrees _ hleft hright

theorem constructCast_agrees (one : Option Term) (widen : Term → Option Term) (width : Nat) (h : Agrees f left left') :
    Agrees f (constructCast one widen width left) (constructCast one widen width left') := by
  refine h.bind fun a => ?_
  dsimp only
  split
  case isTrue => exact (Agrees.lift _).bind fun _ => (Agrees.lift _).bind fun _ => .pure _
  case isFalse => exact (Agrees.lift _).bind fun _ => (Agrees.lift _).bind fun _ => .pure _

/-! ### Expressions -/

variable (division : StpDivision) (optimizeDivides useConstructHash : Bool) (v : Valuation)

/-- The term of an expression that is constructed without the table. -/
def plainTerm (e : Expr) : Option (STPExpr × Nat) := (construct division optimizeDivides false v e).value

mutual
theorem construct_agrees : (e : Expr) → Agrees (plainTerm division optimizeDivides v)
    (construct division optimizeDivides useConstructHash v e) (construct division optimizeDivides false v e)
  | .constant _ _ => (Agrees.lift _).bind fun _ => .pure _
  | .notOptimized src => remembered_agrees _ (construct_agrees src) rfl
  | .read updates index => remembered_agrees _
    ((getArrayForUpdate_agrees updates).bind fun _ => (construct_agrees index).bind fun _ => (Agrees.lift _).bind fun _ => .pure _)
    rfl
  | .select c t e => remembered_agrees _
    ((construct_agrees c).bind fun _ => (construct_agrees t).bind fun _ => (construct_agrees e).bind fun _ =>
      (Agrees.lift _).bind fun _ => .pure _) rfl
  | .concat l r => remembered_agrees _
    ((construct_agrees r).bind fun _ => (construct_agrees l).bind fun _ => (Agrees.lift _).bind fun _ =>
      (Agrees.lift _).bind fun _ => .pure _) rfl
  | .extract e _ _ => remembered_agrees _
    ((construct_agrees e).bind fun _ => (Agrees.lift _).bind fun _ => (Agrees.lift _).bind fun _ => .pure _) rfl
  | .zext e _ | .sext e _ => remembered_agrees _ (constructCast_agrees _ _ _ (construct_agrees e)) rfl
  | .not e => remembered_agrees _ ((construct_agrees e).bind fun _ => by
      dsimp only
      split
      case isTrue => exact (Agrees.lift _).bind fun _ => .pure _
      case isFalse => exact (Agrees.lift _).bind fun _ => .pure _) rfl
  | .arith kind l r => remembered_agrees _
    (constructArith_agrees division optimizeDivides kind l r (construct_agrees l) (construct_agrees r)) rfl
  | .cmp kind l r => remembered_agrees _ (constructCmp_agrees kind l (construct_agrees l) (construct_agrees r)) rfl

theorem getArrayForUpdate_agrees : (ul : UpdateList) → Agrees (plainTerm division optimizeDivides v)
    (getArrayForUpdate division optimizeDivides useConstructHash v ul) (getArrayForUpdate division optimizeDivides false v ul)
  | .root _ => .lift _
  | .extend next index value => (getArrayForUpdate_agrees next).bind fun _ => (construct_agrees index).bind fun _ =>
    (construct_agrees value).bind fun _ => .lift _
end

/-- Hash-consing changes no term, and none is lost or gained. -/
theorem constructTerm_hash (e : Expr) :
    constructTerm division optimizeDivides true v e = constructTerm division optimizeDivides false v e :=
  congrArg (·.map Prod.fst) (construct_agrees division optimizeDivides true v e).value_eq

end STPBuilder

/-! ### Conditions -/

/-- The quotients and remainders of STP are those of the language unless the divisor is zero. -/
def StpDivision.Exact (division : StpDivision) : Prop :=
  ∀ kind w (x y : BitVec w), divides kind = true → y ≠ 0 → division kind w x y = kind.eval x y

/-- The cast of a constant amount to `unsigned` cuts nothing off. -/
def Expr.ShiftFits : Expr → Prop
  | .constant _ c => c.toNat < 2 ^ 32
  | _ => True

/-- The operands that the builder has terms for. -/
def ArithSupported (optimizeDivides : Bool) (l r : Expr) : ArithKind → Prop
  | .and | .or | .xor => True
  | .sdiv => l.getWidth ≠ 1 ∧ ¬(optimizeDivides = true ∧ l.getWidth = 32 ∧ r.isConstant = true)
  | .shl | .lshr | .ashr => l.getWidth ≠ 1 ∧ l.getWidth < 2 ^ 32 ∧ r.ShiftFits
  | _ => l.getWidth ≠ 1

mutual
/-- The builder has a term. -/
def Expr.Supported (optimizeDivides : Bool) : Expr → Prop
  | .constant _ _ => True
  | .notOptimized src => src.Supported optimizeDivides
  | .read updates index => updates.Supported optimizeDivides ∧ index.Supported optimizeDivides
  | .select cond trueExpr falseExpr =>
    cond.Supported optimizeDivides ∧ trueExpr.Supported optimizeDivides ∧ falseExpr.Supported optimizeDivides
  | .concat left right =>
    left.Supported optimizeDivides ∧ right.Supported optimizeDivides ∧ left.getWidth ≠ 1 ∧ right.getWidth ≠ 1
  | .extract expr _ _ => expr.Supported optimizeDivides ∧ expr.getWidth ≠ 1
  | .zext src _ => src.Supported optimizeDivides
  | .sext src _ => src.Supported optimizeDivides
  | .not expr => expr.Supported optimizeDivides
  | .arith kind left right =>
    left.Supported optimizeDivides ∧ right.Supported optimizeDivides ∧ ArithSupported optimizeDivides left right kind
  | .cmp kind left right =>
    left.Supported optimizeDivides ∧ right.Supported optimizeDivides ∧ kind ≠ .ne ∧ (kind ≠ .eq → left.getWidth ≠ 1)

def UpdateList.Supported (optimizeDivides : Bool) : UpdateList → Prop
  | .root array => array.domain ≠ 1 ∧ array.range ≠ 1
  | .extend next index value =>
    next.Supported optimizeDivides ∧ index.Supported optimizeDivides ∧ value.Supported optimizeDivides
end

/-- The element at the index was updated or lies inside the array. -/
def UpdateList.Inside (v : Valuation) : UpdateList → Nat → Prop
  | .root array, i => i < array.size
  | .extend next index _, i => index.value v = i ∨ next.Inside v i

/-- The operands whose result is the same for STP. -/
def ArithRegular (v : Valuation) (l r : Expr) (kind : ArithKind) : Prop :=
  (divides kind = true → r.value v ≠ 0) ∧
    (kind = .ashr → ¬((l.bits v l.getWidth).msb = true ∧ l.getWidth - 1 ≤ r.value v))

mutual
/-- No part of the expression depends on what only STP decides. -/
def Expr.Regular (v : Valuation) : Expr → Prop
  | .constant _ _ => True
  | .notOptimized src => src.Regular v
  | .read updates index => updates.Regular v ∧ index.Regular v ∧ updates.Inside v (index.value v)
  | .select cond trueExpr falseExpr => cond.Regular v ∧ trueExpr.Regular v ∧ falseExpr.Regular v
  | .concat left right => left.Regular v ∧ right.Regular v
  | .extract expr _ _ => expr.Regular v
  | .zext src _ => src.Regular v
  | .sext src _ => src.Regular v
  | .not expr => expr.Regular v
  | .arith kind left right => left.Regular v ∧ right.Regular v ∧ ArithRegular v left right kind
  | .cmp _ left right => left.Regular v ∧ right.Regular v

def UpdateList.Regular (v : Valuation) : UpdateList → Prop
  | .root _ => True
  | .extend next index value => next.Regular v ∧ index.Regular v ∧ value.Regular v
end

/-- The term that an expression stands for. -/
def Expr.stp (v : Valuation) (e : Expr) : STPExpr :=
  if e.getWidth = 1 then .bool (e.value v = 1) else .bv (.ofVec (e.bits v e.getWidth))

section
variable {v : Valuation} {w : Nat} {e l r : Expr}

theorem Expr.stp_bool (h : e.WellTyped) (hw : e.getWidth = 1) : e.stp v = .bool (e.bits v 1 = 1#1) := by
  rw [Expr.stp, if_pos hw]
  refine congrArg STPExpr.bool (decide_eq_decide.mpr ?_)
  rw [← BitVec.toNat_inj, Expr.toNat_bits h hw]
  rfl

theorem Expr.stp_bv (hw : e.getWidth = w) (hne : w ≠ 1) : e.stp v = .bv (.ofVec (e.bits v w)) := by
  subst hw
  exact if_neg hne

end

namespace STPBuilder
open STP Term Memo

variable {v : Valuation} {w : Nat} {x y z : BitVec w} {division : StpDivision} {optimizeDivides : Bool}

/-! ### Operators on vectors -/

theorem constructPlain_pure {op : Nat → Term → Term → Option Term} (hw : w ≠ 1) (hop : op w (ofVec x) (ofVec y) = some (ofVec z)) :
    constructPlain op (pure (.bv (ofVec x), w)) (pure (.bv (ofVec y), w)) = pure (.bv (ofVec z), w) := by
  simp only [constructPlain, pure_bind, operand, if_neg hw, STPExpr.asBv, liftM_some, hop]

theorem constructDivision_pure {kind : ArithKind} {byConstant : Nat → Term → BitVec 64 → Option (Option Term)}
    {divisor : Option (BitVec 64)} (hw : w ≠ 1)
    (hconstant : ∀ c res, divisor = some c → byConstant w (ofVec x) c = some res → res = some (ofVec z))
    (hgeneral : division kind w x y = z) :
    constructDivision division kind byConstant divisor (pure (.bv (ofVec x), w)) (pure (.bv (ofVec y), w)) =
      pure (.bv (ofVec z), w) := by
  simp only [constructDivision, pure_bind, operand, if_neg hw, STPExpr.asBv, liftM_some]
  cases hres : divisor.bind (byConstant w (ofVec x)) with
  | some res =>
    obtain ⟨c, hc, hres⟩ := Option.bind_eq_some_iff.mp hres
    simp only [hconstant c res hc hres, liftM_some, pure_bind]
  | none => simp only [liftM_some, pure_bind, divide_ofVec, hgeneral]

theorem constructShift_pure {byConstant : Term → Nat → Option Term} {byTerm : Term → Term → Option Term} {amount : Option Nat}
    (hw : w ≠ 1) (hconstant : ∀ s, amount = some s → byConstant (ofVec x) s = some (ofVec z))
    (hgeneral : byTerm (ofVec x) (ofVec y) = some (ofVec z)) :
    constructShift byConstant byTerm amount (pure (.bv (ofVec x), w)) (pure (.bv (ofVec y), w)) = pure (.bv (ofVec z), w) := by
  simp only [constructShift, pure_bind, operand, if_neg hw, STPExpr.asBv, liftM_some]
  cases amount with
  | some s => simp only [hconstant s rfl, liftM_some, pure_bind]
  | none => simp only [liftM_some, pure_bind, hgeneral]

theorem constructBitwise_pure {formula : STPExpr → STPExpr → Option STPExpr} {op : Term → Term → Option Term} (hw : w ≠ 1)
    (hop : op (ofVec x) (ofVec y) = some (ofVec z)) :
    constructBitwise formula op (pure (.bv (ofVec x), w)) (pure (.bv (ofVec y), w)) = pure (.bv (ofVec z), w) := by
  simp only [constructBitwise, pure_bind, if_neg hw, STPExpr.asBv, liftM_some, hop]

/-- The bitwise operators on formulas. -/
theorem constructBitwise_formula {formula : STPExpr → STPExpr → Option STPExpr} {op : Term → Term → Option Term}
    {l r res : STPExpr} (hop : formula l r = some res) :
    constructBitwise formula op (pure (l, 1)) (pure (r, 1)) = pure (res, 1) := by
  simp only [constructBitwise, pure_bind, if_true, liftM_some, hop]

/-! ### Constant operands -/

theorem smallConstant_spec {e : Expr} {d : BitVec 64} (hw : e.getWidth = w) (h : smallConstant e = some d) :
    w ≤ 64 ∧ d.toNat = (e.bits v w).toNat := by
  subst hw
  unfold smallConstant at h
  split at h
  case h_1 k c =>
    split at h
    case isTrue hle =>
      obtain rfl := Option.some.inj h
      refine ⟨hle, ?_⟩
      show (c.setWidth 64).toNat = ((Expr.constant k c).bits v k).toNat
      rw [Expr.bits_constant, BitVec.toNat_setWidth, Nat.mod_eq_of_lt (c.isLt.trans_le (Nat.pow_le_pow_right Nat.two_pos hle))]
    case isFalse => cases h
  case h_2 => cases h

theorem isConstant_of_smallConstant {e : Expr} {d : BitVec 64} (h : smallConstant e = some d) : e.isConstant = true := by
  cases e with
  | constant k c => rfl
  | _ => cases h

theorem constantShift_spec {e : Expr} {s : Nat} (hw : e.getWidth = w) (hfits : e.ShiftFits) (h : constantShift e = some s) :
    s = (e.bits v w).toNat := by
  subst hw
  unfold constantShift at h
  split at h
  case h_1 k c =>
    have hc : c.toNat < 2 ^ 32 := hfits
    obtain rfl := Option.some.inj h
    show _ = ((Expr.constant k c).bits v k).toNat
    rw [Expr.bits_constant]
    omega
  case h_2 => cases h

theorem isPowerOfTwo_spec {d : BitVec 64} (h : isPowerOfTwo d = true) : ∃ k, d.toNat = 2 ^ k ∧ Bits.indexOfSingleBit d = k := by
  obtain ⟨hne, hzero⟩ := of_decide_eq_true h
  have hpos : 0 < d.toNat := Nat.pos_of_ne_zero fun h0 => hne (BitVec.eq_of_toNat_eq h0)
  have hpred : (d - 1).toNat = d.toNat - 1 := BitVec.toNat_sub_of_le (BitVec.le_def.mpr hpos)
  have hand : d.toNat &&& (d.toNat - 1) = 0 := by
    rw [← hpred, ← BitVec.toNat_and]
    exact congrArg BitVec.toNat hzero
  obtain ⟨k, hk⟩ := Nat.ne_zero_and_sub_one_eq_zero_iff_isPowerOfTwo.mp ⟨hpos.ne', hand⟩
  have hlt : k < 64 := (Nat.pow_lt_pow_iff_right Nat.one_lt_two).mp (hk ▸ d.isLt)
  have hd : d = 1#64 <<< k := by
    refine BitVec.eq_of_toNat_eq ?_
    rw [BitVec.toNat_shiftLeft, Nat.shiftLeft_eq, hk]
    show 2 ^ k = 1 * 2 ^ k % 2 ^ 64
    rw [Nat.one_mul, Nat.mod_eq_of_lt (Nat.pow_lt_pow_right Nat.one_lt_two hlt)]
  exact ⟨k, hk, hd ▸ Bits.indexOfSingleBit_shiftLeft k hlt⟩

theorem sub_udiv_mul (x y : BitVec w) : x - x / y * y = x % y := by
  have hle : x.toNat / y.toNat * y.toNat ≤ x.toNat := Nat.div_mul_le_self _ _
  have hproduct : (x / y * y).toNat = x.toNat / y.toNat * y.toNat := by
    rw [BitVec.toNat_mul, BitVec.toNat_udiv, Nat.mod_eq_of_lt (hle.trans_lt x.isLt)]
  refine BitVec.eq_of_toNat_eq ?_
  rw [BitVec.toNat_sub_of_le (BitVec.le_def.mpr (hproduct ▸ hle)), hproduct, BitVec.toNat_umod]
  have := Nat.div_add_mod' x.toNat y.toNat
  omega

theorem applyArith_eq {kind : ArithKind} (h : divides kind = true → y ≠ 0) : applyArith kind x y = kind.eval x y := by
  unfold applyArith
  exact if_neg fun hzero => h hzero.1 hzero.2

/-! ### Vectors -/

/-- A term with the value and the width of a vector. -/
theorem ofVec_congr {n : Nat} {x : BitVec w} {y : BitVec n} (hw : w = n) (h : x.toNat = y.toNat) : ofVec x = ofVec y :=
  ext_value hw (by rw [value_ofVec, value_ofVec, h])

theorem ofVec_inj {x y : BitVec w} : ofVec x = ofVec y ↔ x = y :=
  ⟨fun h => BitVec.eq_of_toNat_eq (by rw [← value_ofVec x, h, value_ofVec]), congrArg ofVec⟩

/-- A bit as a vector. -/
theorem setWidth_bit (x : BitVec 1) : x.setWidth w = if x = 1#1 then 1 else 0 := by
  have hbit : ∀ x : BitVec 1, x = 1#1 ∨ x = 0#1 := by decide
  rcases hbit x with rfl | rfl
  · refine BitVec.eq_of_toNat_eq ?_
    rw [BitVec.toNat_setWidth]
    rfl
  · exact BitVec.setWidth_zero w 1

theorem signExtend_bit (x : BitVec 1) (hw : 0 < w) : x.signExtend w = if x = 1#1 then BitVec.allOnes w else 0 := by
  have hbit : ∀ x : BitVec 1, x = 1#1 ∨ x = 0#1 := by decide
  rcases hbit x with rfl | rfl
  · refine BitVec.eq_of_toInt_eq ?_
    rw [BitVec.toInt_signExtend_of_le hw, if_pos rfl, BitVec.toInt_allOnes, if_pos hw]
    rfl
  · refine BitVec.eq_of_toInt_eq ?_
    rw [BitVec.toInt_signExtend_of_le hw, if_neg (by decide)]
    exact BitVec.toInt_zero.symm

theorem widths_ne_one : (ul : UpdateList) → ul.Supported optimizeDivides → ul.array.domain ≠ 1 ∧ ul.array.range ≠ 1
  | .root _, h => h
  | .extend next _ _, h => widths_ne_one next h.1

section
variable [STP] [Documented]

/-! ### Multiplications, divisions and shifts -/

theorem constructMulByConstant_ofVec {d : BitVec 64} (hle : w ≤ 64) (hd : d.toNat = y.toNat) :
    constructMulByConstant (ofVec x) w d = some (ofVec (x * y)) := by
  refine (constructMulByConstant_eq (t := ofVec x) hle d).trans (congrArg some ?_)
  rw [value_ofVec, hd, ← Nat.cast_mul]
  exact ofInt_natCast (BitVec.toNat_mul x y).symm

theorem constructMul_pure (kid : Expr) (hw : w ≠ 1) (hkid : ∀ c, smallConstant kid = some c → w ≤ 64 ∧ c.toNat = x.toNat) :
    constructMul kid (pure (.bv (ofVec x), w)) (pure (.bv (ofVec y), w)) = pure (.bv (ofVec (x * y)), w) := by
  simp only [constructMul, pure_bind, operand, if_neg hw, STPExpr.asBv, liftM_some]
  cases hconstant : smallConstant kid with
  | some c =>
    obtain ⟨hle, hc⟩ := hkid c hconstant
    simp only [constructMulByConstant_ofVec hle hc, BitVec.mul_comm y x, liftM_some, pure_bind]
  | none => simp only [liftM_some, pure_bind, vc_bvMultExpr_ofVec]

/-- The arithmetic shift by a constant amount and by an amount that is a term. -/
theorem constructAshr_pure {amount : Option Nat} (hw : 1 < w) (hlt : w < 2 ^ 32) (hamount : ∀ s, amount = some s → s = y.toNat) :
    constructShift ashrByConstant bvVarArithRightShift amount (pure (.bv (ofVec x), w)) (pure (.bv (ofVec y), w)) =
      pure (.bv (ofVec (arithShift x y.toNat)), w) := by
  refine constructShift_pure (by omega) (fun s hs => ?_) (bvVarArithRightShift_ofVec hw hlt x y)
  rw [ashrByConstant_ofVec (by omega), hamount s hs]

theorem constructUDivByConstant_ofVec {x y : BitVec 32} {d : BitVec 64} (hd : d.toNat = y.toNat) (hy : y ≠ 0) :
    constructUDivByConstant (ofVec x) 32 ((d.setWidth 32).setWidth 64) = some (ofVec (x / y)) := by
  have hcast : d.setWidth 32 = y := by
    refine BitVec.eq_of_toNat_eq ?_
    rw [BitVec.toNat_setWidth, hd, Nat.mod_eq_of_lt y.isLt]
  rw [hcast]
  exact constructUDivByConstant_eq x hy

theorem udivByConstant_spec {d : BitVec 64} {res : Option Term} (hd : d.toNat = y.toNat) (hy : y ≠ 0)
    (h : udivByConstant optimizeDivides w (ofVec x) d = some res) : res = some (ofVec (x / y)) := by
  unfold udivByConstant at h
  split at h
  case isTrue hpower =>
    obtain ⟨k, hk, hindex⟩ := isPowerOfTwo_spec hpower
    rw [← Option.some.inj h, hindex, bvRightShift_ofVec]
    refine congrArg (fun z => some (ofVec z)) (BitVec.eq_of_toNat_eq ?_)
    rw [BitVec.toNat_ushiftRight, Nat.shiftRight_eq_div_pow, BitVec.toNat_udiv, ← hd, hk]
  case isFalse =>
    split at h
    case isTrue hfast =>
      obtain rfl := hfast.2
      exact (Option.some.inj h).symm.trans (constructUDivByConstant_ofVec hd hy)
    case isFalse => cases h

theorem uremByConstant_spec {d : BitVec 64} {res : Option Term} (hd : d.toNat = y.toNat) (hy : y ≠ 0)
    (h : uremByConstant optimizeDivides w (ofVec x) d = some res) : res = some (ofVec (x % y)) := by
  unfold uremByConstant at h
  split at h
  case isTrue hpower =>
    obtain ⟨k, hk, hindex⟩ := isPowerOfTwo_spec hpower
    have hkw : k < w := (Nat.pow_lt_pow_iff_right Nat.one_lt_two).mp (by rw [← hk, hd]; exact y.isLt)
    rw [hindex] at h
    dsimp only at h
    split at h
    case isTrue hzero =>
      rw [← Option.some.inj h, bvZExtConst_zero]
      refine congrArg (fun z => some (ofVec z)) (BitVec.eq_of_toNat_eq ?_)
      rw [BitVec.toNat_umod, ← hd, hk, hzero, pow_zero, Nat.mod_one]
      rfl
    case isFalse hne =>
      rw [← Option.some.inj h, vc_bvExtract_ofVec x (Nat.zero_le _) (by omega), bvZExtConst_zero]
      refine congrArg some ?_
      rw [vc_bvConcatExpr_ofVec]
      refine ext_value (by simp only [width_ofVec]; omega) ?_
      have hwidth : k - 1 + 1 - 0 = k := by omega
      rw [value_ofVec, value_ofVec, BitVec.toNat_append, BitVec.toNat_umod, BitVec.extractLsb'_toNat, ← hd, hk, hwidth]
      show (0#(w - k)).toNat <<< k ||| x.toNat >>> 0 % 2 ^ k = x.toNat % 2 ^ k
      rw [BitVec.toNat_ofNat, Nat.zero_mod, Nat.zero_shiftLeft, Nat.zero_or, Nat.shiftRight_zero]
  case isFalse =>
    split at h
    case isTrue hfast =>
      obtain rfl := hfast.2
      rw [← Option.some.inj h, constructUDivByConstant_ofVec hd hy]
      simp only [Option.bind_eq_bind, Option.bind_some, constructMulByConstant_ofVec (show 32 ≤ 64 by decide) hd, vc_bvMinusExpr_ofVec,
        sub_udiv_mul]
    case isFalse => cases h

/-! ### Operators -/

section
variable {kind : ArithKind} {l r : Expr}

/-- The bitwise operators on one bit are connectives. -/
theorem constructArith_formula (hl : l.WellTyped) (hr : r.WellTyped) (hlw : l.getWidth = 1) (hrw : r.getWidth = 1)
    (hkind : kind = .and ∨ kind = .or ∨ kind = .xor) :
    constructArith division optimizeDivides kind l r (pure (l.stp v, 1)) (pure (r.stp v, 1)) =
      pure ((Expr.arith kind l r).stp v, 1) := by
  have hwell : (Expr.arith kind l r).WellTyped := ⟨hl, hr, hlw.trans hrw.symm⟩
  rw [Expr.stp_bool hl hlw, Expr.stp_bool hr hrw, Expr.stp_bool hwell hlw, Expr.bits_arith kind hlw]
  generalize l.bits v 1 = x
  generalize r.bits v 1 = y
  have hand : ∀ x y : BitVec 1, (decide (x = 1#1) && decide (y = 1#1)) = decide (applyArith .and x y = 1#1) := by decide
  have hor : ∀ x y : BitVec 1, (decide (x = 1#1) || decide (y = 1#1)) = decide (applyArith .or x y = 1#1) := by decide
  have hxor : ∀ x y : BitVec 1,
      (if decide (x = 1#1) = true then !decide (y = 1#1) else decide (y = 1#1)) = decide (applyArith .xor x y = 1#1) := by decide
  rcases hkind with rfl | rfl | rfl
  · refine constructBitwise_formula ?_
    rw [Documented.andExpr]
    exact congrArg (fun b => some (STPExpr.bool b)) (hand x y)
  · refine constructBitwise_formula ?_
    rw [Documented.orExpr]
    exact congrArg (fun b => some (STPExpr.bool b)) (hor x y)
  · refine constructBitwise_formula ?_
    rw [xorFormula, Documented.notExpr]
    simp only [STPExpr.asBool, Option.map_some, Option.bind_eq_bind, Option.bind_some, Documented.iteExpr]
    exact congrArg (fun b => some (STPExpr.bool b)) (hxor x y)

theorem constructArith_vec (hdiv : division.Exact) (hw : w ≠ 1) (hlw : l.getWidth = w) (hrw : r.getWidth = w)
    (hpos : 0 < w) (hr : r.WellTyped) (hsupported : ArithSupported optimizeDivides l r kind) (hregular : ArithRegular v l r kind) :
    constructArith division optimizeDivides kind l r (pure (l.stp v, w)) (pure (r.stp v, w)) =
      pure ((Expr.arith kind l r).stp v, w) := by
  have hvalue : (r.bits v w).toNat = r.value v := Expr.toNat_bits hr hrw
  have hy : divides kind = true → r.bits v w ≠ 0 := fun h hzero => hregular.1 h (by rw [← hvalue, hzero]; rfl)
  have hshift := fun hfits s => constantShift_spec (v := v) (s := s) hrw hfits
  have hsign := hregular.2
  rw [hlw] at hsign
  rw [Expr.stp_bv hlw hw, Expr.stp_bv hrw hw, Expr.stp_bv (e := .arith kind l r) hlw hw, Expr.bits_arith kind hlw, applyArith_eq hy]
  have hconstant := fun c => smallConstant_spec (v := v) (d := c) hrw
  generalize hx : l.bits v w = x at hsign
  generalize r.bits v w = y at hvalue hy hshift hconstant
  cases kind with
  | add => exact constructPlain_pure hw (vc_bvPlusExpr_ofVec x y)
  | sub => exact constructPlain_pure hw (vc_bvMinusExpr_ofVec x y)
  | mul => exact constructMul_pure l hw fun c hc => hx ▸ smallConstant_spec hlw hc
  | udiv =>
    exact constructDivision_pure hw (fun c res hc => udivByConstant_spec (hconstant c hc).2 (hy rfl)) (hdiv _ _ _ _ rfl (hy rfl))
  | sdiv =>
    refine constructDivision_pure hw (fun c res hc hres => ?_) (hdiv _ _ _ _ rfl (hy rfl))
    unfold sdivByConstant at hres
    split at hres
    case isTrue hfast => exact absurd ⟨hfast.1, hlw.trans hfast.2, isConstant_of_smallConstant hc⟩ hsupported.2
    case isFalse => cases hres
  | urem =>
    exact constructDivision_pure hw (fun c res hc => uremByConstant_spec (hconstant c hc).2 (hy rfl)) (hdiv _ _ _ _ rfl (hy rfl))
  | srem =>
    refine constructPlain_pure hw ?_
    rw [divide_ofVec, hdiv .srem w x y rfl (hy rfl)]
  | and => exact constructBitwise_pure hw (vc_bvAndExpr_ofVec x y)
  | or => exact constructBitwise_pure hw (vc_bvOrExpr_ofVec x y)
  | xor => exact constructBitwise_pure hw (vc_bvXorExpr_ofVec x y)
  | shl =>
    obtain ⟨-, hlt, hfits⟩ := hsupported
    refine constructShift_pure hw (fun s hs => ?_) (bvVarLeftShift_ofVec (hlw ▸ hlt) x y)
    rw [bvLeftShift_ofVec, hshift hfits s hs]
    rfl
  | lshr =>
    obtain ⟨-, hlt, hfits⟩ := hsupported
    refine constructShift_pure hw (fun s hs => ?_) (bvVarRightShift_ofVec (hlw ▸ hlt) x y)
    rw [bvRightShift_ofVec, hshift hfits s hs]
    rfl
  | ashr =>
    obtain ⟨-, hlt, hfits⟩ := hsupported
    have hexact : arithShift x y.toNat = x.sshiftRight' y := (arithShift_eq_iff (by omega) x y.toNat).mpr (hvalue ▸ hsign rfl)
    exact (constructAshr_pure (by omega) (hlw ▸ hlt) (hshift hfits)).trans (hexact ▸ rfl)

theorem constructArith_eq (hdiv : division.Exact) (hwell : (Expr.arith kind l r).WellTyped)
    (hsupported : ArithSupported optimizeDivides l r kind) (hregular : ArithRegular v l r kind) :
    constructArith division optimizeDivides kind l r (pure (l.stp v, l.getWidth)) (pure (r.stp v, r.getWidth)) =
      pure ((Expr.arith kind l r).stp v, l.getWidth) := by
  obtain ⟨hl, hr, hw⟩ := hwell
  rw [← hw]
  by_cases hone : l.getWidth = 1
  · have hkind : kind = .and ∨ kind = .or ∨ kind = .xor := by
      cases kind with
      | and => exact .inl rfl
      | or => exact .inr (.inl rfl)
      | xor => exact .inr (.inr rfl)
      | sdiv | shl | lshr | ashr => exact absurd hone hsupported.1
      | add | sub | mul | udiv | urem | srem => exact absurd hone hsupported
    rw [hone]
    exact constructArith_formula hl hr hone (hw.symm.trans hone) hkind
  · exact constructArith_vec hdiv hone rfl hw.symm (l.width_pos hl) hr hsupported hregular

theorem constructEq_vec (hw : w ≠ 1) :
    constructEq l (pure (.bv (ofVec x), w)) (pure (.bv (ofVec y), w)) = pure (.bool (decide (x = y)), 1) := by
  simp only [constructEq, pure_bind, if_neg hw, STPExpr.asBv, liftM_some, compare_ofVec (show CmpKind.eq ≠ .ne by decide)]
  rfl

/-- An equation of formulas: with a constant it is the other side or its negation. -/
theorem constructEq_formula (hl : l.WellTyped) (hlw : l.getWidth = 1) (x y : BitVec 1) (hx : l.bits v 1 = x) :
    constructEq l (pure (.bool (decide (x = 1#1)), 1)) (pure (.bool (decide (y = 1#1)), 1)) = pure (.bool (decide (x = y)), 1) := by
  simp only [constructEq, pure_bind, if_true]
  split
  case h_1 k c =>
    obtain rfl : k = 1 := hlw
    have hc : c = x := by rw [← hx, Expr.bits_constant]
    subst hc
    split
    case isTrue htrue =>
      obtain rfl : c = 1#1 := BitVec.eq_of_toNat_eq htrue
      have : ∀ y : BitVec 1, decide (y = 1#1) = decide (1#1 = y) := by decide
      rw [this y]
    case isFalse hfalse =>
      have hne : c ≠ 1#1 := fun h => hfalse (congrArg BitVec.toNat h)
      have : ∀ c y : BitVec 1, c ≠ 1#1 → (!decide (y = 1#1)) = decide (c = y) := by decide
      rw [← this c y hne, Documented.notExpr]
      rfl
  case h_2 =>
    have : ∀ x y : BitVec 1, (decide (x = 1#1) == decide (y = 1#1)) = decide (x = y) := by decide
    rw [← this x y, Documented.iffExpr]
    rfl

theorem constructCmp_eq {kind : CmpKind} (hwell : (Expr.cmp kind l r).WellTyped) (hne : kind ≠ .ne)
    (hsupported : kind ≠ .eq → l.getWidth ≠ 1) :
    constructCmp kind l (pure (l.stp v, l.getWidth)) (pure (r.stp v, r.getWidth)) = pure ((Expr.cmp kind l r).stp v, 1) := by
  obtain ⟨hl, hr, hw⟩ := id hwell
  have hresult : (Expr.cmp kind l r).stp v = .bool (kind.eval (l.bits v l.getWidth) (r.bits v l.getWidth)) := by
    rw [Expr.stp_bool hwell rfl, Expr.bits_cmp kind rfl]
    cases CmpKind.eval (l.bits v l.getWidth) (r.bits v l.getWidth) kind <;> rfl
  rw [hresult, ← hw]
  have horder (hone : l.getWidth ≠ 1) {kind : CmpKind} (hkind : kind ≠ .ne) :
      constructOrder kind (pure (l.stp v, l.getWidth)) (pure (r.stp v, l.getWidth)) =
      pure (.bool (kind.eval (l.bits v l.getWidth) (r.bits v l.getWidth)), 1) := by
    rw [Expr.stp_bv rfl hone, Expr.stp_bv hw.symm hone]
    simp only [constructOrder, pure_bind, operand, if_neg hone, STPExpr.asBv, liftM_some, compare_ofVec hkind]
  cases kind with
  | ne => exact absurd rfl hne
  | ult | ule | slt | sle => exact horder (hsupported (by decide)) (by decide)
  | eq =>
    by_cases hone : l.getWidth = 1
    · rw [Expr.stp_bool hl hone, Expr.stp_bool hr (hw.symm.trans hone), hone]
      exact constructEq_formula hl hone _ _ rfl
    · rw [Expr.stp_bv rfl hone, Expr.stp_bv hw.symm hone]
      exact constructEq_vec hone

end

/-! ### Parts and casts -/

section
variable {e l r : Expr}

theorem vc_iteExpr_stp {c t f : Expr} (hwell : (Expr.select c t f).WellTyped) :
    vc_iteExpr (c.stp v) (t.stp v) (f.stp v) = some ((Expr.select c t f).stp v) := by
  obtain ⟨hc, ht, hf, hcw, hw⟩ := id hwell
  have hcond : ∀ b : BitVec 1, b ≠ 0 ↔ b = 1#1 := by decide
  rw [Expr.stp_bool hc hcw]
  by_cases hone : t.getWidth = 1
  · rw [Expr.stp_bool ht hone, Expr.stp_bool hf (hw.symm.trans hone), Expr.stp_bool hwell hone, Expr.bits_select c t f hc hcw]
    simp only [Documented.iteExpr, STPExpr.asBool, Option.bind_some, branches, hcond, decide_eq_true_eq]
    split <;> rfl
  · rw [Expr.stp_bv rfl hone, Expr.stp_bv hw.symm hone, Expr.stp_bv (e := .select c t f) rfl hone]
    simp only [vc_iteExpr_ofVec, Expr.bits_select c t f hc hcw, hcond, decide_eq_true_eq]
    rfl

theorem extractTerm_stp {off width : Nat} (hwell : (Expr.extract e off width).WellTyped) :
    extractTerm off width (ofVec (e.bits v e.getWidth)) = some ((Expr.extract e off width).stp v) := by
  obtain ⟨he, hpos, hle⟩ := id hwell
  unfold extractTerm
  split
  case isTrue hone =>
    subst hone
    rw [bvBoolExtract_ofVec _ (by omega), Expr.stp_bool hwell rfl, Expr.bits_extract off he rfl]
    refine congrArg (fun b => some (STPExpr.bool b)) ?_
    generalize e.bits v e.getWidth = x
    have hbit : ∀ b : BitVec 1, b.getLsbD 0 = decide (b = 1#1) := by decide
    rw [← hbit, BitVec.getLsbD_extractLsb']
    simp
  case isFalse hone =>
    rw [vc_bvExtract_ofVec _ (by omega) (by omega), Expr.stp_bv (e := .extract e off width) (w := width) rfl hone,
      Expr.bits_extract off he rfl]
    refine congrArg (fun t => some (STPExpr.bv t)) (ofVec_congr (by omega) ?_)
    rw [BitVec.extractLsb'_toNat, BitVec.extractLsb'_toNat]
    have hwidth : off + width - 1 + 1 - off = width := by omega
    rw [hwidth]

theorem zextTerm_ofVec {n : Nat} (x : BitVec w) (hle : w ≤ n) : zextTerm n (ofVec x) = some (ofVec (x.setWidth n)) := by
  rw [zextTerm, bvZExtConst_zero, width_ofVec, vc_bvConcatExpr_ofVec]
  refine congrArg some (ofVec_congr (Nat.sub_add_cancel hle) ?_)
  rw [BitVec.toNat_append, BitVec.toNat_setWidth_of_le hle]
  show (0#(n - w)).toNat <<< w ||| x.toNat = x.toNat
  rw [BitVec.toNat_ofNat, Nat.zero_mod, Nat.zero_shiftLeft, Nat.zero_or]

theorem constructCast_stp (res : Expr) {one : BitVec res.getWidth} {widen : Term → Option Term} (he : e.WellTyped)
    (hw : res.getWidth ≠ 1) (hone : e.getWidth = 1 → res.bits v res.getWidth = if e.bits v 1 = 1#1 then one else 0)
    (hwiden : widen (ofVec (e.bits v e.getWidth)) = some (ofVec (res.bits v res.getWidth))) :
    constructCast (some (ofVec one)) widen res.getWidth (pure (e.stp v, e.getWidth)) = pure (res.stp v, res.getWidth) := by
  simp only [constructCast, pure_bind]
  rw [Expr.stp_bv (e := res) rfl hw]
  split
  case isTrue hbit =>
    rw [Expr.stp_bool he hbit, hone hbit, bvZExtConst_zero]
    simp only [liftM_some, pure_bind, vc_iteExpr_ofVec, decide_eq_true_eq]
  case isFalse hbit =>
    rw [Expr.stp_bv rfl hbit]
    simp only [STPExpr.asBv, liftM_some, pure_bind, hwiden]

theorem constructCast_zext {width : Nat} (hwell : (Expr.zext e width).WellTyped) :
    constructCast (some (bvZExtConst width 1)) (zextTerm width) width (pure (e.stp v, e.getWidth)) =
      pure ((Expr.zext e width).stp v, width) := by
  obtain ⟨he, hlt⟩ := hwell
  have hpos := e.width_pos he
  rw [bvZExtConst_one]
  refine constructCast_stp (.zext e width) he (show width ≠ 1 by omega) (fun hone => ?_) ?_
  · exact (Expr.bits_zext he hone).trans (setWidth_bit _)
  · exact (zextTerm_ofVec _ hlt.le).trans (congrArg (fun x => some (ofVec x)) (Expr.bits_zext he rfl).symm)

theorem constructCast_sext {width : Nat} (hwell : (Expr.sext e width).WellTyped) :
    constructCast (bvSExtConst width (-1)) (vc_bvSignExtend · width) width (pure (e.stp v, e.getWidth)) =
      pure ((Expr.sext e width).stp v, width) := by
  obtain ⟨he, hlt⟩ := hwell
  have hpos := e.width_pos he
  rw [bvSExtConst_minusOne]
  refine constructCast_stp (.sext e width) he (show width ≠ 1 by omega) (fun hone => ?_) ?_
  · exact (Expr.bits_sext hone).trans (signExtend_bit _ (hpos.trans hlt))
  · exact (vc_bvSignExtend_ofVec _ hlt.le).trans (congrArg (fun x => some (ofVec x)) (Expr.bits_sext rfl).symm)

theorem vc_notExpr_stp (hwell : e.WellTyped) (hone : e.getWidth = 1) : vc_notExpr (e.stp v) = some ((Expr.not e).stp v) := by
  have hnot : ∀ x : BitVec 1, (!decide (x = 1#1)) = decide (~~~x = 1#1) := by decide
  rw [Expr.stp_bool hwell hone, Expr.stp_bool (e := .not e) hwell hone, Expr.bits_not hone, ← hnot,
    Documented.notExpr]
  rfl

end

/-! ### Arrays -/

/-- The array of a version: it has the elements of the version except where nothing was written behind the end. -/
structure ArrayFor (v : Valuation) (ul : UpdateList) (array : STPArray) : Prop where
  indexWidth : array.indexWidth = ul.array.domain
  valueWidth : array.valueWidth = ul.array.range
  elements : ∀ i, ul.Inside v i → array.elements i = ul.readAt v i

theorem writeConstant_eq {root : Array} (array : STPArray) {i : Nat} (hdomain : root.domain ≠ 1) (hrange : root.range ≠ 1)
    (hindex : array.indexWidth = root.domain) (hvalue : array.valueWidth = root.range) {c : BitVec root.range}
    (hc : root.constantValues[i]? = some c) (hi : i < 2 ^ root.domain) :
    writeConstant root array i =
      some { array with elements := fun j => if i = j then c.toNat else array.elements j } := by
  rw [writeConstant, hc]
  simp only [Option.bind_eq_bind, Option.bind_some, constructConstant_eq, if_neg hdomain, if_neg hrange]
  rw [Documented.writeExpr]
  simp only [STPExpr.asBv, Option.bind_some, writeArray, width_ofVec, value_ofVec, hindex, hvalue, and_self, if_true,
    BitVec.toNat_ofNat, Nat.mod_eq_of_lt hi]

theorem writeConstants_eq {root : Array} (hwell : root.WellFormed) (hconstant : root.isConstantArray = true) (hdomain : root.domain ≠ 1)
    (hrange : root.range ≠ 1) (n : Nat) (hn : n ≤ root.size) (array : STPArray) (hindex : array.indexWidth = root.domain)
    (hvalue : array.valueWidth = root.range) :
    ∃ elements, (List.range n).foldlM (writeConstant root) array = some { array with elements := elements } ∧
      ∀ i < n, some (elements i) = root.constantValues[i]?.map (·.toNat) := by
  induction n with
  | zero => exact ⟨array.elements, rfl, fun i hi => absurd hi (Nat.not_lt_zero i)⟩
  | succ n ih =>
    obtain ⟨elements, hfold, helements⟩ := ih (by omega)
    have hlt : n < root.constantValues.length := hwell.constants hconstant ▸ hn
    have hc := List.getElem?_eq_getElem hlt
    have hbound : n < 2 ^ root.domain := Nat.lt_of_lt_of_le hn hwell.size_le
    have hwrite := writeConstant_eq { array with elements := elements } hdomain hrange hindex hvalue hc hbound
    refine ⟨fun j => if n = j then (root.constantValues[n]).toNat else elements j, ?_, fun i hi => ?_⟩
    · rw [List.range_succ, List.foldlM_append, hfold]
      simp only [Option.bind_eq_bind, Option.bind_some, List.foldlM_cons, hwrite, List.foldlM_nil]
      rfl
    · by_cases hin : n = i
      · subst hin
        simp only [if_true, hc]
        rfl
      · simp only [if_neg hin]
        exact helements i (by omega)

theorem getInitialArray_eq {root : Array} (hwell : root.WellFormed) (hdomain : root.domain ≠ 1) (hrange : root.range ≠ 1) :
    ∃ array, getInitialArray v root = some array ∧ ArrayFor v (.root root) array := by
  unfold getInitialArray
  split
  case isTrue hconstant =>
    obtain ⟨elements, hfold, helements⟩ := writeConstants_eq hwell hconstant hdomain hrange root.size le_rfl
      ⟨root.domain, root.range, fun i => v root i % 2 ^ root.range⟩ rfl rfl
    refine ⟨_, hfold, rfl, rfl, fun i hi => ?_⟩
    rw [UpdateList.readAt, Array.initial, if_pos hconstant, ← helements i hi]
    rfl
  case isFalse hsymbolic =>
    refine ⟨_, rfl, rfl, rfl, fun i hi => ?_⟩
    have hi : i < root.size := hi
    rw [UpdateList.readAt, Array.initial, if_neg hsymbolic, if_pos hi]

theorem vc_readExpr_stp {ul : UpdateList} {index : Expr} {array : STPArray} (harray : ArrayFor v ul array)
    (hwell : (Expr.read ul index).WellTyped) (hsupported : ul.Supported optimizeDivides) (hinside : ul.Inside v (index.value v)) :
    vc_readExpr array (index.stp v) = some ((Expr.read ul index).stp v) := by
  obtain ⟨-, hindex, hw⟩ := id hwell
  obtain ⟨hdomain, hrange⟩ := widths_ne_one ul hsupported
  rw [Expr.stp_bv hw hdomain, Expr.stp_bv (e := .read ul index) (w := ul.array.range) rfl hrange]
  rw [Documented.readExpr, STPExpr.asBv, Option.bind_some, readArray]
  rw [if_pos (harray.indexWidth ▸ rfl), harray.valueWidth, value_ofVec, Expr.toNat_bits hindex hw, harray.elements _ hinside]
  refine congrArg (fun t => some (STPExpr.bv t)) (ofInt_natCast ?_)
  rw [Expr.bits, BitVec.toNat_ofNat]
  rfl

theorem vc_writeExpr_stp {next : UpdateList} {index value : Expr} {array : STPArray} (harray : ArrayFor v next array)
    (hwell : (UpdateList.extend next index value).WellTyped) (hsupported : next.Supported optimizeDivides) :
    ∃ array', vc_writeExpr array (index.stp v) (value.stp v) = some array' ∧ ArrayFor v (.extend next index value) array' := by
  obtain ⟨-, hindex, hvalue, hiw, hvw⟩ := hwell
  obtain ⟨hdomain, hrange⟩ := widths_ne_one next hsupported
  rw [Expr.stp_bv hiw hdomain, Expr.stp_bv hvw hrange]
  simp only [Documented.writeExpr, STPExpr.asBv, Option.bind_some, writeArray]
  rw [if_pos ⟨harray.indexWidth ▸ rfl, harray.valueWidth ▸ rfl⟩, value_ofVec, value_ofVec, Expr.toNat_bits hindex hiw,
    Expr.toNat_bits hvalue hvw]
  refine ⟨_, rfl, harray.indexWidth, harray.valueWidth, fun i hi => ?_⟩
  show (if index.value v = i then value.value v else array.elements i) = _
  rw [UpdateList.readAt]
  by_cases hhit : index.value v = i
  · rw [if_pos hhit, if_pos hhit]
  · rw [if_neg hhit, if_neg hhit]
    exact harray.elements i (hi.resolve_left hhit)

/-! ### Expressions -/

mutual
theorem construct_eq (hdiv : division.Exact) : (e : Expr) → e.WellTyped → e.Supported optimizeDivides → e.Regular v →
    construct division optimizeDivides false v e = pure (e.stp v, e.getWidth)
  | .constant w c, _, _, _ => by
    rw [construct, constructConstant_eq]
    by_cases hone : w = 1
    · subst hone
      rw [if_pos rfl]
      rfl
    · rw [if_neg hone, Expr.stp_bv (w := w) rfl hone, Expr.bits_constant]
      rfl
  | .notOptimized src, hwell, hsupported, hregular => construct_eq hdiv src hwell hsupported hregular
  | .read ul index, hwell, hsupported, hregular => by
    obtain ⟨array, hget, harray⟩ := getArrayForUpdate_eq hdiv ul hwell.1 hsupported.1 hregular.1
    have hread := vc_readExpr_stp harray hwell hsupported.1 hregular.2.2
    simp only [construct, remembered, hget, construct_eq hdiv index hwell.2.1 hsupported.2 hregular.2.1, pure_bind, hread, liftM_some]
    rfl
  | .select c t f, hwell, hsupported, hregular => by
    have hite := vc_iteExpr_stp (v := v) hwell
    obtain ⟨hc, ht, hf, -, hw⟩ := hwell
    simp only [construct, remembered, construct_eq hdiv c hc hsupported.1 hregular.1, construct_eq hdiv t ht hsupported.2.1 hregular.2.1,
      construct_eq hdiv f hf hsupported.2.2 hregular.2.2, pure_bind, hite, liftM_some, ← hw]
    rfl
  | .concat l r, hwell, hsupported, hregular => by
    obtain ⟨hl, hr, hlw, hrw⟩ := hsupported
    have hne : l.getWidth + r.getWidth ≠ 1 := by
      have := l.width_pos hwell.1
      have := r.width_pos hwell.2
      omega
    simp only [construct, remembered, construct_eq hdiv l hwell.1 hl hregular.1, construct_eq hdiv r hwell.2 hr hregular.2, pure_bind,
      Expr.stp_bv rfl hlw, Expr.stp_bv rfl hrw, STPExpr.asBv, liftM_some, vc_bvConcatExpr_ofVec]
    rw [Expr.stp_bv (e := .concat l r) (w := l.getWidth + r.getWidth) rfl hne, Expr.bits_concat hwell.1 hwell.2 rfl rfl]
    rfl
  | .extract e off width, hwell, hsupported, hregular => by
    simp only [construct, remembered, construct_eq hdiv e hwell.1 hsupported.1 hregular, pure_bind, Expr.stp_bv rfl hsupported.2,
      STPExpr.asBv, liftM_some, extractTerm_stp hwell]
    rfl
  | .zext src width, hwell, hsupported, hregular => by
    simp only [construct, remembered, construct_eq hdiv src hwell.1 hsupported hregular]
    exact constructCast_zext hwell
  | .sext src width, hwell, hsupported, hregular => by
    simp only [construct, remembered, construct_eq hdiv src hwell.1 hsupported hregular]
    exact constructCast_sext hwell
  | .not e, hwell, hsupported, hregular => by
    simp only [construct, remembered, construct_eq hdiv e hwell hsupported hregular, pure_bind, Bool.false_eq_true, if_false]
    by_cases hone : e.getWidth = 1
    · rw [if_pos hone, vc_notExpr_stp (e := e) hwell hone, liftM_some, pure_bind]
      rfl
    · rw [if_neg hone, Expr.stp_bv rfl hone]
      simp only [STPExpr.asBv, liftM_some, pure_bind, vc_bvNotExpr_ofVec]
      rw [Expr.stp_bv (e := .not e) (w := e.getWidth) rfl hone, Expr.bits_not rfl]
      rfl
  | .arith kind l r, hwell, hsupported, hregular => by
    simp only [construct, remembered, construct_eq hdiv l hwell.1 hsupported.1 hregular.1,
      construct_eq hdiv r hwell.2.1 hsupported.2.1 hregular.2.1]
    exact constructArith_eq hdiv hwell hsupported.2.2 hregular.2.2
  | .cmp kind l r, hwell, hsupported, hregular => by
    simp only [construct, remembered, construct_eq hdiv l hwell.1 hsupported.1 hregular.1,
      construct_eq hdiv r hwell.2.1 hsupported.2.1 hregular.2]
    exact constructCmp_eq hwell hsupported.2.2.1 hsupported.2.2.2

theorem getArrayForUpdate_eq (hdiv : division.Exact) : (ul : UpdateList) → ul.WellTyped → ul.Supported optimizeDivides →
    ul.Regular v → ∃ array, getArrayForUpdate division optimizeDivides false v ul = pure array ∧ ArrayFor v ul array
  | .root root, hwell, hsupported, _ => by
    obtain ⟨array, hget, harray⟩ := getInitialArray_eq (v := v) hwell hsupported.1 hsupported.2
    refine ⟨array, ?_, harray⟩
    rw [getArrayForUpdate, hget]
    rfl
  | .extend next index stored, hwell, hsupported, hregular => by
    obtain ⟨array, hget, harray⟩ := getArrayForUpdate_eq hdiv next hwell.1 hsupported.1 hregular.1
    obtain ⟨array', hwrite, harray'⟩ := vc_writeExpr_stp harray hwell hsupported.1
    refine ⟨array', ?_, harray'⟩
    simp only [getArrayForUpdate, hget, construct_eq hdiv index hwell.2.1 hsupported.2.1 hregular.2.1,
      construct_eq hdiv stored hwell.2.2.1 hsupported.2.2 hregular.2.2, pure_bind, hwrite, liftM_some]
end

/-- The term of a condition is a formula. -/
theorem constructTerm_bool (useConstructHash : Bool) (hdiv : division.Exact) {e : Expr} (he : e.Typed 1)
    (hsupported : e.Supported optimizeDivides) (hregular : e.Regular v) :
    constructTerm division optimizeDivides useConstructHash v e = some (.bool (e.value v = 1)) := by
  rw [constructTerm, (construct_agrees division optimizeDivides useConstructHash v e).value_eq,
    construct_eq hdiv e he.1 hsupported hregular, Expr.stp, if_pos he.2]
  rfl

/-- With and without the table, the term of an expression has the value of the expression. -/
theorem constructTerm_eq (useConstructHash : Bool) (hdiv : division.Exact) (e : Expr) (hwell : e.WellTyped)
    (hsupported : e.Supported optimizeDivides) (hregular : e.Regular v) :
    constructTerm division optimizeDivides useConstructHash v e = some (e.stp v) := by
  rw [constructTerm, (construct_agrees division optimizeDivides useConstructHash v e).value_eq,
    construct_eq hdiv e hwell hsupported hregular]
  rfl

end

theorem constructTerm_eq_read :
    @constructTerm STP.values (fun kind _ x y => kind.eval x y) true true (fun _ _ => 200)
        (.arith .udiv (.arith .ashr (.read (.root ⟨0, 4, 32, 8, []⟩) (.constant 32 2)) (.constant 8 3)) (.constant 8 7)) =
      some (.bv (.ofVec (35 : BitVec 8))) := by
  have hvalue : Expr.stp (fun _ _ => 200)
      (.arith .udiv (.arith .ashr (.read (.root ⟨0, 4, 32, 8, []⟩) (.constant 32 2)) (.constant 8 3)) (.constant 8 7)) =
        .bv (.ofVec (35 : BitVec 8)) := by decide +kernel
  rw [← hvalue]
  have hroot : Array.WellFormed ⟨0, 4, 32, 8, []⟩ := ⟨by decide, by decide, fun h => absurd h (by decide)⟩
  refine @constructTerm_eq _ _ _ STP.values STP.values_documented true (fun _ _ _ _ _ _ => rfl) _ ?_ ?_ ?_
  · simp [Expr.WellTyped, UpdateList.WellTyped, Expr.getWidth, UpdateList.array, hroot]
  · simp [Expr.Supported, UpdateList.Supported, ArithSupported, Expr.getWidth, Expr.ShiftFits, UpdateList.array]
  · simp [Expr.Regular, UpdateList.Regular, ArithRegular, UpdateList.Inside, Expr.getWidth, Expr.value, UpdateList.array]

section
variable [STP] [Documented]

/-- The term of an arithmetic shift is right exactly if no sign is shifted by the width less one or more: the builder takes
every such shift for one that leaves nothing. -/
theorem constructTerm_ashr_iff (useConstructHash : Bool) (hdiv : division.Exact) {l r : Expr}
    (hwell : (Expr.arith .ashr l r).WellTyped) (hsupported : (Expr.arith .ashr l r).Supported optimizeDivides)
    (hl : l.Regular v) (hr : r.Regular v) :
    constructTerm division optimizeDivides useConstructHash v (.arith .ashr l r) = some ((Expr.arith .ashr l r).stp v) ↔
      ¬((l.bits v l.getWidth).msb = true ∧ l.getWidth - 1 ≤ r.value v) := by
  obtain ⟨hlwell, hrwell, hw⟩ := hwell
  obtain ⟨hlsupported, hrsupported, hne, hlt, hfits⟩ := hsupported
  have hwide : 1 < l.getWidth := by have := l.width_pos hlwell; omega
  have hterm : constructTerm division optimizeDivides useConstructHash v (.arith .ashr l r) =
      some (.bv (ofVec (arithShift (l.bits v l.getWidth) (r.value v)))) := by
    have hshift := constructAshr_pure (x := l.bits v l.getWidth) (y := r.bits v l.getWidth) hwide hlt fun s =>
      constantShift_spec hw.symm hfits
    rw [constructTerm, (construct_agrees division optimizeDivides useConstructHash v _).value_eq]
    simp only [construct, remembered, construct_eq hdiv l hlwell hlsupported hl, construct_eq hdiv r hrwell hrsupported hr, ← hw,
      Expr.stp_bv rfl hne, Expr.stp_bv hw.symm hne, constructArith]
    rw [Expr.toNat_bits hrwell hw.symm] at hshift
    exact congrArg (fun m => m.value.map Prod.fst) hshift
  rw [hterm, Expr.stp_bv (e := .arith .ashr l r) (w := l.getWidth) rfl hne, Expr.bits_arith .ashr rfl, ← arithShift_eq_iff hwide]
  have hright : applyArith .ashr (l.bits v l.getWidth) (r.bits v l.getWidth) = (l.bits v l.getWidth).sshiftRight (r.value v) := by
    rw [applyArith_eq fun h => absurd h (by decide), ← Expr.toNat_bits hrwell hw.symm]
    rfl
  rw [hright, Option.some_inj, STPExpr.bv.injEq, ofVec_inj]

end

theorem constructTerm_ashr_iff_read :
    ¬@constructTerm STP.values (fun kind _ x y => kind.eval x y) true true (fun _ _ => 200)
        (.arith .ashr (.read (.root ⟨0, 4, 32, 8, []⟩) (.constant 32 2)) (.constant 8 7)) =
      some (Expr.stp (fun _ _ => 200) (.arith .ashr (.read (.root ⟨0, 4, 32, 8, []⟩) (.constant 32 2)) (.constant 8 7))) := by
  have hroot : Array.WellFormed ⟨0, 4, 32, 8, []⟩ := ⟨by decide, by decide, fun h => absurd h (by decide)⟩
  rw [@constructTerm_ashr_iff _ _ _ STP.values STP.values_documented true (fun _ _ _ _ _ _ => rfl)]
  · decide +kernel
  · simp [Expr.WellTyped, UpdateList.WellTyped, Expr.getWidth, UpdateList.array, hroot]
  · simp [Expr.Supported, UpdateList.Supported, ArithSupported, Expr.getWidth, Expr.ShiftFits, UpdateList.array]
  · simp [Expr.Regular, UpdateList.Regular, UpdateList.Inside, Expr.value]
  · simp [Expr.Regular]

end STPBuilder
end CapTaint.Klee
