import CapTaint.Theorems.STPBuilder
import CapTaint.Theorems.Values
import CapTaint.Klee.Construct

/-! # Terms of vectors

What the interface of STP and the functions for constants and shifts make of terms that have the values of vectors. -/

namespace CapTaint.Klee

namespace Term
variable {w : Nat} {x y : BitVec w}

/-- The term of a vector. -/
def ofVec (x : BitVec w) : Term := ofInt w x.toNat

@[simp] theorem width_ofVec (x : BitVec w) : (ofVec x).width = w := rfl

@[simp] theorem value_ofVec (x : BitVec w) : (ofVec x).value = x.toNat := value_ofNat x.isLt

@[simp] theorem ofNat_value (x : BitVec w) : BitVec.ofNat w (ofVec x).value = x := by
  rw [value_ofVec, BitVec.ofNat_toNat, BitVec.setWidth_eq]

theorem ofInt_eq_ofVec {i : Int} (h : i ≡ x.toNat [ZMOD (2 ^ w : Nat)]) : ofInt w i = ofVec x := ofInt_congr h

theorem ofInt_natCast {n : Nat} (h : n % 2 ^ w = x.toNat) : ofInt w n = ofVec x := by
  refine ofInt_congr ?_
  rw [← h]
  push_cast
  exact (Int.emod_emod_of_dvd _ dvd_rfl).symm

theorem toInt_ofVec (x : BitVec w) : (ofVec x).toInt = x.toInt := by
  rw [toInt, BitVec.toInt_eq_toNat_cond, value_ofVec, width_ofVec]

end Term

namespace STPBuilder
open STP Term

variable {w m n : Nat} {x y : BitVec w}

theorem divide_ofVec (division : StpDivision) (kind : ArithKind) (x y : BitVec w) :
    divide division kind w (ofVec x) (ofVec y) = some (ofVec (division kind w x y)) := by
  rw [divide, if_pos ⟨rfl, rfl⟩, ofNat_value, ofNat_value]
  rfl

theorem bitwise_ofVec (op : Nat → Nat → Nat) {z : BitVec w} (h : op x.toNat y.toNat = z.toNat) :
    bitwise op (ofVec x) (ofVec y) = some (ofVec z) := by
  rw [bitwise, width_ofVec, width_ofVec, if_pos rfl, value_ofVec, value_ofVec, h]
  rfl

theorem cases_ofVec {step : Term → Nat → Option Term} {g : Nat → BitVec w} {y : BitVec w}
    (hstep : ∀ res i, i < w → step (ofVec res) i = some (ofVec (if y.toNat = i then g i else res))) (amounts : List Nat)
    (hamounts : ∀ i ∈ amounts, i < w) (res : BitVec w) :
    amounts.foldlM step (ofVec res) = some (ofVec (if y.toNat ∈ amounts then g y.toNat else res)) := by
  induction amounts generalizing res with
  | nil => rfl
  | cons i amounts ih =>
    obtain ⟨hi, hrest⟩ := List.forall_mem_cons.mp hamounts
    rw [List.foldlM_cons, hstep res i hi, Option.bind_eq_bind, Option.bind_some, ih hrest]
    by_cases heq : y.toNat = i
    · rw [if_pos heq, ← heq, ite_self, if_pos List.mem_cons_self]
    · rw [if_neg heq]
      simp only [List.mem_cons, heq, false_or]

/-! ### Arithmetic shifts -/

/-- What the arithmetic shifts compute: nothing is left of a sign that is shifted by the width less one or more. -/
def arithShift (x : BitVec w) (shift : Nat) : BitVec w := if shift = 0 ∨ shift < w - 1 then x.sshiftRight shift else 0

theorem toNat_sshiftRight_of_msb (hmsb : x.msb = true) {s : Nat} (hs : s ≤ w) :
    (x.sshiftRight s).toNat = (2 ^ s - 1) * 2 ^ (w - s) + x.toNat / 2 ^ s := by
  have hx := x.isLt
  have hs' := Nat.two_pow_pos s
  have hsplit : 2 ^ w = 2 ^ s * 2 ^ (w - s) := by rw [← pow_add, Nat.add_sub_cancel' hs]
  rw [BitVec.toNat_sshiftRight_of_msb_true hmsb, Nat.shiftRight_eq_div_pow]
  have hq := Nat.div_add_mod x.toNat (2 ^ s)
  have hr := Nat.mod_lt x.toNat hs'
  have hlt : x.toNat / 2 ^ s < 2 ^ (w - s) := by
    rw [Nat.div_lt_iff_lt_mul hs', Nat.mul_comm, ← hsplit]
    exact hx
  generalize x.toNat / 2 ^ s = q at hq hlt ⊢
  generalize x.toNat % 2 ^ s = r at hq hr
  have hquotient : (2 ^ w - 1 - x.toNat) / 2 ^ s = 2 ^ (w - s) - 1 - q := by
    obtain ⟨k, hk⟩ := Nat.exists_eq_add_of_lt hlt
    have hrest : 2 ^ w - 1 - x.toNat = 2 ^ s * k + (2 ^ s - 1 - r) := by
      rw [hsplit, hk, ← hq, Nat.mul_add, Nat.mul_add, Nat.mul_one]
      omega
    rw [hrest, Nat.mul_add_div hs', Nat.div_eq_of_lt (by omega)]
    omega
  rw [hquotient, hsplit, Nat.sub_mul, Nat.one_mul]
  have hle : 2 ^ (w - s) ≤ 2 ^ s * 2 ^ (w - s) := Nat.le_mul_of_pos_left _ hs'
  omega

/-- The arithmetic shift is right unless a sign is shifted by the width less one or more. -/
theorem arithShift_eq_iff (hw : 1 < w) (x : BitVec w) (s : Nat) :
    arithShift x s = x.sshiftRight s ↔ ¬(x.msb = true ∧ w - 1 ≤ s) := by
  unfold arithShift
  by_cases hs : s = 0 ∨ s < w - 1
  · rw [if_pos hs]
    exact iff_of_true rfl (by omega)
  · rw [if_neg hs]
    cases hmsb : x.msb with
    | false =>
      have hlt : x.toNat < 2 ^ (w - 1) := by
        rw [BitVec.msb_eq_decide] at hmsb
        simpa using hmsb
      refine iff_of_true ?_ (fun h => Bool.false_ne_true h.1)
      rw [BitVec.sshiftRight_eq_of_msb_false hmsb]
      refine BitVec.eq_of_toNat_eq ?_
      rw [BitVec.toNat_ushiftRight, Nat.shiftRight_eq_div_pow,
        Nat.div_eq_of_lt (hlt.trans_le (Nat.pow_le_pow_right Nat.two_pos (by omega)))]
      rfl
    | true =>
      refine iff_of_false (fun heq => ?_) (fun h => h ⟨rfl, by omega⟩)
      have hsign : (x.sshiftRight s).msb = x.msb := BitVec.msb_sshiftRight
      rw [← heq, hmsb] at hsign
      exact Bool.false_ne_true (BitVec.msb_zero.symm.trans hsign)

variable [STP] [Documented]

/-! ### The interface of STP -/

theorem vc_bvPlusExpr_ofVec (x y : BitVec w) : vc_bvPlusExpr w (ofVec x) (ofVec y) = some (ofVec (x + y)) := by
  refine (bvPlus_ofInt w _ _).trans (congrArg some ?_)
  exact_mod_cast ofInt_natCast (BitVec.toNat_add x y).symm

theorem vc_bvMinusExpr_ofVec (x y : BitVec w) : vc_bvMinusExpr w (ofVec x) (ofVec y) = some (ofVec (x - y)) := by
  refine (bvMinus_ofInt w _ _).trans (congrArg some (ofInt_eq_ofVec ?_))
  rw [BitVec.toNat_sub, Int.natCast_mod, Nat.cast_add, Nat.cast_sub y.isLt.le]
  refine Int.ModEq.trans ?_ (Int.mod_modEq _ _).symm
  exact Int.modEq_iff_dvd.mpr ⟨1, by ring⟩

theorem vc_bvMultExpr_ofVec (x y : BitVec w) : vc_bvMultExpr w (ofVec x) (ofVec y) = some (ofVec (x * y)) := by
  rw [Documented.bvMult]
  refine (arith_ofInt _ Int.ModEq.mul w _ _).trans (congrArg some ?_)
  exact_mod_cast ofInt_natCast (BitVec.toNat_mul x y).symm

theorem vc_bvAndExpr_ofVec (x y : BitVec w) : vc_bvAndExpr (ofVec x) (ofVec y) = some (ofVec (x &&& y)) := by
  rw [Documented.bvAnd]
  exact bitwise_ofVec _ (BitVec.toNat_and x y).symm

theorem vc_bvOrExpr_ofVec (x y : BitVec w) : vc_bvOrExpr (ofVec x) (ofVec y) = some (ofVec (x ||| y)) := by
  rw [Documented.bvOr]
  exact bitwise_ofVec _ (BitVec.toNat_or x y).symm

theorem vc_bvXorExpr_ofVec (x y : BitVec w) : vc_bvXorExpr (ofVec x) (ofVec y) = some (ofVec (x ^^^ y)) := by
  rw [Documented.bvXor]
  exact bitwise_ofVec _ (BitVec.toNat_xor x y).symm

theorem vc_bvNotExpr_ofVec (x : BitVec w) : vc_bvNotExpr (ofVec x) = ofVec (~~~x) := by
  rw [Documented.bvNot]
  show ofInt w (~~~BitVec.ofNat w (ofVec x).value).toNat = _
  rw [ofNat_value]
  rfl

theorem vc_bvConcatExpr_ofVec (x : BitVec m) (y : BitVec n) : vc_bvConcatExpr (ofVec x) (ofVec y) = ofVec (x ++ y) := by
  rw [Documented.bvConcat, value_ofVec, value_ofVec, width_ofVec, width_ofVec, ofVec, BitVec.toNat_append, Nat.shiftLeft_eq,
    Nat.mul_comm, Nat.two_pow_add_eq_or_of_lt y.isLt]

theorem vc_bvExtract_ofVec (x : BitVec w) {top bottom : Nat} (hle : bottom ≤ top) (hlt : top < w) :
    vc_bvExtract (ofVec x) top bottom = some (ofVec (x.extractLsb' bottom (top + 1 - bottom))) := by
  rw [Documented.bvExtract, if_pos ⟨hle, hlt⟩, value_ofVec]
  refine congrArg some (ofInt_natCast ?_)
  rw [BitVec.extractLsb'_toNat, Nat.shiftRight_eq_div_pow]

theorem vc_bvSignExtend_ofVec (x : BitVec w) (hle : w ≤ n) : vc_bvSignExtend (ofVec x) n = some (ofVec (x.signExtend n)) := by
  rw [Documented.bvSignExtend, width_ofVec, if_pos hle, toInt_ofVec]
  refine congrArg some (ofInt_eq_ofVec ?_)
  rw [← BitVec.toInt_signExtend_of_le hle]
  exact (toNat_modEq _).symm

theorem compare_ofVec {kind : CmpKind} (hkind : kind ≠ .ne) (x y : BitVec w) :
    STP.compare kind (ofVec x) (ofVec y) = some (kind.eval x y) := by
  have hrelation (holds : Term → Term → Bool) : relation holds (ofVec x) (ofVec y) = some (holds (ofVec x) (ofVec y)) := if_pos rfl
  cases kind with
  | ne => exact absurd rfl hkind
  | eq =>
    rw [STP.compare, Documented.eqExpr, hrelation, value_ofVec, value_ofVec]
    exact congrArg some (decide_eq_decide.mpr BitVec.toNat_inj)
  | ult =>
    rw [STP.compare, Documented.bvLt, hrelation, value_ofVec, value_ofVec]
    rfl
  | ule =>
    rw [STP.compare, Documented.bvLe, hrelation, value_ofVec, value_ofVec]
    rfl
  | slt =>
    rw [STP.compare, Documented.sbvLt, hrelation, toInt_ofVec, toInt_ofVec]
    rfl
  | sle =>
    rw [STP.compare, Documented.sbvLe, hrelation, toInt_ofVec, toInt_ofVec]
    rfl

theorem vc_iteExpr_ofVec (cond : Bool) (x y : BitVec w) :
    vc_iteExpr (.bool cond) (.bv (ofVec x)) (.bv (ofVec y)) = some (.bv (ofVec (if cond then x else y))) := by
  rw [Documented.iteExpr]
  cases cond <;> exact if_pos rfl

theorem iteTerm_ofVec (cond : Bool) (x y : BitVec w) :
    iteTerm cond (ofVec x) (ofVec y) = some (ofVec (if cond then x else y)) := by
  rw [iteTerm_eq cond (by rfl)]
  cases cond <;> rfl

/-! ### Constants -/

theorem bvConst64_eq (w : Nat) (x : BitVec 64) : bvConst64 w x = ofInt w x.toNat := Documented.constFromLL w x

theorem zextLoop_eq (n : Nat) (t : Term) : zextLoop n t = ofInt (n + t.width) t.value := by
  induction n using Nat.strong_induction_on generalizing t with
  | h n ih =>
    have hvalue {k : Nat} : vc_bvConcatExpr (bvConst64 k 0) t = ofInt (k + t.width) t.value := by
      rw [bvConst64_eq, Documented.bvConcat, width_ofInt]
      show ofInt (k + t.width) ((ofInt k (0 : Nat)).value * 2 ^ t.width + t.value : Nat) = _
      rw [value_ofNat (Nat.two_pow_pos k), Nat.zero_mul, Nat.zero_add]
    rw [zextLoop]
    split
    case isTrue h =>
      have hfits : t.value < 2 ^ (64 + t.width) := t.lt.trans_le (Nat.pow_le_pow_right Nat.two_pos (Nat.le_add_left _ _))
      rw [ih (n - 64) (by omega), hvalue, width_ofInt, value_ofNat hfits, ← Nat.add_assoc, Nat.sub_add_cancel h.le]
    case isFalse => exact hvalue

theorem bvZExtConst_eq (w : Nat) (x : BitVec 64) : bvZExtConst w x = ofInt w x.toNat := by
  unfold bvZExtConst
  split
  case isTrue => exact bvConst64_eq w x
  case isFalse h =>
    rw [zextLoop_eq, bvConst64_eq]
    show ofInt (w - 64 + 64) (ofInt 64 (x.toNat : Nat)).value = _
    rw [value_ofNat x.isLt, Nat.sub_add_cancel (by omega)]

theorem bvZExtConst_zero (w : Nat) : bvZExtConst w 0 = ofVec (0 : BitVec w) := by
  rw [bvZExtConst_eq]
  exact ofInt_natCast (Nat.zero_mod _)

theorem bvZExtConst_one (w : Nat) : bvZExtConst w 1 = ofVec (1 : BitVec w) := by
  rw [bvZExtConst_eq]
  exact ofInt_natCast rfl

theorem bvSExtConst_minusOne (w : Nat) : bvSExtConst w (-1) = some (ofVec (BitVec.allOnes w)) := by
  unfold bvSExtConst
  split
  case isTrue h =>
    rw [bvConst64_eq]
    refine congrArg some (ofInt_natCast ?_)
    rw [BitVec.toNat_allOnes]
    have hdvd : 2 ^ w ∣ 2 ^ 64 := pow_dvd_pow 2 h
    have hpos := Nat.two_pow_pos w
    show (2 ^ 64 - 1) % 2 ^ w = 2 ^ w - 1
    obtain ⟨k, hk⟩ := hdvd
    cases k with
    | zero => rw [Nat.mul_zero] at hk; exact absurd hk (by norm_num)
    | succ k =>
      have hsplit : 2 ^ 64 - 1 = 2 ^ w - 1 + 2 ^ w * k := by rw [hk, Nat.mul_succ]; omega
      rw [hsplit, Nat.add_mul_mod_self_left, Nat.mod_eq_of_lt (by omega)]
  case isFalse h =>
    have hones : bvConst64 64 (-1) = ofVec (BitVec.allOnes 64) := bvConst64_eq 64 (-1)
    rw [hones, vc_bvSignExtend_ofVec _ (by omega)]
    refine congrArg some (congrArg ofVec (BitVec.eq_of_toInt_eq ?_))
    rw [BitVec.toInt_signExtend_of_le (by omega), BitVec.toInt_allOnes, BitVec.toInt_allOnes, if_pos (by omega), if_pos (by omega)]

theorem constantLoop_eq (n : Nat) (tmp : BitVec n) (res : Term) :
    constantLoop n tmp res = ofInt (n - 64 + res.width) (tmp.toNat / 2 ^ 64 * 2 ^ res.width + res.value : Nat) := by
  induction n using Nat.strong_induction_on generalizing res with
  | h n ih =>
    rw [constantLoop]
    split
    case isTrue h =>
      have hrest : (tmp.extractLsb' 64 (n - 64)).toNat = tmp.toNat / 2 ^ 64 := by
        rw [BitVec.extractLsb'_toNat, Nat.shiftRight_eq_div_pow, Nat.mod_eq_of_lt]
        rw [Nat.div_lt_iff_lt_mul (Nat.two_pow_pos 64), ← pow_add, Nat.sub_add_cancel h.le]
        exact tmp.isLt
      rw [ih (n - 64) (by omega)]
      generalize tmp.extractLsb' 64 (n - 64) = rest at hrest ⊢
      rw [← hrest]
      have hbound := rest.isLt
      generalize hk : min 64 (n - 64) = k
      have hchunk : (bvConst64 k ((rest.extractLsb' 0 k).setWidth 64)).value = rest.toNat % 2 ^ k := by
        rw [bvConst64_eq]
        have hlt : rest.toNat % 2 ^ k < 2 ^ k := Nat.mod_lt _ (Nat.two_pow_pos k)
        rw [BitVec.toNat_setWidth, BitVec.extractLsb'_toNat, Nat.shiftRight_zero,
          Nat.mod_eq_of_lt (hlt.trans_le (Nat.pow_le_pow_right Nat.two_pos (by omega))), value_ofNat hlt]
      have hfits := concat_lt (Nat.mod_lt rest.toNat (Nat.two_pow_pos k)) res.lt
      have hres : vc_bvConcatExpr (bvConst64 k ((rest.extractLsb' 0 k).setWidth 64)) res =
          ofInt (k + res.width) (rest.toNat % 2 ^ k * 2 ^ res.width + res.value : Nat) := by
        rw [Documented.bvConcat, hchunk, bvConst64_eq, width_ofInt]
      rw [hres, width_ofInt, value_ofNat hfits]
      have hwidth : n - 64 - 64 + (k + res.width) = n - 64 + res.width := by omega
      have hvalue : rest.toNat / 2 ^ 64 * 2 ^ k + rest.toNat % 2 ^ k = rest.toNat := by
        by_cases hlast : n - 64 ≤ 64
        · obtain rfl : n - 64 = k := by omega
          rw [Nat.div_eq_of_lt (hbound.trans_le (Nat.pow_le_pow_right Nat.two_pos hlast)), Nat.zero_mul, Nat.zero_add,
            Nat.mod_eq_of_lt hbound]
        · obtain rfl : 64 = k := by omega
          exact Nat.div_add_mod' _ _
      rw [hwidth, pow_add, ← Nat.mul_assoc, ← Nat.add_assoc, ← Nat.add_mul, hvalue]
    case isFalse h =>
      rw [Nat.div_eq_of_lt (tmp.isLt.trans_le (Nat.pow_le_pow_right Nat.two_pos (by omega))), Nat.sub_eq_zero_of_le (by omega),
        Nat.zero_mul, Nat.zero_add, Nat.zero_add]
      exact eq_ofInt res

/-- A constant of one bit becomes a formula, any other one a vector of its value. -/
theorem constructConstant_eq (c : BitVec w) :
    constructConstant w c = some (if w = 1 then .bool (c.toNat = 1) else .bv (ofVec c)) := by
  unfold constructConstant
  by_cases hone : w = 1
  · rw [if_pos hone, if_pos hone]
  · rw [if_neg hone, if_neg hone]
    split
    case isTrue h =>
      have hfits : (c.setWidth 32).toNat = c.toNat := by
        rw [BitVec.toNat_setWidth, Nat.mod_eq_of_lt (c.isLt.trans_le (Nat.pow_le_pow_right Nat.two_pos h))]
      rw [bvConst32, Documented.constFromInt, hfits, if_pos c.isLt]
      rfl
    case isFalse =>
      split
      case isTrue h =>
        refine congrArg (fun t => some (STPExpr.bv t)) ?_
        rw [bvConst64_eq, BitVec.toNat_setWidth, Nat.mod_eq_of_lt (c.isLt.trans_le (Nat.pow_le_pow_right Nat.two_pos h))]
        rfl
      case isFalse h =>
        refine congrArg (fun t => some (STPExpr.bv t)) ?_
        have hlow : (bvConst64 64 ((c.extractLsb' 0 64).setWidth 64)) = ofInt 64 (c.toNat % 2 ^ 64 : Nat) := by
          rw [bvConst64_eq, BitVec.setWidth_eq, BitVec.extractLsb'_toNat, Nat.shiftRight_zero]
        rw [constantLoop_eq, hlow, width_ofInt, value_ofNat (Nat.mod_lt _ (Nat.two_pow_pos 64)), Nat.sub_add_cancel (by omega),
          Nat.div_add_mod']
        rfl

/-! ### Shifts -/

theorem bvLeftShift_ofVec (x : BitVec w) (i : Nat) : bvLeftShift (ofVec x) i = some (ofVec (x <<< i)) := by
  have hvalue : x.toNat * 2 ^ i % 2 ^ w = (x <<< i).toNat := by rw [BitVec.toNat_shiftLeft, Nat.shiftLeft_eq]
  rw [bvLeftShift_eq, value_ofVec]
  exact congrArg some (ofInt_natCast hvalue)

theorem bvRightShift_ofVec (x : BitVec w) (i : Nat) : bvRightShift (ofVec x) i = some (ofVec (x >>> i)) := by
  have hvalue : (x >>> i).toNat = x.toNat / 2 ^ i := by rw [BitVec.toNat_ushiftRight, Nat.shiftRight_eq_div_pow]
  rw [bvRightShift_eq, value_ofVec, ← hvalue]
  rfl

theorem bvVarRightShift_ofVec (hw : w < 2 ^ 32) (x y : BitVec w) : bvVarRightShift (ofVec x) (ofVec y) = some (ofVec (x >>> y)) := by
  have hwidths : (ofVec y).width = (ofVec x).width := rfl
  rw [bvVarRightShift_eq hwidths hw, ← bvRightShift_eq, value_ofVec, bvRightShift_ofVec]
  rfl

/-- One case of an amount: the constant has the width of the shifted term. -/
theorem eqCase_ofVec (hw : w < 2 ^ 32) {i : Nat} (hi : i < w) (y : BitVec w) :
    ((bvConst32 w (BitVec.ofNat 32 i)).bind fun c => vc_eqExpr (ofVec y) c) = some (decide (y.toNat = i)) := by
  have hfits : i < 2 ^ w := hi.trans Nat.lt_two_pow_self
  rw [bvConst32_eq (hi.trans hw) hfits, Option.bind_some, vc_eqExpr_eq (by rfl), value_ofVec, value_ofNat hfits]

theorem overshift_ofVec (hw : w < 2 ^ 32) (x y res : BitVec w) :
    overshift (ofVec x) (ofVec y) (ofVec res) = some (ofVec (if y.toNat < w then res else 0)) := by
  have hfits : w < 2 ^ w := Nat.lt_two_pow_self
  rw [overshift, width_ofVec, width_ofVec, bvConst32_eq hw hfits, bvZExtConst_zero]
  simp only [Option.bind_eq_bind, Option.bind_some]
  rw [vc_bvLtExpr_eq (by rfl), value_ofVec, value_ofNat hfits, Option.bind_some, iteTerm_ofVec]
  simp only [decide_eq_true_eq]

theorem bvVarLeftShift_ofVec (hw : w < 2 ^ 32) (x y : BitVec w) : bvVarLeftShift (ofVec x) (ofVec y) = some (ofVec (x <<< y)) := by
  have hstep (res : BitVec w) (i : Nat) (hi : i < w) :
      leftShiftCase (ofVec x) (ofVec y) (ofVec res) i = some (ofVec (if y.toNat = i then x <<< i else res)) := by
    have hcase := eqCase_ofVec hw hi y
    rw [leftShiftCase, width_ofVec, bvLeftShift_ofVec]
    simp only [Option.bind_eq_bind, Option.bind_some] at hcase ⊢
    rw [← Option.bind_assoc, hcase, Option.bind_some, iteTerm_ofVec]
    simp only [decide_eq_true_eq]
  have hall : ∀ i ∈ (List.range w).reverse, i < w := fun i hi => by simpa using hi
  rw [bvVarLeftShift, width_ofVec, bvZExtConst_zero, cases_ofVec hstep _ hall]
  simp only [Option.bind_eq_bind, Option.bind_some, overshift_ofVec hw, List.mem_reverse, List.mem_range]
  refine congrArg (fun z => some (ofVec z)) ?_
  by_cases hlt : y.toNat < w
  · rw [if_pos hlt, if_pos hlt]
    rfl
  · rw [if_neg hlt]
    exact (BitVec.shiftLeft_eq_zero (by omega)).symm

theorem constructAShrByConstant_ofVec (x : BitVec w) (s : Nat) :
    constructAShrByConstant (ofVec x) s x.msb = some (ofVec (arithShift x s)) := by
  unfold constructAShrByConstant arithShift
  split
  case isTrue h =>
    rw [if_pos (.inl h), h, BitVec.sshiftRight_zero]
  case isFalse h =>
    split
    case isTrue hle =>
      rw [width_ofVec] at hle
      rw [if_neg (by omega), width_ofVec, bvZExtConst_zero]
    case isFalse hlt =>
      rw [width_ofVec, not_le] at hlt
      have hwidth : w - 1 + 1 - s = w - s := by omega
      rw [if_pos (.inr hlt), bvSExtConst_minusOne, width_ofVec, vc_bvExtract_ofVec x (by omega) (by omega), bvRightShift_ofVec]
      simp only [Option.bind_eq_bind, Option.bind_some]
      rw [vc_bvConcatExpr_ofVec, iteTerm_eq _ (by simp only [width_ofVec]; omega)]
      refine congrArg some ?_
      cases hmsb : x.msb with
      | true =>
        refine ext_value (by simp only [if_true, width_ofVec]; omega) ?_
        have hbound : x.toNat / 2 ^ s < 2 ^ (w - s) := by
          rw [Nat.div_lt_iff_lt_mul (Nat.two_pow_pos s), ← pow_add, Nat.sub_add_cancel (by omega)]
          exact x.isLt
        rw [if_pos rfl, value_ofVec, value_ofVec, toNat_sshiftRight_of_msb hmsb (by omega), BitVec.toNat_append,
          BitVec.toNat_allOnes, BitVec.extractLsb'_toNat, Nat.shiftRight_eq_div_pow, hwidth, Nat.mod_eq_of_lt hbound,
          Nat.shiftLeft_eq, Nat.mul_comm, Nat.two_pow_add_eq_or_of_lt hbound]
      | false =>
        rw [if_neg Bool.false_ne_true, BitVec.sshiftRight_eq_of_msb_false hmsb]

theorem bvBoolExtract_ofVec (x : BitVec w) {i : Nat} (hi : i < w) : bvBoolExtract (ofVec x) i = some (x.getLsbD i) := by
  have hwidth : i + 1 - i = 1 := by omega
  have hone : bvOne 1 = ofVec (1#1) := bvOne_eq 1
  rw [bvBoolExtract, vc_bvExtract_ofVec x le_rfl hi]
  simp only [Option.bind_eq_bind, Option.bind_some]
  rw [hone, vc_eqExpr_eq (by rw [width_ofVec, width_ofVec, hwidth]), value_ofVec, value_ofVec, BitVec.extractLsb'_toNat, hwidth, pow_one]
  refine congrArg some ?_
  rw [BitVec.getLsbD, Nat.testBit_eq_decide_div_mod_eq, Nat.shiftRight_eq_div_pow]
  rfl

theorem bvBoolExtract_msb (x : BitVec w) (hw : 0 < w) : bvBoolExtract (ofVec x) (w - 1) = some x.msb := by
  rw [bvBoolExtract_ofVec x (by omega), BitVec.msb_eq_getLsbD_last]

theorem ashrByConstant_ofVec (hw : 0 < w) (x : BitVec w) (s : Nat) :
    ashrByConstant (ofVec x) s = some (ofVec (arithShift x s)) := by
  rw [ashrByConstant, width_ofVec, bvBoolExtract_msb x hw]
  exact constructAShrByConstant_ofVec x s

theorem bvVarArithRightShift_ofVec (hpos : 1 < w) (hw : w < 2 ^ 32) (x y : BitVec w) :
    bvVarArithRightShift (ofVec x) (ofVec y) = some (ofVec (arithShift x y.toNat)) := by
  have hstep (res : BitVec w) (i : Nat) (hi : i < w) : arithShiftCase (ofVec x) (ofVec y) x.msb (ofVec res) i =
      some (ofVec (if y.toNat = i then arithShift x i else res)) := by
    have hcase := eqCase_ofVec hw hi y
    rw [arithShiftCase, width_ofVec, constructAShrByConstant_ofVec]
    simp only [Option.bind_eq_bind, Option.bind_some] at hcase ⊢
    rw [← Option.bind_assoc, hcase, Option.bind_some, iteTerm_ofVec]
    simp only [decide_eq_true_eq]
  have hall : ∀ i ∈ (List.range (w - 1)).reverse, i < w := fun i hi => by
    have : i < w - 1 := by simpa using hi
    omega
  have hstart : arithShift x (w - 1) = 0 := if_neg (by omega)
  rw [bvVarArithRightShift, width_ofVec, bvBoolExtract_msb x (by omega)]
  simp only [Option.bind_eq_bind, Option.bind_some, constructAShrByConstant_ofVec, cases_ofVec hstep _ hall, overshift_ofVec hw,
    List.mem_reverse, List.mem_range, hstart]
  refine congrArg (fun z => some (ofVec z)) ?_
  by_cases hlt : y.toNat < w - 1
  · rw [if_pos (by omega), if_pos hlt]
  · rw [if_neg hlt, ite_self, arithShift, if_neg (by omega)]

end STPBuilder
end CapTaint.Klee
