import CapTaint.Klee.STPBuilder
import CapTaint.Theorems.ConstantDivision

/-! # Multiplications and divisions by constants

The terms of the builder have the values of the operators they stand for. The signed division compares an amount of 32 bits
with constants of 64 bits. -/

namespace CapTaint.Klee

namespace Term

variable {t : Term} {w : Nat} {x y : Int}

@[simp] theorem width_ofInt (w : Nat) (x : Int) : (ofInt w x).width = w := rfl

theorem value_ofInt (w : Nat) (x : Int) : ((ofInt w x).value : Int) = x % (2 ^ w : Nat) := by
  have hpos : (0 : Int) < (2 ^ w : Nat) := by exact_mod_cast Nat.two_pow_pos w
  exact Int.toNat_of_nonneg (Int.emod_nonneg x hpos.ne')

theorem value_ofNat {n : Nat} (h : n < 2 ^ w) : (ofInt w n).value = n := by
  have hvalue := value_ofInt w n
  rw [Int.emod_eq_of_lt (Int.natCast_nonneg n) (by exact_mod_cast h)] at hvalue
  exact_mod_cast hvalue

theorem value_zero (w : Nat) : (ofInt w 0).value = 0 := value_ofNat (Nat.two_pow_pos w)

theorem ofInt_congr (h : x % (2 ^ w : Nat) = y % (2 ^ w : Nat)) : ofInt w x = ofInt w y := by
  unfold ofInt
  simp only [h]

theorem ext_value {s t : Term} (hwidth : s.width = t.width) (hvalue : s.value = t.value) : s = t := by
  cases s
  cases t
  cases hwidth
  cases hvalue
  rfl

theorem eq_ofInt (t : Term) : t = ofInt t.width t.value := ext_value rfl (value_ofNat t.lt).symm

/-- A term takes part in sums with its number. -/
theorem ofInt_value_mod (w : Nat) (x : Int) : ((ofInt w x).value : Int) ≡ x [ZMOD (2 ^ w : Nat)] := by
  rw [value_ofInt]
  exact Int.mod_modEq x _

end Term

namespace STPBuilder
open STP ConstantDivision Term

variable {t : Term} {shift : Term} {i j n w : Nat} {c : MultConstants} {y : Int} {res : Option Term} {d : BitVec 32}

/-! ### Numbers -/

theorem toNat_modEq (n : BitVec w) : (n.toNat : Int) ≡ n.toInt [ZMOD (2 ^ w : Nat)] := by
  rw [BitVec.toInt_eq_toNat_cond]
  split
  · exact Int.ModEq.refl _
  · exact (Int.sub_emod_right _ _).symm

theorem arith_ofInt (op : Int → Int → Int)
    (hop : ∀ {m x x' y y' : Int}, x ≡ x' [ZMOD m] → y ≡ y' [ZMOD m] → op x y ≡ op x' y' [ZMOD m])
    (w : Nat) (x y : Int) : STP.arith op w (ofInt w x) (ofInt w y) = some (ofInt w (op x y)) := by
  rw [STP.arith, if_pos ⟨rfl, rfl⟩]
  exact congrArg some (ofInt_congr (hop (ofInt_value_mod w x) (ofInt_value_mod w y)))

/-- What a bit of the constants contributes to the factor. -/
def bitWeight (c : MultConstants) (j : Nat) : Int :=
  (if c.add.getLsbD j then 2 ^ j else 0) - (if c.sub.getLsbD j then 2 ^ j else 0)

theorem sum_bitWeight (c : MultConstants) (n : Nat) :
    ((List.range n).reverse.map (bitWeight c)).sum = ((c.add.toNat % 2 ^ n : Nat) : Int) - (c.sub.toNat % 2 ^ n : Nat) := by
  induction n with
  | zero => simp [Nat.mod_one]
  | succ n ih =>
    have hbit : ∀ x : BitVec 64, ((x.toNat % 2 ^ (n + 1) : Nat) : Int) =
        (x.toNat % 2 ^ n : Nat) + if x.getLsbD n then 2 ^ n else 0 := by
      intro x
      rw [Nat.mod_pow_succ, ← Nat.toNat_testBit, ← BitVec.testBit_toNat]
      cases x.toNat.testBit n <;> simp
    rw [List.range_succ, List.reverse_append, List.reverse_singleton, List.singleton_append, List.map_cons, List.sum_cons, ih, hbit,
      hbit, bitWeight]
    ring

/-- What is left of the constants at a width are constants for the width. -/
theorem truncated_modEq (hw : w ≤ 64) (c : MultConstants) :
    ((Bits.truncateToNBits c.add w).toNat : Int) - (Bits.truncateToNBits c.sub w).toNat ≡ (c.add - c.sub).toNat
      [ZMOD (2 ^ w : Nat)] := by
  have hdvd : ((2 ^ w : Nat) : Int) ∣ (2 ^ 64 : Nat) := by exact_mod_cast pow_dvd_pow 2 hw
  have hdifference : ((c.add - c.sub).toNat : Int) ≡ c.add.toNat - c.sub.toNat [ZMOD (2 ^ 64 : Nat)] := by
    rw [BitVec.toNat_sub]
    have := c.sub.isLt
    rw [Int.natCast_mod, Nat.cast_add, Nat.cast_sub this.le]
    refine (Int.mod_modEq _ _).trans ?_
    rw [show ((2 ^ 64 : Nat) : Int) - c.sub.toNat + c.add.toNat = c.add.toNat - c.sub.toNat + (2 ^ 64 : Nat) by ring]
    exact Int.add_modEq_right
  rw [Bits.toNat_truncateToNBits c.add hw, Bits.toNat_truncateToNBits c.sub hw, Int.natCast_mod, Int.natCast_mod]
  exact ((Int.mod_modEq _ _).sub (Int.mod_modEq _ _)).trans (hdifference.of_dvd hdvd).symm

theorem disjoint_truncated (hc : c.Disjoint) (hw : w ≤ 64) :
    MultConstants.Disjoint ⟨Bits.truncateToNBits c.add w, Bits.truncateToNBits c.sub w⟩ := by
  intro i hadd
  rw [Bits.getLsbD_truncateToNBits c.add hw, Bool.and_eq_true] at hadd
  rw [Bits.getLsbD_truncateToNBits c.sub hw, hc i hadd.2, Bool.and_false]

/-! ### Constants -/

section
variable [STP] [Documented]

theorem bvZero_eq (w : Nat) : bvZero w = ofInt w 0 := Documented.constFromLL w 0

theorem bvOne_eq (w : Nat) : bvOne w = ofInt w 1 := Documented.constFromLL w 1

theorem width_bvZero (w : Nat) : (bvZero w).width = w := by rw [bvZero_eq, width_ofInt]

/-- The choice between vectors of one width. -/
theorem iteTerm_eq (cond : Bool) {t e : Term} (h : t.width = e.width) : iteTerm cond t e = some (if cond then t else e) := by
  rw [iteTerm, Documented.iteExpr]
  simp only [STPExpr.asBool, Option.bind_eq_bind, Option.bind_some, branches, if_pos h, STPExpr.asBv]

theorem vc_eqExpr_eq {l r : Term} (h : l.width = r.width) : vc_eqExpr l r = some (decide (l.value = r.value)) := by
  rw [Documented.eqExpr]
  exact if_pos h

theorem vc_bvLtExpr_eq {l r : Term} (h : l.width = r.width) : vc_bvLtExpr l r = some (decide (l.value < r.value)) := by
  rw [Documented.bvLt]
  exact if_pos h

/-! ### Shifts -/

theorem bvRightShift_eq (t : Term) (i : Nat) : bvRightShift t i = some (ofInt t.width (t.value / 2 ^ i : Nat)) := by
  unfold bvRightShift
  split
  case isTrue hzero =>
    rw [hzero, pow_zero, Nat.div_one]
    exact congrArg some (eq_ofInt t)
  case isFalse hzero =>
    split
    case isTrue hle =>
      rw [Nat.div_eq_of_lt (t.lt.trans_le (Nat.pow_le_pow_right Nat.two_pos hle))]
      exact congrArg some (bvZero_eq _)
    case isFalse hlt =>
      have hbound : t.value / 2 ^ i < 2 ^ (t.width - i) := by
        rw [Nat.div_lt_iff_lt_mul (Nat.two_pow_pos i), ← pow_add, Nat.sub_add_cancel (by omega)]
        exact t.lt
      have hwidth : t.width - 1 + 1 - i = t.width - i := by omega
      rw [Documented.bvExtract, if_pos ⟨by omega, by omega⟩, hwidth]
      simp only [Documented.bvConcat, bvZero_eq, width_ofInt, value_ofNat hbound, value_zero, Option.bind_eq_bind, Option.bind_some,
        pure, Nat.zero_mul, Nat.zero_add]
      rw [Nat.add_sub_cancel' (by omega)]

theorem bvLeftShift_eq (t : Term) (j : Nat) : bvLeftShift t j = some (ofInt t.width (t.value * 2 ^ j : Nat)) := by
  unfold bvLeftShift
  split
  case isTrue hzero =>
    rw [hzero, pow_zero, Nat.mul_one]
    exact congrArg some (eq_ofInt t)
  case isFalse hzero =>
    split
    case isTrue hle =>
      refine congrArg some ((bvZero_eq _).trans (ofInt_congr ?_))
      have hdvd : 2 ^ t.width ∣ t.value * 2 ^ j := Dvd.dvd.mul_left (pow_dvd_pow 2 hle) _
      have hmod : ((t.value * 2 ^ j : Nat) : Int) % (2 ^ t.width : Nat) = 0 := by
        exact_mod_cast Nat.mod_eq_zero_of_dvd hdvd
      rw [hmod]
      exact Int.zero_emod _
    case isFalse hlt =>
      have hwidth : t.width - j - 1 + 1 - 0 = t.width - j := by omega
      rw [Documented.bvExtract, if_pos ⟨by omega, by omega⟩, hwidth, pow_zero, Nat.div_one]
      simp only [Documented.bvConcat, bvZero_eq, width_ofInt, value_zero, Option.bind_eq_bind, Option.bind_some, pure, Nat.add_zero]
      rw [Nat.sub_add_cancel (by omega)]
      refine congrArg some (ofInt_congr ?_)
      have hlow : (ofInt (t.width - j) t.value).value = t.value % 2 ^ (t.width - j) := by
        have := value_ofInt (t.width - j) t.value
        exact_mod_cast this
      have hsplit : 2 ^ t.width = 2 ^ (t.width - j) * 2 ^ j := by rw [← pow_add, Nat.sub_add_cancel (by omega)]
      rw [hlow, ← Int.natCast_mod, ← Int.natCast_mod, hsplit, Nat.mul_mod_mul_right, Nat.mul_mod_mul_right, Nat.mod_mod]

theorem bvConst32_eq {n : Nat} (hn : n < 2 ^ 32) (hw : n < 2 ^ w) : bvConst32 w (BitVec.ofNat 32 n) = some (ofInt w n) := by
  rw [bvConst32, BitVec.toNat_ofNat, Nat.mod_eq_of_lt hn, Documented.constFromInt]
  exact if_pos hw

/-- A case of the amount, when it has the width of the term. -/
theorem shiftCase_eq {res : Term} (hshift : shift.width = t.width) (hres : res.width = t.width) (hi : i < t.width)
    (hwidth : t.width < 2 ^ 32) :
    shiftCase t shift res i = some (if shift.value = i then ofInt t.width (t.value / 2 ^ i : Nat) else res) := by
  have hfits : i < 2 ^ t.width := hi.trans Nat.lt_two_pow_self
  rw [shiftCase, bvConst32_eq (hi.trans hwidth) hfits, bvRightShift_eq]
  simp only [Option.bind_eq_bind, Option.bind_some]
  rw [vc_eqExpr_eq (hshift.trans (width_ofInt _ _).symm), value_ofNat hfits, Option.bind_some,
    iteTerm_eq _ ((width_ofInt _ _).trans hres.symm)]
  simp only [decide_eq_true_eq]

theorem shiftCases_eq (hshift : shift.width = t.width) (hwidth : t.width < 2 ^ 32) (amounts : List Nat)
    (hamounts : ∀ i ∈ amounts, i < t.width) {res : Term} (hres : res.width = t.width) :
    amounts.foldlM (shiftCase t shift) res =
      some (if shift.value ∈ amounts then ofInt t.width (t.value / 2 ^ shift.value : Nat) else res) := by
  induction amounts generalizing res with
  | nil => rfl
  | cons i amounts ih =>
    obtain ⟨hi, hrest⟩ := List.forall_mem_cons.mp hamounts
    rw [List.foldlM_cons, shiftCase_eq hshift hres hi hwidth, Option.bind_eq_bind, Option.bind_some]
    by_cases heq : shift.value = i
    · rw [if_pos heq, ih hrest (width_ofInt _ _), ← heq, if_pos List.mem_cons_self, ite_self]
    · rw [if_neg heq, ih hrest hres]
      simp only [List.mem_cons, heq, false_or]

/-- The variable shift is right when the amount has the width of the term. -/
theorem bvVarRightShift_eq (hshift : shift.width = t.width) (hwidth : t.width < 2 ^ 32) :
    bvVarRightShift t shift = some (ofInt t.width (t.value / 2 ^ shift.value : Nat)) := by
  have hbound : t.width < 2 ^ shift.width := hshift ▸ Nat.lt_two_pow_self
  rw [bvVarRightShift, shiftCases_eq hshift hwidth _ (fun i hi => by simpa using hi) (width_bvZero _)]
  simp only [Option.bind_eq_bind, Option.bind_some, bvConst32_eq hwidth hbound]
  rw [vc_bvLtExpr_eq (width_ofInt _ _).symm, value_ofNat hbound, Option.bind_some]
  simp only [List.mem_reverse, List.mem_range]
  by_cases hlt : shift.value < t.width
  · rw [if_pos hlt, iteTerm_eq _ (by rw [width_bvZero, width_ofInt]), decide_eq_true hlt, if_pos rfl]
  · have hzero : t.value / 2 ^ shift.value = 0 :=
      Nat.div_eq_of_lt (t.lt.trans_le (Nat.pow_le_pow_right Nat.two_pos (not_lt.mp hlt)))
    rw [if_neg hlt, iteTerm_eq _ rfl, ite_self, bvZero_eq, hzero, Nat.cast_zero]

/-- There is no term when the widths differ: the first equation is ill-typed. -/
theorem bvVarRightShift_none (hshift : shift.width ≠ t.width) (hpos : 0 < t.width) : bvVarRightShift t shift = none := by
  obtain ⟨w, hw⟩ := Nat.exists_eq_succ_of_ne_zero hpos.ne'
  have hcase : shiftCase t shift (bvZero t.width) w = none := by
    unfold shiftCase
    rcases hconst : bvConst32 t.width (BitVec.ofNat 32 w) with _ | c
    · rfl
    · have hc : c.width = t.width := by
        rw [bvConst32, Documented.constFromInt] at hconst
        split at hconst
        · cases hconst
          rfl
        · cases hconst
      simp [Documented.eqExpr, relation, hc, hshift]
  rw [bvVarRightShift, hw, List.range_succ, List.reverse_append, List.reverse_singleton, List.singleton_append, List.foldlM_cons,
    ← hw, hcase]
  rfl

/-! ### Products -/

theorem bvPlus_ofInt (w : Nat) (x y : Int) : vc_bvPlusExpr w (ofInt w x) (ofInt w y) = some (ofInt w (x + y)) := by
  rw [Documented.bvPlus]
  exact arith_ofInt _ Int.ModEq.add w x y

theorem bvMinus_ofInt (w : Nat) (x y : Int) : vc_bvMinusExpr w (ofInt w x) (ofInt w y) = some (ofInt w (x - y)) := by
  rw [Documented.bvMinus]
  exact arith_ofInt _ Int.ModEq.sub w x y

/-- The sum so far, zero before the first bit. -/
def Sum (w : Nat) (res : Option Term) (y : Int) : Prop := res.getD (bvZero w) = ofInt w y

theorem Sum.modEq_of_none (h : Sum w none y) : 0 ≡ y [ZMOD (2 ^ w : Nat)] := by
  have hvalue := congrArg (fun t : Term => (t.value : Int)) h
  simp only [Option.getD_none, bvZero_eq, value_ofInt] at hvalue
  exact hvalue

theorem Sum.addOp {x : Int} (h : Sum w res y) : STPBuilder.addOp w (ofInt w x) res = some (ofInt w (y + x)) := by
  cases res with
  | none =>
    have hsum := h.modEq_of_none.add_right x
    rw [zero_add] at hsum
    exact congrArg some (ofInt_congr hsum)
  | some r =>
    obtain rfl : r = ofInt w y := h
    exact bvPlus_ofInt w y x

theorem Sum.subOp {x : Int} (h : Sum w res y) : STPBuilder.subOp w (ofInt w x) res = some (ofInt w (y - x)) := by
  cases res with
  | none =>
    rw [STPBuilder.subOp, Documented.bvUMinus, width_ofInt]
    refine congrArg some (ofInt_congr ?_)
    calc (-((ofInt w x).value : Int)) ≡ -x [ZMOD (2 ^ w : Nat)] := (ofInt_value_mod w x).neg
      _ = 0 - x := (zero_sub x).symm
      _ ≡ y - x [ZMOD (2 ^ w : Nat)] := h.modEq_of_none.sub_right x
  | some r =>
    obtain rfl : r = ofInt w y := h
    exact bvMinus_ofInt w y x

theorem mulBit_eq (hc : c.Disjoint) (h : Sum t.width res y) (j : Nat) :
    ∃ res', mulBit t t.width c res j = some res' ∧ Sum t.width res' (y + t.value * bitWeight c j) := by
  unfold mulBit bitWeight
  rw [bvLeftShift_eq]
  rcases hadd : c.add.getLsbD j with _ | _ <;> rcases hsub : c.sub.getLsbD j with _ | _
  · exact ⟨res, rfl, by simpa using h⟩
  · refine ⟨some (ofInt t.width (y - (t.value * 2 ^ j : Nat))), ?_, ?_⟩
    · simp [h.subOp]
    · rw [Sum, Option.getD_some]
      push_cast
      congr 1
      simp [sub_eq_add_neg]
  · refine ⟨some (ofInt t.width (y + (t.value * 2 ^ j : Nat))), ?_, ?_⟩
    · simp [h.addOp]
    · rw [Sum, Option.getD_some]
      push_cast
      congr 1
  · exact absurd (hc j hadd) (by simp [hsub])

theorem mulBits_eq (hc : c.Disjoint) (js : List Nat) (h : Sum t.width res y) :
    ∃ res', js.foldlM (mulBit t t.width c) res = some res' ∧
      Sum t.width res' (y + t.value * (js.map (bitWeight c)).sum) := by
  induction js generalizing res y with
  | nil => exact ⟨res, rfl, by simpa using h⟩
  | cons j js ih =>
    obtain ⟨res₁, hres₁, h₁⟩ := mulBit_eq hc h j
    obtain ⟨res₂, hres₂, h₂⟩ := ih h₁
    refine ⟨res₂, by rw [List.foldlM_cons, hres₁]; exact hres₂, ?_⟩
    rwa [List.map_cons, List.sum_cons, mul_add, ← add_assoc]

/-- The multiplication by a constant is a multiplication. -/
theorem constructMulByConstant_eq (hw : t.width ≤ 64) (x : BitVec 64) :
    constructMulByConstant t t.width x = some (ofInt t.width (t.value * x.toNat)) := by
  obtain ⟨c, hconstants, hvalue, hdisjoint⟩ := computeMultConstants64_spec x
  have hstart : Sum t.width none 0 := bvZero_eq t.width
  obtain ⟨res, hres, hsum⟩ := mulBits_eq (disjoint_truncated hdisjoint hw) (List.range 64).reverse hstart
  rw [constructMulByConstant, hconstants]
  simp only [Option.bind_eq_bind, Option.bind_some, hres]
  refine congrArg some (hsum.trans (ofInt_congr ?_))
  rw [sum_bitWeight, Nat.mod_eq_of_lt (BitVec.isLt _), Nat.mod_eq_of_lt (BitVec.isLt _), zero_add, hvalue]
  exact (truncated_modEq hw c).mul_left _

/-- The constants of every factor are exact and have no common bit, and the shifted operands add up to the product. -/
theorem multConstants_exact (x : BitVec 64) : ∃ c, computeMultConstants64 x = some c ∧ c.add - c.sub = x ∧ c.add &&& c.sub = 0 ∧
    ∀ t : Term, t.width ≤ 64 → constructMulByConstant t t.width x = some (ofInt t.width (t.value * x.toNat)) := by
  obtain ⟨c, hconstants, hvalue, hdisjoint⟩ := computeMultConstants64_spec x
  refine ⟨c, hconstants, hvalue.symm, BitVec.eq_of_getLsbD_eq fun i _ => ?_, fun t hw => constructMulByConstant_eq hw x⟩
  rw [BitVec.getLsbD_and, BitVec.ofNat_eq_ofNat, BitVec.getLsbD_zero]
  cases hadd : c.add.getLsbD i with
  | false => rfl
  | true => rw [hdisjoint i hadd, Bool.and_false]

end

theorem multConstants_exact_ten : ∃ c, computeMultConstants64 10 = some c ∧ c.add - c.sub = 10 ∧ c.add &&& c.sub = 0 ∧
    @constructMulByConstant STP.values (ofInt 8 30) 8 10 = some (ofInt 8 300) := by
  obtain ⟨c, hconstants, hvalue, hdisjoint, hproduct⟩ := @multConstants_exact STP.values STP.values_documented 10
  exact ⟨c, hconstants, hvalue, hdisjoint, hproduct (ofInt 8 30) (by decide)⟩

/-! ### Unsigned division -/

section
variable [STP] [Documented]

theorem bvConst32_bits (x : BitVec 32) : bvConst32 32 x = some (ofInt 32 x.toNat) :=
  (Documented.constFromInt 32 x.toNat).trans (if_pos x.isLt)

theorem zeroExtend_eq (hw : t.width = 32) : vc_bvConcatExpr (bvZero 32) t = ofInt 64 t.value := by
  rw [Documented.bvConcat, bvZero_eq, value_zero, width_ofInt, hw, Nat.zero_mul, Nat.zero_add]

theorem bvExtract_high {x : Nat} (hx : x < 2 ^ 64) : vc_bvExtract (ofInt 64 x) 63 32 = some (ofInt 32 (x / 2 ^ 32 : Nat)) := by
  rw [Documented.bvExtract, width_ofInt, if_pos (by decide), value_ofNat hx]

theorem bvVarRightShift_32 {x s : Nat} (hx : x < 2 ^ 32) (hs : s < 2 ^ 32) :
    bvVarRightShift (ofInt 32 x) (ofInt 32 s) = some (ofInt 32 (x / 2 ^ s : Nat)) := by
  have hwidth : (ofInt 32 x).width = (ofInt 32 s).width := rfl
  rw [bvVarRightShift_eq hwidth.symm (by rw [width_ofInt]; norm_num), value_ofNat hx, value_ofNat hs]
  rfl

/-- The unsigned division by a constant is the quotient. -/
theorem constructUDivByConstant_eq (n : BitVec 32) (hd : d ≠ 0) :
    constructUDivByConstant (ofInt 32 n.toNat) 32 (d.setWidth 64) = some (ofInt 32 (n / d).toNat) := by
  obtain ⟨l, c, hconstants, hmagic, hsh1, hsh2⟩ := computeUDivConstants32_spec hd
  have hn := n.isLt
  have hm := c.mprime.isLt
  have hproduct : c.mprime.toNat * n.toNat < 2 ^ 64 :=
    calc c.mprime.toNat * n.toNat < 2 ^ 32 * 2 ^ 32 := Nat.mul_lt_mul'' hm hn
      _ = 2 ^ 64 := by norm_num
  have hmul : constructMulByConstant (ofInt 64 n.toNat) 64 (c.mprime.setWidth 64) =
      some (ofInt 64 (c.mprime.toNat * n.toNat : Nat)) := by
    refine (constructMulByConstant_eq (t := ofInt 64 n.toNat) le_rfl _).trans ?_
    rw [width_ofInt, value_ofNat (hn.trans (by norm_num)), BitVec.toNat_setWidth, Nat.mod_eq_of_lt (hm.trans (by norm_num)),
      ← Nat.cast_mul, Nat.mul_comm]
  have hhigh : c.mprime.toNat * n.toNat / 2 ^ 32 ≤ n.toNat := Nat.div_le_of_le_mul (Nat.mul_le_mul_right _ hm.le)
  have hextract := bvExtract_high hproduct
  have hresult := hmagic.shifts hm hn
  rw [← hsh1, ← hsh2] at hresult
  generalize c.mprime.toNat * n.toNat / 2 ^ 32 = t₁ at hhigh hextract hresult
  have hdifference : n.toNat - t₁ < 2 ^ 32 := (Nat.sub_le _ _).trans_lt hn
  have hsum : (n.toNat - t₁) / 2 ^ c.sh1.toNat + t₁ < 2 ^ 32 := by
    have := Nat.div_le_self (n.toNat - t₁) (2 ^ c.sh1.toNat)
    omega
  have hminus : vc_bvMinusExpr 32 (ofInt 32 n.toNat) (ofInt 32 t₁) = some (ofInt 32 (n.toNat - t₁ : Nat)) := by
    rw [bvMinus_ofInt, Nat.cast_sub hhigh]
  have hshift₁ : bvVarRightShift (ofInt 32 (n.toNat - t₁ : Nat)) (ofInt 32 c.sh1.toNat) =
      some (ofInt 32 ((n.toNat - t₁) / 2 ^ c.sh1.toNat : Nat)) :=
    bvVarRightShift_32 hdifference c.sh1.isLt
  have hplus : vc_bvPlusExpr 32 (ofInt 32 ((n.toNat - t₁) / 2 ^ c.sh1.toNat : Nat)) (ofInt 32 t₁) =
      some (ofInt 32 ((n.toNat - t₁) / 2 ^ c.sh1.toNat + t₁ : Nat)) := by
    rw [bvPlus_ofInt, Nat.cast_add]
  have hshift₂ : bvVarRightShift (ofInt 32 ((n.toNat - t₁) / 2 ^ c.sh1.toNat + t₁ : Nat)) (ofInt 32 c.sh2.toNat) =
      some (ofInt 32 (n / d).toNat) := by
    rw [bvVarRightShift_32 hsum c.sh2.isLt, hresult, ← BitVec.toNat_udiv]
  have hsetWidth : (d.setWidth 64).setWidth 32 = d := BitVec.setWidth_setWidth_of_le d (by decide)
  rw [constructUDivByConstant, if_neg (not_not.mpr rfl), hsetWidth, hconstants]
  simp only [Option.bind_eq_bind, Option.bind_some, bvConst32_bits, zeroExtend_eq (width_ofInt 32 _), value_ofNat hn, hmul, hextract,
    hminus, hshift₁, hplus, hshift₂]

/-! ### Signed division -/

theorem extendNpm_width {npm : Term} {mprime : BitVec 32} (h : extendNpm t w mprime = some npm) : npm.width = 64 := by
  simp only [extendNpm, Documented.bvSignExtend, Option.bind_eq_bind, Option.bind_eq_some_iff] at h
  obtain ⟨_, -, _, -, _, -, sum, -, hextend⟩ := h
  split at hextend
  · cases hextend
    rfl
  · cases hextend

/-- The amount has 32 bits, the constants that it is compared with have 64. -/
theorem constructSDivByConstant_none (t : Term) (w : Nat) (d : BitVec 64) : constructSDivByConstant t w d = none := by
  unfold constructSDivByConstant
  split
  case isTrue => rfl
  case isFalse =>
    refine Option.eq_none_iff_forall_not_mem.mpr fun result hresult => ?_
    simp only [Option.bind_eq_bind, Option.mem_def, Option.bind_eq_some_iff, bvConst32_bits, Option.some.injEq] at hresult
    obtain ⟨c, -, _, -, shpost, rfl, npm, hnpm, shifted, hshifted, -⟩ := hresult
    have hwidth := extendNpm_width hnpm
    rw [bvVarRightShift_none (by rw [hwidth, width_ofInt]; decide) (by rw [hwidth]; decide)] at hshifted
    cases hshifted

/-! ### Division -/

/-- The divisions that the builder constructs for constant divisors. -/
inductive Division
  | unsigned
  | signed
  deriving DecidableEq

/-- The term of a vector. -/
def ofBits (x : BitVec 32) : Term := ofInt 32 x.toNat

/-- The constructed term is the quotient. -/
def DividesExactly (n d : BitVec 32) : Division → Prop
  | .unsigned => constructUDivByConstant (ofBits n) 32 (d.setWidth 64) = some (ofBits (n / d))
  | .signed => constructSDivByConstant (ofBits n) 32 (d.setWidth 64) = some (ofBits (n.sdiv d))

/-- The unsigned division is exact, the signed one is not even well-typed. -/
theorem dividesExactly_iff (n : BitVec 32) {d : BitVec 32} (hd : d ≠ 0) (division : Division) :
    DividesExactly n d division ↔ division = .unsigned := by
  cases division with
  | unsigned => exact iff_of_true (constructUDivByConstant_eq n hd) rfl
  | signed => exact iff_of_false (by rw [DividesExactly, constructSDivByConstant_none]; nofun) nofun

end

theorem dividesExactly_iff_hundred : @DividesExactly STP.values 100 7 .unsigned ↔ Division.unsigned = .unsigned :=
  @dividesExactly_iff STP.values STP.values_documented 100 7 (by decide) .unsigned

/-- Seven divided by two. -/
theorem not_dividesExactly_signed : ¬@DividesExactly STP.values 7 2 .signed := by
  intro h
  have hnone := @constructSDivByConstant_none STP.values STP.values_documented (ofBits 7) 32 ((2 : BitVec 32).setWidth 64)
  exact Option.some_ne_none _ (h.symm.trans hnone)

end STPBuilder
end CapTaint.Klee
