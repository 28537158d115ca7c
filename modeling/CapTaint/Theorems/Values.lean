import CapTaint.Klee.Create

/-! # Values of well-typed expressions

The value of a well-typed expression fits its width, and each kind of node computes its operation on vectors of bits. -/

namespace CapTaint.Klee

variable {v : Valuation}

theorem initial_lt (array : Array) (i : Nat) : array.initial v i < 2 ^ array.range := by
  unfold Array.initial
  split
  · cases array.constantValues[i]? with
    | none => simp
    | some c => exact c.isLt
  · split
    · exact Nat.mod_lt _ (Nat.two_pow_pos _)
    · exact Nat.two_pow_pos _

theorem UpdateList.range_pos : (ul : UpdateList) → ul.WellTyped → 0 < ul.array.range
  | .root _, h => Array.WellFormed.range_pos h
  | .extend next _ _, h => UpdateList.range_pos next h.1

theorem Expr.width_pos : (e : Expr) → e.WellTyped → 0 < e.getWidth
  | .constant _ _, h => h
  | .notOptimized e, h | .not e, h => Expr.width_pos e h
  | .read ul _, h => UpdateList.range_pos ul h.1
  | .select _ t _, h => Expr.width_pos t h.2.1
  | .concat l _, h => Nat.add_pos_left (Expr.width_pos l h.1) _
  | .extract _ _ _, h => h.2.1
  | .zext _ _, h | .sext _ _, h => Nat.zero_lt_of_lt h.2
  | .arith _ l _, h => Expr.width_pos l h.1
  | .cmp _ _ _, _ => Nat.one_pos

theorem concat_lt {a b m n : Nat} (ha : a < 2 ^ m) (hb : b < 2 ^ n) : a * 2 ^ n + b < 2 ^ (m + n) := by
  calc a * 2 ^ n + b < (a + 1) * 2 ^ n := by rw [Nat.add_one_mul]; exact Nat.add_lt_add_left hb _
    _ ≤ 2 ^ m * 2 ^ n := Nat.mul_le_mul_right _ ha
    _ = 2 ^ (m + n) := (Nat.pow_add 2 m n).symm

mutual
theorem Expr.value_lt : (e : Expr) → e.WellTyped → e.value v < 2 ^ e.getWidth
  | .constant _ c, _ => c.isLt
  | .notOptimized src, h => Expr.value_lt src h
  | .read ul index, h => UpdateList.readAt_lt ul h.1 (index.value v)
  | .select c t f, h => by
    rw [Expr.value, Expr.getWidth]
    split
    · exact Expr.value_lt t h.2.1
    · rw [h.2.2.2.2]
      exact Expr.value_lt f h.2.2.1
  | .concat l r, h => concat_lt (Expr.value_lt l h.1) (Expr.value_lt r h.2)
  | .extract _ _ _, _ => Nat.mod_lt _ (Nat.two_pow_pos _)
  | .zext src w, h => (Expr.value_lt src h.1).trans (Nat.pow_lt_pow_right Nat.one_lt_two h.2)
  | .sext _ _, _ => BitVec.isLt _
  | .not _, _ => BitVec.isLt _
  | .arith _ _ _, _ => BitVec.isLt _
  | .cmp _ _ _, _ => Bool.toNat_lt _

theorem UpdateList.readAt_lt : (ul : UpdateList) → ul.WellTyped → (i : Nat) → ul.readAt v i < 2 ^ ul.array.range
  | .root array, _, i => initial_lt array i
  | .extend next index value, h, i => by
    rw [UpdateList.readAt]
    split
    · have hvalue := Expr.value_lt value h.2.2.1
      rwa [h.2.2.2.2] at hvalue
    · exact UpdateList.readAt_lt next h.1 i
end

/-! ### The nodes on vectors -/

namespace Expr
variable {w : Nat} {e l r : Expr}

theorem toNat_bits (h : e.WellTyped) (hw : e.getWidth = w) : (e.bits v w).toNat = e.value v := by
  rw [bits, BitVec.toNat_ofNat, Nat.mod_eq_of_lt]
  exact hw ▸ e.value_lt h

theorem value_inj (hl : l.WellTyped) (hr : r.WellTyped) (hlw : l.getWidth = w) (hrw : r.getWidth = w) :
    l.bits v w = r.bits v w ↔ l.value v = r.value v := by
  rw [← BitVec.toNat_inj, toNat_bits hl hlw, toNat_bits hr hrw]

@[simp] theorem bits_constant (c : BitVec w) : (Expr.constant w c).bits v w = c := by simp [bits, value]

theorem bits_arith (kind : ArithKind) (hl : l.getWidth = w) :
    (Expr.arith kind l r).bits v w = applyArith kind (l.bits v w) (r.bits v w) := by
  subst hl
  simp [bits, value]

theorem bits_cmp (kind : CmpKind) (hl : l.getWidth = w) :
    (Expr.cmp kind l r).bits v 1 = BitVec.ofBool (kind.eval (l.bits v w) (r.bits v w)) := by
  subst hl
  rw [bits, value, ← bits, ← bits]
  cases CmpKind.eval (l.bits v l.getWidth) (r.bits v l.getWidth) kind <;> rfl

theorem bits_not (he : e.getWidth = w) : (Expr.not e).bits v w = ~~~e.bits v w := by
  subst he
  rw [bits, value, BitVec.ofNat_toNat, BitVec.setWidth_eq, bits]

theorem bits_select (c t f : Expr) (hc : c.WellTyped) (hcw : c.getWidth = 1) :
    (Expr.select c t f).bits v w = if c.bits v 1 ≠ 0 then t.bits v w else f.bits v w := by
  have hzero : c.bits v 1 ≠ 0 ↔ c.value v ≠ 0 := by
    rw [ne_eq, ← BitVec.toNat_inj, toNat_bits hc hcw]
    rfl
  by_cases hvalue : c.value v = 0
  · rw [if_neg (by rwa [hzero, not_not]), bits, value, if_neg (not_not.mpr hvalue), bits]
  · rw [if_pos (hzero.mpr hvalue), bits, value, if_pos hvalue, bits]

theorem bits_zext {k : Nat} (h : e.WellTyped) (hk : e.getWidth = k) : (Expr.zext e w).bits v w = (e.bits v k).setWidth w := by
  apply BitVec.eq_of_toNat_eq
  rw [BitVec.toNat_setWidth, toNat_bits h hk, bits, value, BitVec.toNat_ofNat]

theorem bits_sext {k : Nat} (hk : e.getWidth = k) : (Expr.sext e w).bits v w = (e.bits v k).signExtend w := by
  subst hk
  simp [bits, value]

theorem bits_extract {k : Nat} (off : Nat) (h : e.WellTyped) (hk : e.getWidth = k) :
    (Expr.extract e off w).bits v w = (e.bits v k).extractLsb' off w := by
  apply BitVec.eq_of_toNat_eq
  rw [BitVec.extractLsb'_toNat, toNat_bits h hk, bits, value, BitVec.toNat_ofNat, Nat.shiftRight_eq_div_pow]
  exact Nat.mod_mod _ _

theorem bits_concat {m n : Nat} (hl : l.WellTyped) (hr : r.WellTyped) (hm : l.getWidth = m) (hn : r.getWidth = n) :
    (Expr.concat l r).bits v (m + n) = l.bits v m ++ r.bits v n := by
  apply BitVec.eq_of_toNat_eq
  rw [BitVec.toNat_append, toNat_bits hl hm, toNat_bits hr hn, bits, value, hn, BitVec.toNat_ofNat, Nat.mod_eq_of_lt]
  · rw [Nat.shiftLeft_eq, Nat.mul_comm]
    exact Nat.two_pow_add_eq_or_of_lt (hn ▸ r.value_lt hr) _
  · exact concat_lt (hm ▸ l.value_lt hl) (hn ▸ r.value_lt hr)

end Expr

end CapTaint.Klee
