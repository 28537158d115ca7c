import CapTaint.Theorems.ValueRange

/-! # The bounds of the bitwise operators are attained

Where a loop ends it has found the operands: the bounds themselves, or one of them raised or lowered at a bit. -/

namespace CapTaint.Klee

open BitBounds (bit raise lower)

variable {a b c d r : BitVec 64} {k : Nat} {op : BitVec 64 → BitVec 64 → BitVec 64}

/-- The operator takes the value on words between the bounds. -/
def Attained (op : BitVec 64 → BitVec 64 → BitVec 64) (a b c d r : BitVec 64) : Prop :=
  ∃ x y, (a ≤ x ∧ x ≤ b) ∧ (c ≤ y ∧ y ≤ d) ∧ op x y = r

/-- The minimum of the operator on words between the bounds. -/
structure IsMinimum (op : BitVec 64 → BitVec 64 → BitVec 64) (a b c d r : BitVec 64) : Prop where
  attained : Attained op a b c d r
  le : ∀ x y, a ≤ x → x ≤ b → c ≤ y → y ≤ d → r ≤ op x y

/-- The maximum of the operator on words between the bounds. -/
structure IsMaximum (op : BitVec 64 → BitVec 64 → BitVec 64) (a b c d r : BitVec 64) : Prop where
  attained : Attained op a b c d r
  ge : ∀ x y, a ≤ x → x ≤ b → c ≤ y → y ≤ d → op x y ≤ r

theorem Attained.left (hcd : c ≤ d) {x y : BitVec 64} (hax : a ≤ x) (hxb : x ≤ b) (hy : y = c ∨ y = d) (hop : op x y = r) :
    Attained op a b c d r := by
  refine ⟨x, y, ⟨hax, hxb⟩, ?_, hop⟩
  rcases hy with rfl | rfl
  · exact ⟨BitVec.le_refl y, hcd⟩
  · exact ⟨hcd, BitVec.le_refl y⟩

theorem Attained.right (hab : a ≤ b) {x y : BitVec 64} (hcy : c ≤ y) (hyd : y ≤ d) (hx : x = a ∨ x = b) (hop : op x y = r) :
    Attained op a b c d r := by
  refine ⟨x, y, ?_, ⟨hcy, hyd⟩, hop⟩
  rcases hx with rfl | rfl
  · exact ⟨BitVec.le_refl x, hab⟩
  · exact ⟨hab, BitVec.le_refl x⟩

/-! ### Raised and lowered words -/

theorem lt_raise (k n : Nat) : n < raise k n := by
  have hmod := Nat.mod_lt n (Nat.two_pow_pos k)
  have hdiv := Nat.div_add_mod n (2 ^ k)
  rw [raise, Nat.add_mul, one_mul, Nat.mul_comm]
  omega

theorem le_raised (hk : k < 64) (ha : bit k a.toNat = 0) : a ≤ (a ||| 1#64 <<< k) &&& -(1#64 <<< k) := by
  rw [BitVec.le_def, toNat_raise hk ha]
  exact (lt_raise k a.toNat).le

theorem lowered_le (hk : k < 64) (hb : bit k b.toNat = 1) : (b - 1#64 <<< k) ||| (1#64 <<< k - 1) ≤ b := by
  rw [BitVec.le_def, toNat_lower hk hb]
  exact (Nat.sub_le _ _).trans (Nat.div_mul_le_self _ _)

theorem lowered_le' (hk : k < 64) (hb : bit k b.toNat = 1) : (b &&& ~~~(1#64 <<< k)) ||| (1#64 <<< k - 1) ≤ b := by
  rw [sub_eq_and_not hb]
  exact lowered_le hk hb

/-! ### The loops -/

theorem minOR_loop_attained (hab : a ≤ b) (hcd : c ≤ d) (hk : k ≤ 64) :
    Attained (· ||| ·) a b c d (minOR.loop a b c d k) := by
  induction k with
  | zero => exact .left hcd (BitVec.le_refl a) hab (.inl rfl) rfl
  | succ k ih =>
    have hloop := ih (Nat.le_of_succ_le hk)
    rw [minOR.loop]
    dsimp only
    simp only [and_bit_ne_zero_iff hk, bit_and, bit_not hk]
    split_ifs with hleft ht hright ht
    · exact .left hcd (le_raised hk hleft.1) ht (.inl rfl) rfl
    · exact hloop
    · exact .right hab (le_raised hk hright.2) ht (.inl rfl) rfl
    · exact hloop
    · exact hloop

theorem maxOR_loop_attained (hab : a ≤ b) (hcd : c ≤ d) (hk : k ≤ 64) :
    Attained (· ||| ·) a b c d (maxOR.loop a b c d k) := by
  induction k with
  | zero => exact .left hcd hab (BitVec.le_refl b) (.inr rfl) rfl
  | succ k ih =>
    have hloop := ih (Nat.le_of_succ_le hk)
    rw [maxOR.loop]
    dsimp only
    simp only [and_bit_ne_zero_iff hk, bit_and]
    split_ifs with hboth ha hc
    · exact .left hcd ha (lowered_le hk hboth.1) (.inr rfl) rfl
    · exact .right hab hc (lowered_le hk hboth.2) (.inr rfl) rfl
    · exact hloop
    · exact hloop

theorem minAND_loop_attained (hab : a ≤ b) (hcd : c ≤ d) (hk : k ≤ 64) :
    Attained (· &&& ·) a b c d (minAND.loop a b c d k) := by
  induction k with
  | zero => exact .left hcd (BitVec.le_refl a) hab (.inl rfl) rfl
  | succ k ih =>
    have hloop := ih (Nat.le_of_succ_le hk)
    rw [minAND.loop]
    dsimp only
    simp only [and_bit_ne_zero_iff hk, bit_and, bit_not hk]
    split_ifs with hboth ht ht'
    · exact .left hcd (le_raised hk hboth.1) ht (.inl rfl) rfl
    · exact .right hab (le_raised hk hboth.2) ht' (.inl rfl) rfl
    · exact hloop
    · exact hloop

theorem maxAND_loop_attained (hab : a ≤ b) (hcd : c ≤ d) (hk : k ≤ 64) :
    Attained (· &&& ·) a b c d (maxAND.loop a b c d k) := by
  induction k with
  | zero => exact .left hcd hab (BitVec.le_refl b) (.inr rfl) rfl
  | succ k ih =>
    have hloop := ih (Nat.le_of_succ_le hk)
    rw [maxAND.loop]
    dsimp only
    simp only [and_bit_ne_zero_iff hk, bit_and, bit_not hk]
    split_ifs with hleft ha hright hc
    · exact .left hcd ha (lowered_le' hk hleft.1) (.inr rfl) rfl
    · exact hloop
    · exact .right hab hc (lowered_le' hk hright.2) (.inr rfl) rfl
    · exact hloop
    · exact hloop

/-! ### The functions -/

theorem between_toNat {x y : BitVec 64} (hax : a ≤ x) (hxb : x ≤ b) (hcy : c ≤ y) (hyd : y ≤ d) : Between a b c d x.toNat y.toNat :=
  ⟨BitVec.le_def.mp hax, BitVec.le_def.mp hxb, BitVec.le_def.mp hcy, BitVec.le_def.mp hyd⟩

theorem minOR_isMinimum (hab : a ≤ b) (hcd : c ≤ d) : IsMinimum (· ||| ·) a b c d (minOR a b c d) where
  attained := minOR_loop_attained hab hcd le_rfl
  le x y hax hxb hcy hyd := by
    have hb := between_toNat hax hxb hcy hyd
    rw [BitVec.le_def, BitVec.toNat_or]
    exact minOR_loop_le le_rfl hb (hb.beats _).1

theorem maxOR_isMaximum (hab : a ≤ b) (hcd : c ≤ d) : IsMaximum (· ||| ·) a b c d (maxOR a b c d) where
  attained := maxOR_loop_attained hab hcd le_rfl
  ge x y hax hxb hcy hyd := by
    have hb := between_toNat hax hxb hcy hyd
    rw [BitVec.le_def, BitVec.toNat_or]
    exact le_maxOR_loop le_rfl hb (hb.beats _).2

theorem minAND_isMinimum (hab : a ≤ b) (hcd : c ≤ d) : IsMinimum (· &&& ·) a b c d (minAND a b c d) where
  attained := minAND_loop_attained hab hcd le_rfl
  le x y hax hxb hcy hyd := by
    have hb := between_toNat hax hxb hcy hyd
    rw [BitVec.le_def, BitVec.toNat_and]
    exact minAND_loop_le le_rfl hb (hb.beats _).1

theorem maxAND_isMaximum (hab : a ≤ b) (hcd : c ≤ d) : IsMaximum (· &&& ·) a b c d (maxAND a b c d) where
  attained := maxAND_loop_attained hab hcd le_rfl
  ge x y hax hxb hcy hyd := by
    have hb := between_toNat hax hxb hcy hyd
    rw [BitVec.le_def, BitVec.toNat_and]
    exact le_maxAND_loop le_rfl hb (hb.beats _).2

/-- The four functions are the minima and the maxima of the operators. -/
theorem bitwiseBounds_exact (hab : a ≤ b) (hcd : c ≤ d) :
    IsMinimum (· ||| ·) a b c d (minOR a b c d) ∧ IsMaximum (· ||| ·) a b c d (maxOR a b c d) ∧
      IsMinimum (· &&& ·) a b c d (minAND a b c d) ∧ IsMaximum (· &&& ·) a b c d (maxAND a b c d) :=
  ⟨minOR_isMinimum hab hcd, maxOR_isMaximum hab hcd, minAND_isMinimum hab hcd, maxAND_isMaximum hab hcd⟩

theorem bitwiseBounds_exact_five :
    IsMinimum (· ||| ·) 1 5 2 9 (minOR 1 5 2 9) ∧ IsMaximum (· ||| ·) 1 5 2 9 (maxOR 1 5 2 9) ∧
      IsMinimum (· &&& ·) 1 5 2 9 (minAND 1 5 2 9) ∧ IsMaximum (· &&& ·) 1 5 2 9 (maxAND 1 5 2 9) :=
  bitwiseBounds_exact (by decide) (by decide)

end CapTaint.Klee
