import Mathlib

/-! # Bounds of bitwise operators

An operator that acts bit by bit is compared from the leading bits on: one pair of operands beats another when it is ahead
in the leading bits, or still agrees with it there. -/

namespace CapTaint.BitBounds

variable {f : Nat → Nat → Nat} {a b c d x y k r : Nat}

/-- The operator acts on the leading bits and on the others apart. -/
structure Bitwise (f : Nat → Nat → Nat) : Prop where
  div : ∀ x y k, f x y / 2 ^ k = f (x / 2 ^ k) (y / 2 ^ k)
  mod : ∀ x y k, f x y % 2 ^ k = f (x % 2 ^ k) (y % 2 ^ k)

theorem bitwise_or : Bitwise (· ||| ·) := ⟨fun _ _ _ => Nat.or_div_two_pow, fun _ _ _ => Nat.or_mod_two_pow⟩

theorem bitwise_and : Bitwise (· &&& ·) := ⟨fun _ _ _ => Nat.and_div_two_pow, fun _ _ _ => Nat.and_mod_two_pow⟩

/-- From bit `k` on, `f x y` is ahead of `f a c`, or the operands are the same. -/
def Beats (f : Nat → Nat → Nat) (k x y a c : Nat) : Prop :=
  f (a / 2 ^ k) (c / 2 ^ k) < f (x / 2 ^ k) (y / 2 ^ k) ∨ (x / 2 ^ k = a / 2 ^ k ∧ y / 2 ^ k = c / 2 ^ k)

theorem div_succ (n k : Nat) : n / 2 ^ k / 2 = n / 2 ^ (k + 1) := by
  rw [Nat.div_div_eq_div_mul, pow_succ]

theorem div_eq (n k : Nat) : n / 2 ^ k = 2 * (n / 2 ^ (k + 1)) + n / 2 ^ k % 2 := by
  rw [← div_succ]
  exact (Nat.div_add_mod _ 2).symm

/-- Bit `k` of a number. -/
def bit (k n : Nat) : Fin 2 := ⟨n / 2 ^ k % 2, Nat.mod_lt _ Nat.two_pos⟩

theorem div_eq_of_bit (h : x / 2 ^ (k + 1) = a / 2 ^ (k + 1)) (hbit : bit k x = bit k a) : x / 2 ^ k = a / 2 ^ k := by
  rw [div_eq x, div_eq a, h, show x / 2 ^ k % 2 = a / 2 ^ k % 2 from congrArg Fin.val hbit]

theorem bit_congr (h : x / 2 ^ k = a / 2 ^ k) : bit k x = bit k a := Fin.ext (congrArg (· % 2) h)

/-- Above all bits the operands are the same. -/
theorem beats_top (hx : x < 2 ^ k) (hy : y < 2 ^ k) (ha : a < 2 ^ k) (hc : c < 2 ^ k) : Beats f k x y a c :=
  .inr ⟨by rw [Nat.div_eq_of_lt hx, Nat.div_eq_of_lt ha], by rw [Nat.div_eq_of_lt hy, Nat.div_eq_of_lt hc]⟩

/-- One bit more. -/
theorem Beats.step (hf : Bitwise f) (h : Beats f (k + 1) x y a c)
    (hbit : x / 2 ^ (k + 1) = a / 2 ^ (k + 1) → y / 2 ^ (k + 1) = c / 2 ^ (k + 1) →
      f (bit k a) (bit k c) < f (bit k x) (bit k y) ∨ (bit k x = bit k a ∧ bit k y = bit k c)) : Beats f k x y a c := by
  have hhigh : ∀ u w, f (u / 2 ^ k) (w / 2 ^ k) / 2 = f (u / 2 ^ (k + 1)) (w / 2 ^ (k + 1)) := fun u w => by
    have := hf.div (u / 2 ^ k) (w / 2 ^ k) 1
    rwa [pow_one, div_succ, div_succ] at this
  have hlow : ∀ u w, f (u / 2 ^ k) (w / 2 ^ k) % 2 = f (u / 2 ^ k % 2) (w / 2 ^ k % 2) := fun u w => by
    have := hf.mod (u / 2 ^ k) (w / 2 ^ k) 1
    rwa [pow_one] at this
  rcases h with hlt | ⟨hx, hy⟩
  · rw [← hhigh, ← hhigh] at hlt
    exact .inl (by omega)
  · rcases hbit hx hy with hlt | ⟨hbx, hby⟩
    · refine .inl ?_
      have hsame := (hhigh x y).trans ((congrArg₂ f hx hy).trans (hhigh a c).symm)
      rw [bit, bit, bit, bit, ← hlow, ← hlow] at hlt
      omega
    · exact .inr ⟨div_eq_of_bit hx hbx, div_eq_of_bit hy hby⟩

theorem Beats.le (h : Beats f 0 x y a c) : f a c ≤ f x y := by
  rw [Beats, pow_zero, Nat.div_one, Nat.div_one, Nat.div_one, Nat.div_one] at h
  rcases h with hlt | ⟨rfl, rfl⟩
  exacts [hlt.le, le_rfl]

theorem Beats.swap (hf : ∀ x y, f x y = f y x) (h : Beats f k x y a c) : Beats f k y x c a := by
  rw [Beats, hf _ (a / 2 ^ k), hf _ (x / 2 ^ k)]
  exact h.imp_right And.symm

/-! ### One operand -/

/-- A larger number with the same leading bits has the next bit too. -/
theorem bit_le (h : a ≤ x) (hhigh : x / 2 ^ (k + 1) = a / 2 ^ (k + 1)) : bit k a ≤ bit k x := by
  have hle : a / 2 ^ k ≤ x / 2 ^ k := Nat.div_le_div_right h
  rw [div_eq a, div_eq x, hhigh] at hle
  exact Fin.le_def.mpr (Nat.add_le_add_iff_left.mp hle)

/-- Below `a` with the next bit set, nothing is between. -/
theorem div_eq_of_lt_raise (hax : a ≤ x) (h : x < (a / 2 ^ k + 1) * 2 ^ k) : x / 2 ^ k = a / 2 ^ k :=
  le_antisymm (Nat.lt_succ_iff.mp ((Nat.div_lt_iff_lt_mul (Nat.two_pow_pos k)).mpr h)) (Nat.div_le_div_right hax)

/-- Above `b` with the bit cleared, nothing is between. -/
theorem div_eq_of_lower_lt (hxb : x ≤ b) (h : b / 2 ^ k * 2 ^ k - 1 < x) : x / 2 ^ k = b / 2 ^ k :=
  le_antisymm (Nat.div_le_div_right hxb) ((Nat.le_div_iff_mul_le (Nat.two_pow_pos k)).mpr (by omega))

theorem mod_le_of_div_eq (h : a ≤ x) (hdiv : x / 2 ^ k = a / 2 ^ k) : a % 2 ^ k ≤ x % 2 ^ k := by
  have ha := Nat.div_add_mod a (2 ^ k)
  have hx := Nat.div_add_mod x (2 ^ k)
  rw [hdiv] at hx
  omega

/-- The least number above `a` whose bit `k` is set, when that of `a` is not. -/
def raise (k a : Nat) : Nat := (a / 2 ^ k + 1) * 2 ^ k

/-- The greatest number below `b` whose bit `k` is not set, when that of `b` is. -/
def lower (k b : Nat) : Nat := b / 2 ^ k * 2 ^ k - 1

theorem raise_div (k a : Nat) : raise k a / 2 ^ k = a / 2 ^ k + 1 := Nat.mul_div_cancel _ (Nat.two_pow_pos k)

theorem raise_mod (k a : Nat) : raise k a % 2 ^ k = 0 := Nat.mul_mod_left _ _

theorem raise_div_succ (h : bit k a = 0) : raise k a / 2 ^ (k + 1) = a / 2 ^ (k + 1) := by
  have hbit : a / 2 ^ k % 2 = 0 := congrArg Fin.val h
  rw [← div_succ, raise_div, ← div_succ]
  omega

theorem bit_raise (h : bit k a = 0) : bit k (raise k a) = 1 := by
  have hbit : a / 2 ^ k % 2 = 0 := congrArg Fin.val h
  refine Fin.ext ?_
  show raise k a / 2 ^ k % 2 = 1
  rw [raise_div]
  omega

theorem lower_eq (h : bit k b = 1) : lower k b = 2 ^ k - 1 + 2 ^ k * (b / 2 ^ k - 1) := by
  have hbit : b / 2 ^ k % 2 = 1 := congrArg Fin.val h
  obtain ⟨q, hq⟩ : ∃ q, b / 2 ^ k = q + 1 := Nat.exists_eq_succ_of_ne_zero fun h0 => by rw [h0] at hbit; cases hbit
  have hpos := Nat.two_pow_pos k
  rw [lower, hq, Nat.add_sub_cancel, Nat.add_mul, one_mul, Nat.mul_comm q]
  omega

theorem lower_div (h : bit k b = 1) : lower k b / 2 ^ k = b / 2 ^ k - 1 := by
  have hpos := Nat.two_pow_pos k
  rw [lower_eq h, Nat.add_mul_div_left _ _ hpos, Nat.div_eq_of_lt (Nat.sub_lt hpos Nat.one_pos), Nat.zero_add]

theorem lower_mod (h : bit k b = 1) : lower k b % 2 ^ k = 2 ^ k - 1 := by
  rw [lower_eq h, Nat.add_mul_mod_self_left, Nat.mod_eq_of_lt (Nat.sub_lt (Nat.two_pow_pos k) Nat.one_pos)]

theorem lower_div_succ (h : bit k b = 1) : lower k b / 2 ^ (k + 1) = b / 2 ^ (k + 1) := by
  have hbit : b / 2 ^ k % 2 = 1 := congrArg Fin.val h
  rw [← div_succ, lower_div h, ← div_succ]
  generalize b / 2 ^ k = q at hbit ⊢
  omega

theorem bit_lower (h : bit k b = 1) : bit k (lower k b) = 0 := by
  have hbit : b / 2 ^ k % 2 = 1 := congrArg Fin.val h
  refine Fin.ext ?_
  show lower k b / 2 ^ k % 2 = 0
  rw [lower_div h]
  omega

/-- What cannot be raised keeps the bit. -/
theorem bit_eq_of_lt_raise (hax : a ≤ x) (h : x < raise k a) : bit k x = bit k a := bit_congr (div_eq_of_lt_raise hax h)

theorem bit_eq_of_lower_lt (hxb : x ≤ b) (h : lower k b < x) : bit k x = bit k b := bit_congr (div_eq_of_lower_lt hxb h)

/-! ### One bit -/

section
variable (p q r s : Fin 2)

theorem or_bits_le : p ≤ r → q ≤ s → (p = 0 → q = 1 → r = 0) → (p = 1 → q = 0 → s = 0) →
    p.val ||| q.val < r.val ||| s.val ∨ (r = p ∧ s = q) := by
  revert p q r s
  decide

theorem and_bits_le : p ≤ r → q ≤ s → (p = 0 → q = 0 → r = 0 ∧ s = 0) →
    p.val &&& q.val < r.val &&& s.val ∨ (r = p ∧ s = q) := by
  revert p q r s
  decide

theorem or_bits_ge : r ≤ p → s ≤ q → (p = 1 → q = 1 → r = 1 ∧ s = 1) →
    r.val ||| s.val < p.val ||| q.val ∨ (p = r ∧ q = s) := by
  revert p q r s
  decide

theorem and_bits_ge : r ≤ p → s ≤ q → (p = 1 → q = 0 → r = 1) → (p = 0 → q = 1 → s = 1) →
    r.val &&& s.val < p.val &&& q.val ∨ (p = r ∧ q = s) := by
  revert p q r s
  decide

end

/-! ### The end at a bit -/

theorem le_of_parts (hhigh : r / 2 ^ (k + 1) = x / 2 ^ (k + 1)) (hbit : bit k r ≤ bit k x) (hlow : r % 2 ^ k ≤ x % 2 ^ k) : r ≤ x := by
  have hdiv : r / 2 ^ k ≤ x / 2 ^ k := by
    rw [div_eq r, div_eq x, hhigh]
    exact Nat.add_le_add_left (Fin.le_def.mp hbit) _
  calc r = 2 ^ k * (r / 2 ^ k) + r % 2 ^ k := (Nat.div_add_mod _ _).symm
    _ ≤ 2 ^ k * (x / 2 ^ k) + x % 2 ^ k := Nat.add_le_add (Nat.mul_le_mul_left _ hdiv) hlow
    _ = x := Nat.div_add_mod _ _

theorem bit_apply (hf : Bitwise f) (k x y : Nat) : (bit k (f x y)).val = f (bit k x) (bit k y) := by
  show f x y / 2 ^ k % 2 = _
  rw [hf.div]
  have := hf.mod (x / 2 ^ k) (y / 2 ^ k) 1
  rwa [pow_one] at this

/-- What starts with the leading bits of the side that is behind is below the other, if it is so when these agree. -/
theorem Beats.le_of_div (hf : Bitwise f) (h : Beats f (k + 1) x y a c) {a' c' : Nat} (ha : a' / 2 ^ (k + 1) = a / 2 ^ (k + 1))
    (hc : c' / 2 ^ (k + 1) = c / 2 ^ (k + 1)) (hsame : x / 2 ^ (k + 1) = a / 2 ^ (k + 1) → y / 2 ^ (k + 1) = c / 2 ^ (k + 1) →
      f (bit k a') (bit k c') ≤ f (bit k x) (bit k y) ∧ f (a' % 2 ^ k) (c' % 2 ^ k) ≤ f (x % 2 ^ k) (y % 2 ^ k)) : f a' c' ≤ f x y := by
  rcases h with hlt | ⟨hx, hy⟩
  · rw [← ha, ← hc, ← hf.div, ← hf.div] at hlt
    exact (Nat.lt_of_div_lt_div hlt).le
  · obtain ⟨hbit, hlow⟩ := hsame hx hy
    refine le_of_parts (by rw [hf.div, hf.div, ha, hc, hx, hy]) ?_ ?_
    · exact Fin.le_def.mpr (by rwa [bit_apply hf, bit_apply hf])
    · rwa [hf.mod, hf.mod]

theorem Beats.ge_of_div (hf : Bitwise f) (h : Beats f (k + 1) b d x y) {b' d' : Nat} (hb : b' / 2 ^ (k + 1) = b / 2 ^ (k + 1))
    (hd : d' / 2 ^ (k + 1) = d / 2 ^ (k + 1)) (hsame : x / 2 ^ (k + 1) = b / 2 ^ (k + 1) → y / 2 ^ (k + 1) = d / 2 ^ (k + 1) →
      f (bit k x) (bit k y) ≤ f (bit k b') (bit k d') ∧ f (x % 2 ^ k) (y % 2 ^ k) ≤ f (b' % 2 ^ k) (d' % 2 ^ k)) : f x y ≤ f b' d' := by
  rcases h with hlt | ⟨hx, hy⟩
  · rw [← hb, ← hd, ← hf.div, ← hf.div] at hlt
    exact (Nat.lt_of_div_lt_div hlt).le
  · obtain ⟨hbit, hlow⟩ := hsame hx.symm hy.symm
    refine le_of_parts (by rw [hf.div, hf.div, hb, hd, hx, hy]) ?_ ?_
    · exact Fin.le_def.mpr (by rwa [bit_apply hf, bit_apply hf])
    · rwa [hf.mod, hf.mod]

end CapTaint.BitBounds
