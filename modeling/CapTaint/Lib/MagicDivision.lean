import Mathlib

/-! # Division by multiplication

A quotient by an invariant divisor `d` is the high part of a product with a number `m` that is slightly above
`2 ^ k / d`. -/

namespace MagicDivision

variable {N l d n m : Nat}

/-- `m` is above `2 ^ (N + l) / d`, and so little that numerators below `2 ^ N` do not notice. -/
structure Magic (N l d m : Nat) : Prop where
  pos : 0 < d
  above : 2 ^ (N + l) < m * d
  close : m * d ≤ 2 ^ (N + l) + 2 ^ l

/-- The product with a numerator lies between the quotient and the next number. -/
theorem Magic.le_mul (h : Magic N l d m) (n : Nat) : n / d * 2 ^ (N + l) ≤ m * n :=
  calc n / d * 2 ^ (N + l) ≤ n / d * (m * d) := Nat.mul_le_mul_left _ h.above.le
    _ = m * (d * (n / d)) := by ring
    _ ≤ m * n := Nat.mul_le_mul_left _ (Nat.mul_div_le n d)

theorem Magic.mul_lt (h : Magic N l d m) (hn : n < 2 ^ N) : m * n < (n / d + 1) * 2 ^ (N + l) := by
  have hnext : n + 1 ≤ d * (n / d + 1) := Nat.lt_mul_div_succ n h.pos
  refine Nat.lt_of_mul_lt_mul_left (a := d) ?_
  calc d * (m * n) = m * d * n := by ring
    _ ≤ (2 ^ (N + l) + 2 ^ l) * n := Nat.mul_le_mul_right _ h.close
    _ = 2 ^ (N + l) * n + 2 ^ l * n := by ring
    _ < 2 ^ (N + l) * n + 2 ^ l * 2 ^ N := Nat.add_lt_add_left (Nat.mul_lt_mul_of_pos_left hn (Nat.two_pow_pos l)) _
    _ = 2 ^ (N + l) * (n + 1) := by ring
    _ ≤ 2 ^ (N + l) * (d * (n / d + 1)) := Nat.mul_le_mul_left _ hnext
    _ = d * ((n / d + 1) * 2 ^ (N + l)) := by ring

/-- The quotient is the high part of the product. -/
theorem Magic.mul_div (h : Magic N l d m) (hn : n < 2 ^ N) : m * n / 2 ^ (N + l) = n / d :=
  Nat.div_eq_of_lt_le (h.le_mul n) (h.mul_lt hn)

/-- A number of more than `N` bits is multiplied without its highest bit. -/
theorem Magic.high_part (h : Magic N l d (2 ^ N + m)) (hn : n < 2 ^ N) : (n + m * n / 2 ^ N) / 2 ^ l = n / d := by
  rw [← h.mul_div hn, pow_add, ← Nat.div_div_eq_div_mul, Nat.add_mul, Nat.mul_comm (2 ^ N) n, Nat.add_comm (n * 2 ^ N),
    Nat.add_mul_div_right _ _ (Nat.two_pow_pos N), Nat.add_comm]

/-- The sum is halved first, so that it does not overflow. -/
theorem Magic.shifts (h : Magic N l d (2 ^ N + m)) (hm : m < 2 ^ N) (hn : n < 2 ^ N) :
    ((n - m * n / 2 ^ N) / 2 ^ min l 1 + m * n / 2 ^ N) / 2 ^ (l - 1) = n / d := by
  have hhigh := h.high_part hn
  have hle : m * n / 2 ^ N ≤ n := Nat.div_le_of_le_mul (Nat.mul_le_mul_right n hm.le)
  generalize m * n / 2 ^ N = t at hhigh hle ⊢
  cases l with
  | zero =>
    rw [pow_zero, Nat.div_one] at hhigh
    have hquotient : n / d ≤ n := Nat.div_le_self n d
    rw [Nat.zero_min, Nat.zero_sub, pow_zero, Nat.div_one, Nat.div_one]
    omega
  | succ l =>
    rw [Nat.min_eq_right (Nat.le_add_left 1 l), pow_one, Nat.add_sub_cancel, ← hhigh, pow_succ', ← Nat.div_div_eq_div_mul]
    congr 1
    omega

/-- The smallest such number, when the divisor is at most `2 ^ l`. -/
theorem magic_div (hpos : 0 < d) (hd : d ≤ 2 ^ l) : Magic N l d (2 ^ (N + l) / d + 1) where
  pos := hpos
  above := by
    rw [mul_comm]
    exact Nat.lt_mul_div_succ _ hpos
  close :=
    calc (2 ^ (N + l) / d + 1) * d = 2 ^ (N + l) / d * d + d := by ring
      _ ≤ 2 ^ (N + l) + 2 ^ l := Nat.add_le_add (Nat.div_mul_le_self _ d) hd

end MagicDivision
