import CapTaint.Klee.ExprRangeEvaluator
import CapTaint.Lib.BitBounds
import CapTaint.Theorems.Range

/-! # The operators of ranges

Each operator of `ValueRange` gives a range for all results of values from its operands. The bounds of the bitwise operators
are searched from the leading bits on: up to the bit that the search is at, the bounds beat the values or agree with them. -/

namespace CapTaint.Klee

open BitBounds (Beats bit raise lower bitwise_or bitwise_and)

variable {a b c d m : BitVec 64} {x y k n : Nat}

/-! ### Words as numbers -/

theorem toNat_one_shiftLeft (hk : k < 64) : (1#64 <<< k).toNat = 2 ^ k := by
  rw [BitVec.toNat_shiftLeft, BitVec.toNat_ofNat, Nat.one_mod, Nat.shiftLeft_eq, one_mul,
    Nat.mod_eq_of_lt (Nat.pow_lt_pow_right (by decide) hk)]

theorem bit_eq_one_iff (a : BitVec 64) (k : Nat) : bit k a.toNat = 1 ↔ a.getLsbD k = true := by
  rw [BitVec.getLsbD, Nat.testBit_eq_decide_div_mod_eq, decide_eq_true_eq]
  exact Fin.ext_iff

theorem bit_eq_zero_iff (a : BitVec 64) (k : Nat) : bit k a.toNat = 0 ↔ a.getLsbD k = false := by
  rw [← not_iff_not, Bool.not_eq_false, ← bit_eq_one_iff]
  have : ∀ p : Fin 2, ¬p = 0 ↔ p = 1 := by decide
  exact this _

theorem and_bit_ne_zero_iff (hk : k < 64) : a &&& 1#64 <<< k ≠ 0 ↔ bit k a.toNat = 1 := by
  rw [bit_eq_one_iff, ← BitVec.twoPow_eq, BitVec.and_twoPow]
  split
  · rename_i h
    refine iff_of_true (fun hzero => ?_) h
    have := congrArg BitVec.toNat hzero
    rw [BitVec.twoPow_eq, toNat_one_shiftLeft hk] at this
    exact (Nat.two_pow_pos k).ne' this
  · rename_i h
    exact iff_of_false (not_not.mpr rfl) h

theorem bit_not (hk : k < 64) : bit k (~~~a).toNat = 1 ↔ bit k a.toNat = 0 := by
  rw [bit_eq_one_iff, bit_eq_zero_iff, BitVec.getLsbD_not, decide_eq_true hk, Bool.true_and, Bool.not_eq_true']

theorem bit_and : bit k (a &&& b).toNat = 1 ↔ bit k a.toNat = 1 ∧ bit k b.toNat = 1 := by
  rw [bit_eq_one_iff, bit_eq_one_iff, bit_eq_one_iff, BitVec.getLsbD_and, Bool.and_eq_true]

theorem neg_one_shiftLeft (hk : k < 64) : -(1#64 <<< k) = BitVec.allOnes 64 <<< k := by
  have h : ∀ k : Fin 64, -(1#64 <<< k.val) = BitVec.allOnes 64 <<< k.val := by decide
  exact h ⟨k, hk⟩

theorem or_two_pow_div (ha : bit k n = 0) : (n ||| 2 ^ k) / 2 ^ k = n / 2 ^ k + 1 := by
  obtain ⟨q, hq⟩ := Nat.dvd_of_mod_eq_zero (show n / 2 ^ k % 2 = 0 from congrArg Fin.val ha)
  have hor : 2 ^ 1 * q + 1 = 2 ^ 1 * q ||| 1 := Nat.two_pow_add_eq_or_of_lt Nat.one_lt_two q
  rw [Nat.or_div_two_pow, Nat.div_self (Nat.two_pow_pos k), hq]
  exact hor.symm

theorem toNat_raise (hk : k < 64) (ha : bit k a.toNat = 0) : ((a ||| 1#64 <<< k) &&& -(1#64 <<< k)).toNat = raise k a.toNat := by
  have hor : (a ||| 1#64 <<< k).toNat = a.toNat ||| 2 ^ k := by rw [BitVec.toNat_or, toNat_one_shiftLeft hk]
  have hlt : (a ||| 1#64 <<< k).toNat / 2 ^ k * 2 ^ k < 2 ^ 64 := (Nat.div_mul_le_self _ _).trans_lt (BitVec.isLt _)
  rw [neg_one_shiftLeft hk, ← BitVec.shiftLeft_ushiftRight, BitVec.toNat_shiftLeft, BitVec.toNat_ushiftRight,
    Nat.shiftRight_eq_div_pow, Nat.shiftLeft_eq, Nat.mod_eq_of_lt hlt, hor, or_two_pow_div ha]
  rfl

theorem two_pow_le_of_bit (hb : bit k n = 1) : 2 ^ k ≤ n := by
  have hbit : n / 2 ^ k % 2 = 1 := congrArg Fin.val hb
  have hone : 1 ≤ n / 2 ^ k := Nat.one_le_iff_ne_zero.mpr fun h0 => by rw [h0] at hbit; cases hbit
  have := (Nat.le_div_iff_mul_le (Nat.two_pow_pos k)).mp hone
  rwa [one_mul] at this

/-- Below a multiple of a power of two, the ones in front of it change nothing. -/
theorem or_ones (q r : Nat) (hr : r < 2 ^ k) : (2 ^ k * q + r) ||| (2 ^ k - 1) = 2 ^ k * q + (2 ^ k - 1) := by
  have hones : 2 ^ k - 1 < 2 ^ k := Nat.sub_lt (Nat.two_pow_pos k) Nat.one_pos
  rw [Nat.two_pow_add_eq_or_of_lt hr, Nat.or_assoc, Nat.two_pow_add_eq_or_of_lt hones]
  congr 1
  refine Nat.eq_of_testBit_eq fun i => ?_
  rw [Nat.testBit_or, Nat.testBit_two_pow_sub_one]
  rcases lt_or_ge i k with hi | hi
  · simp [hi]
  · rw [Nat.testBit_lt_two_pow (hr.trans_le (Nat.pow_le_pow_right Nat.two_pos hi))]
    simp

theorem toNat_lower (hk : k < 64) (hb : bit k b.toNat = 1) : ((b - 1#64 <<< k) ||| (1#64 <<< k - 1)).toNat = lower k b.toNat := by
  have hm := toNat_one_shiftLeft hk
  have hpos := Nat.two_pow_pos k
  have hle := two_pow_le_of_bit hb
  have hsub : (b - 1#64 <<< k).toNat = b.toNat - 2 ^ k := by
    rw [BitVec.toNat_sub_of_le (BitVec.le_def.mpr (hm ▸ hle)), hm]
  have hones : (1#64 <<< k - 1).toNat = 2 ^ k - 1 := by
    rw [BitVec.toNat_sub_of_le (BitVec.le_def.mpr (hm ▸ hpos)), hm]
    rfl
  have hparts : b.toNat - 2 ^ k = 2 ^ k * (b.toNat / 2 ^ k - 1) + b.toNat % 2 ^ k := by
    have := Nat.div_add_mod b.toNat (2 ^ k)
    rw [Nat.mul_sub, mul_one]
    have hq : 2 ^ k * 1 ≤ 2 ^ k * (b.toNat / 2 ^ k) := Nat.mul_le_mul_left _ ((Nat.one_le_div_iff hpos).mpr hle)
    omega
  rw [BitVec.toNat_or, hsub, hones, hparts, or_ones _ _ (Nat.mod_lt _ hpos), BitBounds.lower_eq hb, Nat.add_comm]

theorem sub_eq_and_not (hb : bit k b.toNat = 1) : b &&& ~~~(1#64 <<< k) = b - 1#64 <<< k := by
  have hbit := (bit_eq_one_iff b k).mp hb
  rw [← BitVec.twoPow_eq]
  have hdisjoint : (b &&& ~~~BitVec.twoPow 64 k) &&& BitVec.twoPow 64 k = 0#64 := by
    rw [BitVec.and_assoc, BitVec.and_comm (~~~_), BitVec.and_not_self]
    exact BitVec.and_zero
  have hjoin : (b &&& ~~~BitVec.twoPow 64 k) ||| BitVec.twoPow 64 k = b := by
    refine BitVec.eq_of_getLsbD_eq fun i hi => ?_
    rw [BitVec.getLsbD_or, BitVec.getLsbD_and, BitVec.getLsbD_not, BitVec.getLsbD_twoPow]
    rcases eq_or_ne k i with rfl | hne
    · simp [hbit, hi]
    · simp [hi, hne]
  rw [eq_sub_iff_add_eq, BitVec.add_eq_or_of_and_eq_zero _ _ hdisjoint, hjoin]

/-! ### The loops -/

/-- Two words and two numbers between them, for each operand. -/
structure Between (a b c d : BitVec 64) (x y : Nat) : Prop where
  left_le : a.toNat ≤ x
  le_left : x ≤ b.toNat
  right_le : c.toNat ≤ y
  le_right : y ≤ d.toNat

theorem Between.lt (h : Between a b c d x y) : x < 2 ^ 64 ∧ y < 2 ^ 64 :=
  ⟨h.le_left.trans_lt b.isLt, h.le_right.trans_lt d.isLt⟩

theorem bit_eq_one_of_le (h : a.toNat ≤ x) (hhigh : x / 2 ^ (k + 1) = a.toNat / 2 ^ (k + 1)) (ha : bit k a.toNat = 1) : bit k x = 1 := by
  have hle := BitBounds.bit_le h hhigh
  have hall : ∀ p q : Fin 2, p ≤ q → p = 1 → q = 1 := by decide
  exact hall _ _ hle ha

theorem bit_eq_zero_of_le (h : x ≤ b.toNat) (hhigh : x / 2 ^ (k + 1) = b.toNat / 2 ^ (k + 1)) (hb : bit k b.toNat = 0) : bit k x = 0 := by
  have hle := BitBounds.bit_le h hhigh.symm
  have hall : ∀ p q : Fin 2, q ≤ p → p = 0 → q = 0 := by decide
  exact hall _ _ hle hb

/-- The least word of one operand is raised at a bit that the other has. -/
theorem or_raise (hk : k < 64) (h : Beats (· ||| ·) (k + 1) x y a.toNat c.toNat) (hcy : c.toNat ≤ y) (ha : bit k a.toNat = 0)
    (hc : bit k c.toNat = 1) : (((a ||| 1#64 <<< k) &&& -(1#64 <<< k)) ||| c).toNat ≤ x ||| y := by
  rw [BitVec.toNat_or, toNat_raise hk ha]
  refine h.le_of_div bitwise_or (BitBounds.raise_div_succ ha) rfl fun _ hy => ?_
  have hyk := bit_eq_one_of_le hcy hy hc
  constructor
  · rw [BitBounds.bit_raise ha, hc, hyk]
    have hall : ∀ p : Fin 2, (1 : Fin 2).val ||| (1 : Fin 2).val ≤ p.val ||| (1 : Fin 2).val := by decide
    exact hall _
  · rw [BitBounds.raise_mod, Nat.zero_or]
    exact (BitBounds.mod_le_of_div_eq hcy (BitBounds.div_eq_of_bit hy (hyk.trans hc.symm))).trans Nat.right_le_or

/-- The least word of one operand is raised at a bit that the other has not. -/
theorem and_raise (hk : k < 64) (h : Beats (· &&& ·) (k + 1) x y a.toNat c.toNat) (ha : bit k a.toNat = 0) (hc : bit k c.toNat = 0) :
    (((a ||| 1#64 <<< k) &&& -(1#64 <<< k)) &&& c).toNat ≤ x &&& y := by
  rw [BitVec.toNat_and, toNat_raise hk ha]
  refine h.le_of_div bitwise_and (BitBounds.raise_div_succ ha) rfl fun _ _ => ⟨?_, ?_⟩
  · rw [hc, Fin.val_zero, Nat.and_zero]
    exact Nat.zero_le _
  · rw [BitBounds.raise_mod, Nat.zero_and]
    exact Nat.zero_le _

/-- The greatest word of one operand is lowered at a bit that the other has too. -/
theorem or_lower (hk : k < 64) (h : Beats (· ||| ·) (k + 1) b.toNat d.toNat x y) (hb : bit k b.toNat = 1) (hd : bit k d.toNat = 1) :
    x ||| y ≤ (((b - 1#64 <<< k) ||| (1#64 <<< k - 1)) ||| d).toNat := by
  rw [BitVec.toNat_or, toNat_lower hk hb]
  refine h.ge_of_div bitwise_or (BitBounds.lower_div_succ hb) rfl fun _ _ => ⟨?_, ?_⟩
  · rw [BitBounds.bit_lower hb, hd]
    have hall : ∀ p q : Fin 2, p.val ||| q.val ≤ (0 : Fin 2).val ||| (1 : Fin 2).val := by decide
    exact hall _ _
  · have hlt : ∀ n, n % 2 ^ k < 2 ^ k := fun n => Nat.mod_lt n (Nat.two_pow_pos k)
    rw [BitBounds.lower_mod hb]
    exact (Nat.le_sub_one_of_lt (Nat.or_lt_two_pow (hlt x) (hlt y))).trans Nat.left_le_or

/-- The greatest word of one operand is lowered at a bit that the other has not. -/
theorem and_lower (hk : k < 64) (h : Beats (· &&& ·) (k + 1) b.toNat d.toNat x y) (hyd : y ≤ d.toNat) (hb : bit k b.toNat = 1)
    (hd : bit k d.toNat = 0) : x &&& y ≤ (((b &&& ~~~(1#64 <<< k)) ||| (1#64 <<< k - 1)) &&& d).toNat := by
  rw [sub_eq_and_not hb, BitVec.toNat_and, toNat_lower hk hb]
  refine h.ge_of_div bitwise_and (BitBounds.lower_div_succ hb) rfl fun _ hy => ?_
  have hyk := bit_eq_zero_of_le hyd hy hd
  constructor
  · rw [hyk, Fin.val_zero, Nat.and_zero]
    exact Nat.zero_le _
  · have hmod : d.toNat % 2 ^ k < 2 ^ k := Nat.mod_lt _ (Nat.two_pow_pos k)
    rw [BitBounds.lower_mod hb, Nat.and_comm (2 ^ k - 1), Nat.and_two_pow_sub_one_eq_mod, Nat.mod_mod]
    exact Nat.and_le_right.trans (BitBounds.mod_le_of_div_eq hyd (BitBounds.div_eq_of_bit hy (hyk.trans hd.symm)).symm)

theorem minOR_loop_le (hk : k ≤ 64) (hb : Between a b c d x y) (h : Beats (· ||| ·) k x y a.toNat c.toNat) :
    (minOR.loop a b c d k).toNat ≤ x ||| y := by
  induction k with
  | zero =>
    rw [minOR.loop, BitVec.toNat_or]
    exact h.le
  | succ k ih =>
    have hskip : (bit k a.toNat = 0 → bit k c.toNat = 1 → bit k x = 0) → (bit k a.toNat = 1 → bit k c.toNat = 0 → bit k y = 0) →
        (minOR.loop a b c d k).toNat ≤ x ||| y := fun hleft hright =>
      ih (Nat.le_of_succ_le hk) (h.step bitwise_or fun hx hy =>
        BitBounds.or_bits_le _ _ _ _ (BitBounds.bit_le hb.left_le hx) (BitBounds.bit_le hb.right_le hy) hleft hright)
    rw [minOR.loop]
    dsimp only
    simp only [and_bit_ne_zero_iff hk, bit_and, bit_not hk, BitVec.le_def]
    split_ifs with hleft ht hright ht
    · exact or_raise hk h hb.right_le hleft.1 hleft.2
    · rw [toNat_raise hk hleft.1, not_le] at ht
      exact hskip (fun h0 _ => (BitBounds.bit_eq_of_lt_raise hb.left_le (hb.le_left.trans_lt ht)).trans h0)
        fun h1 _ => absurd (hleft.1.symm.trans h1) (by decide)
    · rw [BitVec.or_comm, Nat.or_comm]
      exact or_raise hk (h.swap Nat.or_comm) hb.left_le hright.2 hright.1
    · rw [toNat_raise hk hright.2, not_le] at ht
      exact hskip (fun h0 _ => absurd (hright.1.symm.trans h0) (by decide))
        fun _ h0 => (BitBounds.bit_eq_of_lt_raise hb.right_le (hb.le_right.trans_lt ht)).trans h0
    · exact hskip (fun h0 h1 => absurd ⟨h0, h1⟩ hleft) fun h1 h0 => absurd ⟨h1, h0⟩ hright

theorem le_maxOR_loop (hk : k ≤ 64) (hb : Between a b c d x y) (h : Beats (· ||| ·) k b.toNat d.toNat x y) :
    x ||| y ≤ (maxOR.loop a b c d k).toNat := by
  induction k with
  | zero =>
    rw [maxOR.loop, BitVec.toNat_or]
    exact h.le
  | succ k ih =>
    have hskip : (bit k b.toNat = 1 → bit k d.toNat = 1 → bit k x = 1 ∧ bit k y = 1) → x ||| y ≤ (maxOR.loop a b c d k).toNat :=
      fun hboth => ih (Nat.le_of_succ_le hk) (h.step bitwise_or fun hx hy =>
        BitBounds.or_bits_ge _ _ _ _ (BitBounds.bit_le hb.le_left hx) (BitBounds.bit_le hb.le_right hy) hboth)
    rw [maxOR.loop]
    dsimp only
    simp only [and_bit_ne_zero_iff hk, bit_and, BitVec.le_def]
    split_ifs with hboth ha hc
    · exact or_lower hk h hboth.1 hboth.2
    · rw [BitVec.or_comm, Nat.or_comm]
      exact or_lower hk (h.swap Nat.or_comm) hboth.2 hboth.1
    · rw [toNat_lower hk hboth.1, not_le] at ha
      rw [toNat_lower hk hboth.2, not_le] at hc
      exact hskip fun h1 h1' => ⟨(BitBounds.bit_eq_of_lower_lt hb.le_left (ha.trans_le hb.left_le)).trans h1,
        (BitBounds.bit_eq_of_lower_lt hb.le_right (hc.trans_le hb.right_le)).trans h1'⟩
    · exact hskip fun h1 h1' => absurd ⟨h1, h1'⟩ hboth

theorem minAND_loop_le (hk : k ≤ 64) (hb : Between a b c d x y) (h : Beats (· &&& ·) k x y a.toNat c.toNat) :
    (minAND.loop a b c d k).toNat ≤ x &&& y := by
  induction k with
  | zero =>
    rw [minAND.loop, BitVec.toNat_and]
    exact h.le
  | succ k ih =>
    have hskip : (bit k a.toNat = 0 → bit k c.toNat = 0 → bit k x = 0 ∧ bit k y = 0) → (minAND.loop a b c d k).toNat ≤ x &&& y :=
      fun hboth => ih (Nat.le_of_succ_le hk) (h.step bitwise_and fun hx hy =>
        BitBounds.and_bits_le _ _ _ _ (BitBounds.bit_le hb.left_le hx) (BitBounds.bit_le hb.right_le hy) hboth)
    rw [minAND.loop]
    dsimp only
    simp only [and_bit_ne_zero_iff hk, bit_and, bit_not hk, BitVec.le_def]
    split_ifs with hboth ht ht'
    · exact and_raise hk h hboth.1 hboth.2
    · rw [BitVec.and_comm, Nat.and_comm]
      exact and_raise hk (h.swap Nat.and_comm) hboth.2 hboth.1
    · rw [toNat_raise hk hboth.1, not_le] at ht
      rw [toNat_raise hk hboth.2, not_le] at ht'
      exact hskip fun h0 h0' => ⟨(BitBounds.bit_eq_of_lt_raise hb.left_le (hb.le_left.trans_lt ht)).trans h0,
        (BitBounds.bit_eq_of_lt_raise hb.right_le (hb.le_right.trans_lt ht')).trans h0'⟩
    · exact hskip fun h0 h0' => absurd ⟨h0, h0'⟩ hboth

theorem le_maxAND_loop (hk : k ≤ 64) (hb : Between a b c d x y) (h : Beats (· &&& ·) k b.toNat d.toNat x y) :
    x &&& y ≤ (maxAND.loop a b c d k).toNat := by
  induction k with
  | zero =>
    rw [maxAND.loop, BitVec.toNat_and]
    exact h.le
  | succ k ih =>
    have hskip : (bit k b.toNat = 1 → bit k d.toNat = 0 → bit k x = 1) → (bit k b.toNat = 0 → bit k d.toNat = 1 → bit k y = 1) →
        x &&& y ≤ (maxAND.loop a b c d k).toNat := fun hleft hright =>
      ih (Nat.le_of_succ_le hk) (h.step bitwise_and fun hx hy =>
        BitBounds.and_bits_ge _ _ _ _ (BitBounds.bit_le hb.le_left hx) (BitBounds.bit_le hb.le_right hy) hleft hright)
    rw [maxAND.loop]
    dsimp only
    simp only [and_bit_ne_zero_iff hk, bit_and, bit_not hk, BitVec.le_def]
    split_ifs with hleft ha hright hc
    · exact and_lower hk h hb.le_right hleft.1 hleft.2
    · rw [sub_eq_and_not hleft.1, toNat_lower hk hleft.1, not_le] at ha
      exact hskip (fun h1 _ => (BitBounds.bit_eq_of_lower_lt hb.le_left (ha.trans_le hb.left_le)).trans h1)
        fun h0 _ => absurd (hleft.1.symm.trans h0) (by decide)
    · rw [BitVec.and_comm, Nat.and_comm]
      exact and_lower hk (h.swap Nat.and_comm) hb.le_left hright.2 hright.1
    · rw [sub_eq_and_not hright.2, toNat_lower hk hright.2, not_le] at hc
      exact hskip (fun h1 _ => absurd (hright.1.symm.trans h1) (by decide))
        fun _ h1 => (BitBounds.bit_eq_of_lower_lt hb.le_right (hc.trans_le hb.right_le)).trans h1
    · exact hskip (fun h1 h0 => absurd ⟨h1, h0⟩ hleft) fun h0 h1 => absurd ⟨h0, h1⟩ hright

theorem lower_lt {w : Nat} (h : n < 2 ^ w) (k : Nat) : lower k n < 2 ^ w :=
  ((Nat.sub_le _ _).trans (Nat.div_mul_le_self _ _)).trans_lt h

theorem maxOR_loop_lt {w : Nat} (hk : k ≤ 64) (hb : b.toNat < 2 ^ w) (hd : d.toNat < 2 ^ w) : (maxOR.loop a b c d k).toNat < 2 ^ w := by
  induction k with
  | zero =>
    rw [maxOR.loop, BitVec.toNat_or]
    exact Nat.or_lt_two_pow hb hd
  | succ k ih =>
    rw [maxOR.loop]
    dsimp only
    simp only [and_bit_ne_zero_iff hk, bit_and]
    split_ifs with hboth
    · rw [BitVec.toNat_or, toNat_lower hk hboth.1]
      exact Nat.or_lt_two_pow (lower_lt hb k) hd
    · rw [BitVec.toNat_or, toNat_lower hk hboth.2]
      exact Nat.or_lt_two_pow hb (lower_lt hd k)
    · exact ih (Nat.le_of_succ_le hk)
    · exact ih (Nat.le_of_succ_le hk)

theorem maxAND_loop_lt {w : Nat} (hb : b.toNat < 2 ^ w) (hd : d.toNat < 2 ^ w) : (maxAND.loop a b c d k).toNat < 2 ^ w := by
  have hleft : ∀ t : BitVec 64, (t &&& d).toNat < 2 ^ w := fun t => by
    rw [BitVec.toNat_and]
    exact Nat.and_le_right.trans_lt hd
  have hright : ∀ t : BitVec 64, (b &&& t).toNat < 2 ^ w := fun t => by
    rw [BitVec.toNat_and]
    exact Nat.and_le_left.trans_lt hb
  induction k with
  | zero => exact hleft b
  | succ k ih =>
    rw [maxAND.loop]
    dsimp only
    split_ifs
    exacts [hleft _, ih, hright _, ih, ih]

/-- Between the bounds, above all bits, the words agree. -/
theorem Between.beats (h : Between a b c d x y) (f : Nat → Nat → Nat) :
    Beats f 64 x y a.toNat c.toNat ∧ Beats f 64 b.toNat d.toNat x y :=
  ⟨BitBounds.beats_top h.lt.1 h.lt.2 a.isLt c.isLt, BitBounds.beats_top b.isLt d.isLt h.lt.1 h.lt.2⟩

/-! ### The leading bit -/

theorem and_pred (i q : Nat) : 2 ^ i * (2 * q + 1) &&& (2 ^ i * (2 * q + 1) - 1) = 2 ^ (i + 1) * q := by
  have hpos := Nat.two_pow_pos i
  have hpred : 2 ^ i * (2 * q + 1) - 1 = 2 ^ i - 1 + 2 ^ i * (2 * q) := by
    rw [Nat.mul_add, mul_one]
    omega
  have hodd : (2 * q + 1) &&& (2 * q) = 2 * q := by
    have hhigh : ((2 * q + 1) &&& (2 * q)) / 2 ^ 1 = q := by
      rw [Nat.and_div_two_pow, pow_one, Nat.mul_add_div Nat.two_pos, Nat.mul_div_cancel_left q Nat.two_pos, Nat.div_eq_of_lt Nat.one_lt_two,
        Nat.add_zero, Nat.and_self]
    have hlow : ((2 * q + 1) &&& (2 * q)) % 2 ^ 1 = 0 := by
      rw [Nat.and_mod_two_pow, pow_one, Nat.mul_mod_right, Nat.and_zero]
    have := Nat.div_add_mod ((2 * q + 1) &&& (2 * q)) (2 ^ 1)
    rw [hhigh, hlow] at this
    exact this.symm
  have hhigh : (2 ^ i * (2 * q + 1) &&& (2 ^ i * (2 * q + 1) - 1)) / 2 ^ i = 2 * q := by
    rw [Nat.and_div_two_pow, Nat.mul_div_cancel_left _ hpos, hpred, Nat.add_mul_div_left _ _ hpos,
      Nat.div_eq_of_lt (Nat.sub_lt hpos Nat.one_pos), Nat.zero_add, hodd]
  have hlow : (2 ^ i * (2 * q + 1) &&& (2 ^ i * (2 * q + 1) - 1)) % 2 ^ i = 0 := by
    rw [Nat.and_mod_two_pow, Nat.mul_mod_right, Nat.zero_and]
  have := Nat.div_add_mod (2 ^ i * (2 * q + 1) &&& (2 ^ i * (2 * q + 1) - 1)) (2 ^ i)
  rw [hhigh, hlow, Nat.add_zero, ← Nat.mul_assoc, ← pow_succ] at this
  exact this.symm

/-- Each step clears the lowest bit, so the loop ends within as many steps as there are bits. -/
theorem leadingBit_spec {j : Nat} (t : BitVec 64) (hn : n + j = 65) (hj : 2 ^ j ∣ t.toNat) (ht : t.toNat ≠ 0) :
    ∃ t' e, leadingBit n t = some t' ∧ t'.toNat = 2 ^ e ∧ 2 ^ e ≤ t.toNat ∧ t.toNat < 2 ^ (e + 1) := by
  induction n generalizing t j with
  | zero =>
    rw [Nat.zero_add] at hn
    have hle := Nat.le_of_dvd (Nat.pos_of_ne_zero ht) (hn ▸ hj)
    exact absurd (hle.trans_lt t.isLt) (by decide)
  | succ n ih =>
    obtain ⟨i, odd, ⟨q, rfl⟩, hti⟩ := Nat.exists_eq_two_pow_mul_odd ht
    have hone : (1#64).toNat ≤ t.toNat := Nat.pos_of_ne_zero ht
    have hpred : (t - 1).toNat = t.toNat - 1 := BitVec.toNat_sub_of_le (BitVec.le_def.mpr hone)
    have hwithout : (withoutRightmostBit t).toNat = 2 ^ (i + 1) * q := by
      rw [withoutRightmostBit, BitVec.toNat_and, hpred, hti]
      exact and_pred i q
    have hne : t ≠ 0 := fun h0 => ht (congrArg BitVec.toNat h0)
    rw [leadingBit]
    rcases Nat.eq_zero_or_pos q with rfl | hq
    · have hpower : isPowerOfTwo t = true := decide_eq_true ⟨hne, BitVec.eq_of_toNat_eq hwithout⟩
      rw [Nat.mul_zero, Nat.zero_add, mul_one] at hti
      rw [if_pos hpower, hti]
      exact ⟨t, i, rfl, hti, le_rfl, Nat.pow_lt_pow_right Nat.one_lt_two i.lt_succ_self⟩
    · have hpos : 0 < 2 ^ (i + 1) * q := Nat.mul_pos (Nat.two_pow_pos _) hq
      have hpower : ¬isPowerOfTwo t = true := fun h =>
        hpos.ne' (hwithout.symm.trans (congrArg BitVec.toNat (of_decide_eq_true h).2))
      have hji : j ≤ i := by
        by_contra hlt
        have hdvd : 2 ^ i * 2 ∣ 2 ^ i * (2 * q + 1) := by
          rw [← pow_succ, ← hti]
          exact (pow_dvd_pow 2 (not_le.mp hlt)).trans hj
        have := Nat.dvd_of_mul_dvd_mul_left (Nat.two_pow_pos i) hdvd
        omega
      obtain ⟨t', e, hsome, ht', hle, hlt⟩ := ih (withoutRightmostBit t) (by omega)
        (hwithout ▸ Dvd.dvd.mul_right (pow_dvd_pow 2 (Nat.succ_le_succ hji)) q) (hwithout ▸ hpos.ne')
      rw [hwithout] at hle hlt
      have hie : i + 1 ≤ e := by
        have : 2 ^ (i + 1) < 2 ^ (e + 1) := (Nat.le_mul_of_pos_right _ hq).trans_lt hlt
        exact Nat.lt_succ_iff.mp ((Nat.pow_lt_pow_iff_right Nat.one_lt_two).mp this)
      have hexpand : 2 ^ i * (2 * q + 1) = 2 ^ (i + 1) * q + 2 ^ i := by ring
      refine ⟨t', e, by rw [if_neg hpower, hsome], ht', by rw [hti, hexpand]; exact hle.trans (Nat.le_add_right _ _), ?_⟩
      -- the powers on both sides are multiples of the cleared bit
      have hnext : 2 ^ (i + 1) * (q + 1) ≤ 2 ^ (e + 1) := by
        have hsplit : 2 ^ (e + 1) = 2 ^ (i + 1) * 2 ^ (e - i) := by
          rw [← pow_add]
          congr 1
          omega
        rw [hsplit] at hlt ⊢
        exact Nat.mul_le_mul_left _ (Nat.lt_of_mul_lt_mul_left hlt)
      rw [hti, hexpand]
      have hhalf : 2 ^ i < 2 ^ (i + 1) := Nat.pow_lt_pow_right Nat.one_lt_two i.lt_succ_self
      rw [Nat.mul_add, mul_one] at hnext
      omega

theorem toNat_ones {t : BitVec 64} {e : Nat} (he : e < 64) (ht : t.toNat = 2 ^ e) : ((t <<< 1) - 1).toNat = 2 ^ (e + 1) - 1 := by
  have hall : ∀ e : Fin 64, ((1#64 <<< e.val <<< 1) - 1).toNat = 2 ^ (e.val + 1) - 1 := by decide
  obtain rfl : t = 1#64 <<< e := BitVec.eq_of_toNat_eq (ht.trans (toNat_one_shiftLeft he).symm)
  exact hall ⟨e, he⟩

/-! ### Ranges -/

namespace ValueRange

variable {r r' : ValueRange} {w : Nat}

structure Contains (r : ValueRange) (x : Nat) : Prop where
  min_le : r.min.toNat ≤ x
  le_max : x ≤ r.max.toNat

theorem Contains.isEmpty (h : r.Contains x) : r.isEmpty = false :=
  decide_eq_false (BitVec.not_lt.mpr (BitVec.le_def.mpr (h.min_le.trans h.le_max)))

theorem Contains.between (hr : r.Contains x) (hr' : r'.Contains y) : Between r.min r.max r'.min r'.max x y :=
  ⟨hr.min_le, hr.le_max, hr'.min_le, hr'.le_max⟩

theorem contains_fixed (value : BitVec 64) : (fixed value).Contains value.toNat := ⟨le_rfl, le_rfl⟩

theorem Contains.eq_of_isFixed (h : r.Contains x) (hfixed : r.isFixed = true) : x = r.min.toNat := by
  have hmax : r.min = r.max := of_decide_eq_true hfixed
  exact le_antisymm (hmax ▸ h.le_max) h.min_le

/-- The range of all numbers of the width. -/
theorem full_spec (hw : w ≤ 64) (hx : x < 2 ^ w) : ∃ r, full w = some r ∧ r.Contains x ∧ r.max.toNat < 2 ^ w := by
  have hpos := Nat.two_pow_pos w
  have hle : 2 ^ w ≤ 2 ^ 64 := Nat.pow_le_pow_right Nat.two_pos hw
  have hmax : (BitVec.ofNat 64 (maxValueOfNBits w)).toNat = 2 ^ w - 1 := by
    rw [BitVec.toNat_ofNat, maxValueOfNBits_eq hw, Nat.mod_eq_of_lt (by omega)]
  refine ⟨_, if_pos hw, ⟨Nat.zero_le _, ?_⟩, ?_⟩
  · rw [hmax]
    exact Nat.le_sub_one_of_lt hx
  · rw [hmax]
    exact Nat.sub_lt hpos Nat.one_pos

theorem contains_union_left (h : r.Contains x) : (r.set_union r').Contains x := by
  constructor <;> dsimp only [set_union] <;> split
  · exact h.min_le
  · rename_i hle
    exact (not_le.mp (BitVec.le_def.not.mp hle)).le.trans h.min_le
  · rename_i hle
    exact h.le_max.trans (BitVec.le_def.mp hle)
  · exact h.le_max

theorem union_comm_contains (h : r'.Contains x) : (r.set_union r').Contains x := by
  constructor <;> dsimp only [set_union] <;> split
  · rename_i hle
    exact (BitVec.le_def.mp hle).trans h.min_le
  · exact h.min_le
  · exact h.le_max
  · rename_i hle
    exact h.le_max.trans (not_le.mp (BitVec.le_def.not.mp hle)).le

theorem union_max_lt (h : r.max.toNat < 2 ^ w) (h' : r'.max.toNat < 2 ^ w) : (r.set_union r').max.toNat < 2 ^ w := by
  dsimp only [set_union]
  split
  exacts [h', h]

theorem mayEqual_of_contains (h : r.Contains x) (h' : r'.Contains x) : r.mayEqual r' = true := by
  have hboth : (r.set_intersection r').Contains x := by
    constructor <;> dsimp only [set_intersection] <;> split
    exacts [h'.min_le, h.min_le, h.le_max, h'.le_max]
  rw [mayEqual, intersects, hboth.isEmpty]
  rfl

theorem eq_of_mustEqual (h : r.Contains x) (h' : r'.Contains y) (hmust : r.mustEqual r' = true) : x = y := by
  obtain ⟨hfixed, hfixed', hmin⟩ := of_decide_eq_true hmust
  rw [h.eq_of_isFixed hfixed, h'.eq_of_isFixed hfixed', hmin]

/-! ### The bitwise operators -/

/-- An operator that is exact for fixed ranges. -/
theorem binary_spec {op : Option ValueRange} {value low high : BitVec 64} {z : Nat} (hx : r.Contains x) (hy : r'.Contains y)
    (hop : op = if r.isEmpty ∨ r'.isEmpty then none else if r.isFixed ∧ r'.isFixed then some (fixed value) else some ⟨low, high⟩)
    (hvalue : x = r.min.toNat → y = r'.min.toNat → value.toNat = z) (hvalueLt : value.toNat < 2 ^ w)
    (hbounds : low.toNat ≤ z ∧ z ≤ high.toNat) (hhigh : high.toNat < 2 ^ w) :
    ∃ res, op = some res ∧ res.Contains z ∧ res.max.toNat < 2 ^ w := by
  rw [hop, if_neg (by rw [hx.isEmpty, hy.isEmpty]; decide)]
  split_ifs with hfixed
  · have heq := hvalue (hx.eq_of_isFixed hfixed.1) (hy.eq_of_isFixed hfixed.2)
    exact ⟨_, rfl, heq ▸ contains_fixed value, hvalueLt⟩
  · exact ⟨_, rfl, ⟨hbounds.1, hbounds.2⟩, hhigh⟩

theorem binaryOr_spec (hx : r.Contains x) (hy : r'.Contains y) (hr : r.max.toNat < 2 ^ w) (hr' : r'.max.toNat < 2 ^ w) :
    ∃ res, r.binaryOr r' = some res ∧ res.Contains (x ||| y) ∧ res.max.toNat < 2 ^ w := by
  have hb := hx.between hy
  refine binary_spec hx hy rfl (fun heq heq' => by rw [BitVec.toNat_or, heq, heq']) ?_
    ⟨minOR_loop_le le_rfl hb (hb.beats _).1, le_maxOR_loop le_rfl hb (hb.beats _).2⟩ (maxOR_loop_lt le_rfl hr hr')
  rw [BitVec.toNat_or]
  exact Nat.or_lt_two_pow ((hx.min_le.trans hx.le_max).trans_lt hr) ((hy.min_le.trans hy.le_max).trans_lt hr')

theorem binaryAnd_spec (hx : r.Contains x) (hy : r'.Contains y) (hr : r.max.toNat < 2 ^ w) (hr' : r'.max.toNat < 2 ^ w) :
    ∃ res, r.binaryAnd r' = some res ∧ res.Contains (x &&& y) ∧ res.max.toNat < 2 ^ w := by
  have hb := hx.between hy
  refine binary_spec hx hy rfl (fun heq heq' => by rw [BitVec.toNat_and, heq, heq']) ?_
    ⟨minAND_loop_le le_rfl hb (hb.beats _).1, le_maxAND_loop le_rfl hb (hb.beats _).2⟩ (maxAND_loop_lt hr hr')
  rw [BitVec.toNat_and]
  exact Nat.and_le_left.trans_lt ((hx.min_le.trans hx.le_max).trans_lt hr)

theorem binaryXor_spec (hx : r.Contains x) (hy : r'.Contains y) (hr : r.max.toNat < 2 ^ w) (hr' : r'.max.toNat < 2 ^ w) :
    ∃ res, r.binaryXor r' = some res ∧ res.Contains (x ^^^ y) ∧ res.max.toNat < 2 ^ w := by
  rw [binaryXor]
  split_ifs with hfixed
  · refine ⟨_, rfl, ?_, ?_⟩
    · rw [hx.eq_of_isFixed hfixed.1, hy.eq_of_isFixed hfixed.2, ← BitVec.toNat_xor]
      exact contains_fixed _
    · rw [fixed, BitVec.toNat_xor]
      exact Nat.xor_lt_two_pow ((hx.min_le.trans hx.le_max).trans_lt hr) ((hy.min_le.trans hy.le_max).trans_lt hr')
  · have hle : r.max.toNat ≤ (r.max ||| r'.max).toNat ∧ r'.max.toNat ≤ (r.max ||| r'.max).toNat := by
      rw [BitVec.toNat_or]
      exact ⟨Nat.left_le_or, Nat.right_le_or⟩
    -- ranges that are not both fixed do not end at zero
    have hne : (r.max ||| r'.max).toNat ≠ 0 := fun h0 => by
      rw [h0] at hle
      have hzero : ∀ {s : ValueRange} {z}, s.Contains z → s.max.toNat ≤ 0 → s.isFixed = true := fun hs hmax =>
        decide_eq_true (BitVec.eq_of_toNat_eq (by have := hs.min_le.trans hs.le_max; omega))
      exact hfixed ⟨hzero hx hle.1, hzero hy hle.2⟩
    obtain ⟨t, e, hsome, ht, hpow, hlt⟩ := @leadingBit_spec 65 0 (r.max ||| r'.max) rfl (one_dvd _) hne
    have he : e < 64 := (Nat.pow_lt_pow_iff_right Nat.one_lt_two).mp (hpow.trans_lt (BitVec.isLt _))
    have hmax := toNat_ones he ht
    refine ⟨_, by rw [hsome]; rfl, ⟨Nat.zero_le _, ?_⟩, ?_⟩
    · rw [hmax]
      exact Nat.le_sub_one_of_lt (Nat.xor_lt_two_pow ((hx.le_max.trans hle.1).trans_lt hlt) ((hy.le_max.trans hle.2).trans_lt hlt))
    · rw [hmax]
      have hor : (r.max ||| r'.max).toNat < 2 ^ w := by
        rw [BitVec.toNat_or]
        exact Nat.or_lt_two_pow hr hr'
      have hew : e + 1 ≤ w := (Nat.pow_lt_pow_iff_right Nat.one_lt_two).mp (hpow.trans_lt hor)
      exact (Nat.sub_lt (Nat.two_pow_pos _) Nat.one_pos).trans_le (Nat.pow_le_pow_right Nat.two_pos hew)

/-- The bits of a byte are put behind the others. -/
theorem concat_spec (hw : w ≤ 56) (hx : r.Contains x) (hy : r'.Contains y) (hr : r.max.toNat < 2 ^ w) (hr' : r'.max.toNat < 2 ^ 8) :
    ∃ res, r.concat r' 8 = some res ∧ res.Contains (x * 2 ^ 8 + y) ∧ res.max.toNat < 2 ^ (w + 8) := by
  have hfit : ∀ n, n < 2 ^ w → n * 2 ^ 8 < 2 ^ (w + 8) := fun n hn => by
    rw [pow_add]
    exact Nat.mul_lt_mul_of_pos_right hn (Nat.two_pow_pos 8)
  have hwide : 2 ^ (w + 8) ≤ 2 ^ 64 := Nat.pow_le_pow_right Nat.two_pos (by omega)
  have hshift : ∀ v : BitVec 64, v.toNat < 2 ^ w → (v <<< 8).toNat = v.toNat * 2 ^ 8 := fun v hv => by
    rw [BitVec.toNat_shiftLeft, Nat.shiftLeft_eq, Nat.mod_eq_of_lt ((hfit _ hv).trans_le hwide)]
  have hmin := hshift r.min ((hx.min_le.trans hx.le_max).trans_lt hr)
  have hmax := hshift r.max hr
  have hshifted : (r.binaryShiftLeft 8).Contains (x * 2 ^ 8) :=
    ⟨hmin.symm ▸ Nat.mul_le_mul_right _ hx.min_le, hmax.symm ▸ Nat.mul_le_mul_right _ hx.le_max⟩
  have hbyte : 2 ^ 8 ≤ 2 ^ (w + 8) := Nat.pow_le_pow_right Nat.two_pos (Nat.le_add_left _ _)
  have hsum : x * 2 ^ 8 + y = x * 2 ^ 8 ||| y := by
    rw [Nat.mul_comm]
    exact Nat.two_pow_add_eq_or_of_lt (hy.le_max.trans_lt hr') x
  rw [hsum]
  exact binaryOr_spec hshifted hy (hmax.symm ▸ hfit _ hr) (hr'.trans_le hbyte)

/-! ### Signed bounds -/

variable {bits : Nat}

theorem toInt_ofNat (hx : x < 2 ^ bits) : (BitVec.ofNat bits x).toInt = if 2 * x < 2 ^ bits then (x : Int) else x - (2 ^ bits : Nat) := by
  rw [BitVec.toInt_eq_toNat_cond, BitVec.toNat_ofNat, Nat.mod_eq_of_lt hx]

theorem sext_eq {l : BitVec 64} (hbits : bits ≤ 64) (hl : l.toNat < 2 ^ bits) : sext l bits = (BitVec.ofNat bits l.toNat).toInt := by
  have hsplit : 2 ^ bits * 2 ^ (64 - bits) = 2 ^ 64 := by rw [← pow_add, Nat.add_sub_of_le hbits]
  have hpos := Nat.two_pow_pos (64 - bits)
  have hlt : l.toNat * 2 ^ (64 - bits) < 2 ^ 64 := hsplit ▸ Nat.mul_lt_mul_of_pos_right hl hpos
  have hnat : (l <<< (64 - bits)).toNat = l.toNat * 2 ^ (64 - bits) := by
    rw [BitVec.toNat_shiftLeft, Nat.shiftLeft_eq, Nat.mod_eq_of_lt hlt]
  rw [sext, BitVec.toInt_sshiftRight, BitVec.toInt_eq_toNat_cond, hnat, toInt_ofNat hl, Int.shiftRight_eq_div_pow]
  have hiff : 2 * (l.toNat * 2 ^ (64 - bits)) < 2 ^ 64 ↔ 2 * l.toNat < 2 ^ bits := by
    rw [← hsplit, ← Nat.mul_assoc]
    exact Nat.mul_lt_mul_right hpos
  have hcast : (18446744073709551616 : ℤ) = 2 ^ bits * 2 ^ (64 - bits) := by exact_mod_cast hsplit.symm
  have hne : ((2 : ℤ) ^ (64 - bits)) ≠ 0 := by positivity
  simp only [hiff]
  split_ifs
  · push_cast
    exact Int.mul_ediv_cancel _ hne
  · push_cast
    rw [hcast, ← sub_mul]
    exact Int.mul_ediv_cancel _ hne

theorem Contains.insideBits (h : r.Contains x) (hbits : bits < 64) (hr : r.max.toNat < 2 ^ bits) : r.insideBits bits = true := by
  have hzero : ∀ v : BitVec 64, v.toNat < 2 ^ bits → v >>> bits = 0 := fun v hv => BitVec.eq_of_toNat_eq (by
    rw [BitVec.toNat_ushiftRight, Nat.shiftRight_eq_div_pow, Nat.div_eq_of_lt hv]
    rfl)
  exact decide_eq_true ⟨hbits, hzero _ ((h.min_le.trans h.le_max).trans_lt hr), hzero _ hr⟩

/-- The sign bit is the half of the numbers. -/
theorem two_mul_smallest (hpos : 0 < bits) (hbits : bits < 64) : 2 * (1#64 <<< (bits - 1)).toNat = 2 ^ bits := by
  rw [toNat_one_shiftLeft ((Nat.sub_le _ _).trans_lt hbits), ← Nat.pow_succ', Nat.succ_eq_add_one, Nat.sub_add_cancel hpos]

theorem minSigned_spec (h : r.Contains x) (hpos : 0 < bits) (hbits : bits < 64) (hr : r.max.toNat < 2 ^ bits) :
    ∃ m, r.minSigned bits = some m ∧ m ≤ (BitVec.ofNat bits x).toInt := by
  have hhalf := two_mul_smallest hpos hbits
  have hlt : 2 ^ bits ≤ 2 ^ 63 := Nat.pow_le_pow_right Nat.two_pos (by omega)
  have hx := h.le_max.trans_lt hr
  have hmin := h.min_le
  have hmax := h.le_max
  refine ⟨_, if_pos (h.insideBits hbits hr), ?_⟩
  rw [toInt_ofNat hx]
  split_ifs with hsign hneg
  · rw [sext_eq hbits.le (by omega), toInt_ofNat (by omega)]
    split_ifs <;> omega
  · rw [sext_eq hbits.le (by omega), toInt_ofNat (by omega)]
    split_ifs <;> omega
  · rw [BitVec.toInt_eq_toNat_of_lt (by omega)]
    omega
  · rw [BitVec.le_def] at hsign
    omega

theorem maxSigned_spec (h : r.Contains x) (hpos : 0 < bits) (hbits : bits < 64) (hr : r.max.toNat < 2 ^ bits) :
    ∃ m, r.maxSigned bits = some m ∧ (BitVec.ofNat bits x).toInt ≤ m := by
  have hhalf := two_mul_smallest hpos hbits
  have hlt : 2 ^ bits ≤ 2 ^ 63 := Nat.pow_le_pow_right Nat.two_pos (by omega)
  have hx := h.le_max.trans_lt hr
  have hmin := h.min_le
  have hmax := h.le_max
  have hone : (1#64).toNat ≤ (1#64 <<< (bits - 1)).toNat := by
    have := Nat.two_pow_pos bits
    show 1 ≤ _
    omega
  have hpred : (1#64 <<< (bits - 1) - 1).toNat = (1#64 <<< (bits - 1)).toNat - 1 := BitVec.toNat_sub_of_le (BitVec.le_def.mpr hone)
  refine ⟨_, if_pos (h.insideBits hbits hr), ?_⟩
  rw [toInt_ofNat hx]
  split_ifs with hsign hboth hboth
  · rw [BitVec.toInt_eq_toNat_of_lt (by omega), hpred]
    omega
  · rw [sext_eq hbits.le hr, toInt_ofNat hr]
    rw [BitVec.lt_def, BitVec.le_def] at hboth
    split_ifs <;> omega
  · rw [BitVec.toInt_eq_toNat_of_lt (by omega), hpred]
    omega
  · rw [sext_eq hbits.le hr, toInt_ofNat hr]
    rw [BitVec.lt_def, BitVec.le_def] at hboth
    split_ifs <;> omega

end ValueRange

end CapTaint.Klee
