import Mathlib
import CapTaint.Lib.MagicDivision
import CapTaint.Klee.ConstantDivision

/-! # Constants for divisions and multiplications

The logarithm and the power are exact, a multiplicand is the difference of two constants without common bits, and the
constants of a division are those of a magic number. -/

namespace CapTaint.Klee

namespace Bits

variable {w : Nat} {x y : BitVec w} {i j k n low high : Nat}

/-- `low` is the lowest bit that is set. -/
structure IsLowest (x : BitVec w) (low : Nat) : Prop where
  set : x.getLsbD low = true
  clear : ∀ j < low, x.getLsbD j = false

theorem exists_isLowest (h : x ≠ 0) : ∃ low, low < w ∧ IsLowest x low := by
  have hex : ∃ i, x.getLsbD i = true := by
    by_contra hnone
    refine h (BitVec.eq_of_getLsbD_eq fun i _ => ?_)
    rw [not_exists] at hnone
    simpa using hnone i
  refine ⟨Nat.find hex, ?_, Nat.find_spec hex, fun j hj => by simpa using Nat.find_min hex hj⟩
  by_contra hge
  have hset := Nat.find_spec hex
  rw [BitVec.getLsbD_of_ge _ _ (not_lt.mp hge)] at hset
  cases hset

theorem getLsbD_one_shiftLeft (hn : n < w) : ((1#w) <<< n).getLsbD i = decide (i = n) := by
  rw [BitVec.getLsbD_shiftLeft, BitVec.getLsbD_one]
  by_cases hi : i = n
  · subst hi
    simp [hn, Nat.zero_lt_of_lt hn]
  · by_cases hlt : i < n
    · simp [hlt, hi]
    · have : ¬i - n = 0 := by omega
      simp [this, hi]

theorem IsLowest.isolate (h : IsLowest x low) (hlow : low < w) : isolateRightmostBit x = (1#w) <<< low := by
  refine BitVec.eq_of_getLsbD_eq fun i hi => ?_
  rw [isolateRightmostBit, BitVec.getLsbD_and, BitVec.getLsbD_neg, getLsbD_one_shiftLeft hlow]
  rcases Nat.lt_trichotomy i low with hlt | rfl | hgt
  · simp [h.clear i hlt, hlt.ne]
  · have hnone : ¬∃ j < i, x.getLsbD j = true := fun ⟨j, hj, hset⟩ => by simp [h.clear j hj] at hset
    simp [h.set, hnone]
  · have hsome : ∃ j < i, x.getLsbD j = true := ⟨low, hgt, h.set⟩
    simp [hsome, hi, hgt.ne']

theorem indexOfSingleBit_shiftLeft : ∀ i < 64, indexOfSingleBit (1#64 <<< i) = i := by decide +kernel

theorem IsLowest.index {x : BitVec 64} (h : IsLowest x low) (hlow : low < 64) : indexOfRightmostBit x = low := by
  rw [indexOfRightmostBit, h.isolate hlow, indexOfSingleBit_shiftLeft low hlow]

theorem getLsbD_truncateToNBits (x : BitVec 64) {n : Nat} (hn : n ≤ 64) (i : Nat) :
    (truncateToNBits x n).getLsbD i = (decide (i < n) && x.getLsbD i) := by
  have hmask : decide (64 - n + i < 64) = decide (i < n) := decide_eq_decide.mpr (by omega)
  rw [truncateToNBits, BitVec.getLsbD_and, BitVec.getLsbD_ushiftRight, BitVec.getLsbD_allOnes, hmask, Bool.and_comm]

theorem toNat_truncateToNBits (x : BitVec 64) {n : Nat} (hn : n ≤ 64) : (truncateToNBits x n).toNat = x.toNat % 2 ^ n := by
  refine Nat.eq_of_testBit_eq fun i => ?_
  rw [Nat.testBit_mod_two_pow, BitVec.testBit_toNat, BitVec.testBit_toNat, getLsbD_truncateToNBits x hn]

/-- All bits below `k` are clear. -/
def Above (k : Nat) (x : BitVec w) : Prop := ∀ i < k, x.getLsbD i = false

/-- All bits from `k` on are clear. -/
def Below (k : Nat) (x : BitVec w) : Prop := ∀ i, k ≤ i → x.getLsbD i = false

theorem Above.toNat_mod (h : Above k x) : x.toNat % 2 ^ k = 0 := by
  refine Nat.eq_of_testBit_eq fun i => ?_
  rw [Nat.testBit_mod_two_pow, Nat.zero_testBit]
  by_cases hi : i < k
  · simp [hi, show x.toNat.testBit i = false from h i hi]
  · simp [hi]

theorem above_of_toNat_mod (h : x.toNat % 2 ^ k = 0) : Above k x := fun i hi => by
  have hbit := congrArg (Nat.testBit · i) h
  simpa [Nat.testBit_mod_two_pow, hi, BitVec.getLsbD] using hbit

/-- Two numbers without common bits are added bit by bit. -/
theorem add_shiftLeft (hx : x.getLsbD n = false) (hn : n < w) : x ||| ((1#w) <<< n) = x + (1#w) <<< n := by
  refine (BitVec.add_eq_or_of_and_eq_zero x _ (BitVec.eq_of_getLsbD_eq fun i _ => ?_)).symm
  rw [BitVec.getLsbD_and, getLsbD_one_shiftLeft hn]
  by_cases hi : i = n
  · simp [hi, hx]
  · simp [hi]

theorem xor_shiftLeft (hx : x.getLsbD n = true) (hn : n < w) : x ^^^ ((1#w) <<< n) = x - (1#w) <<< n := by
  have hclear : (x ^^^ ((1#w) <<< n)).getLsbD n = false := by
    rw [BitVec.getLsbD_xor, getLsbD_one_shiftLeft hn, hx]
    simp
  rw [BitVec.eq_sub_iff_add_eq, ← add_shiftLeft hclear hn]
  refine BitVec.eq_of_getLsbD_eq fun i _ => ?_
  rw [BitVec.getLsbD_or, BitVec.getLsbD_xor, getLsbD_one_shiftLeft hn]
  by_cases hi : i = n
  · simp [hi, hx]
  · simp [hi]

theorem xor_shiftLeft_clear (hx : x.getLsbD n = false) (hn : n < w) : x ^^^ ((1#w) <<< n) = x + (1#w) <<< n := by
  rw [← add_shiftLeft hx hn]
  refine BitVec.eq_of_getLsbD_eq fun i _ => ?_
  rw [BitVec.getLsbD_or, BitVec.getLsbD_xor, getLsbD_one_shiftLeft hn]
  by_cases hi : i = n
  · simp [hi, hx]
  · simp [hi]

theorem one_shiftLeft_succ (n : Nat) : (1#w) <<< (n + 1) = (1#w) <<< n + (1#w) <<< n := by
  refine BitVec.eq_of_toNat_eq ?_
  simp only [BitVec.toNat_add, BitVec.toNat_shiftLeft, Nat.shiftLeft_eq]
  rw [← Nat.add_mod, pow_succ]
  congr 1
  ring

theorem one_shiftLeft_pred {n : Nat} (hn : n ≠ 0) (hlt : n < w) : ((1#w) <<< n) >>> 1 = (1#w) <<< (n - 1) := by
  refine BitVec.eq_of_getLsbD_eq fun i _ => ?_
  rw [BitVec.getLsbD_ushiftRight, getLsbD_one_shiftLeft hlt, getLsbD_one_shiftLeft (by omega), decide_eq_decide]
  omega

theorem and_shiftLeft_ne_zero {n : Nat} (hn : n < w) : x &&& ((1#w) <<< n) ≠ 0 ↔ x.getLsbD n = true := by
  constructor
  · intro h
    by_contra hclear
    refine h (BitVec.eq_of_getLsbD_eq fun i _ => ?_)
    rw [BitVec.getLsbD_and, getLsbD_one_shiftLeft hn]
    by_cases hi : i = n
    · have hclear' := Bool.eq_false_iff.mpr hclear
      simp [hi, hclear']
    · simp [hi]
  · intro hset hzero
    have hbit := congrArg (BitVec.getLsbD · n) hzero
    simp [getLsbD_one_shiftLeft hn, hset] at hbit

end Bits

namespace ConstantDivision
open Bits

variable {c : MultConstants} {low high k : Nat} {x : BitVec 64}

/-- No bit is added and subtracted. -/
def MultConstants.Disjoint (c : MultConstants) : Prop := ∀ i, c.add.getLsbD i = true → c.sub.getLsbD i = false

/-- What the regions below bit `k` have left. -/
structure MultConstants.Fits (c : MultConstants) (k : Nat) : Prop where
  add : Below k c.add
  sub : Below k c.sub
  disjoint : c.Disjoint

theorem MultConstants.Fits.clear (hc : c.Fits k) {i : Nat} (hi : k ≤ i) : c.add.getLsbD i = false ∧ c.sub.getLsbD i = false :=
  ⟨hc.add i hi, hc.sub i hi⟩

/-- The bit below `high` stands for the upper end of a region, unless it does not fit. -/
theorem MultConstants.Fits.addHigh {c : MultConstants} {low high : Nat} (hc : c.Fits (low + 1)) (hlow : low < high) (hhigh : high < 64) :
    (MultConstants.mk (c.add ||| (1#64 <<< high)) c.sub).Fits (high + 1) ∧ c.add ||| (1#64 <<< high) = c.add + 1#64 <<< high := by
  refine ⟨⟨fun i hi => ?_, fun i hi => hc.sub i (by omega), fun i hi => ?_⟩, add_shiftLeft (hc.add high hlow) hhigh⟩
  · simp [getLsbD_one_shiftLeft hhigh, hc.add i (by omega), show i ≠ high by omega]
  · rw [BitVec.getLsbD_or, getLsbD_one_shiftLeft hhigh] at hi
    by_cases hi' : i = high
    · exact hc.sub i (by omega)
    · exact hc.disjoint i (by simpa [hi'] using hi)

theorem MultConstants.Fits.subLow (hc : c.Fits k) (hk : k ≤ low) (hlow : low < 64) :
    (c.subLow low).Fits (low + 1) ∧ (c.subLow low).add - (c.subLow low).sub = c.add - c.sub - 1#64 <<< low := by
  unfold MultConstants.subLow
  split
  case isTrue h =>
    obtain ⟨hne, hand⟩ := h
    rw [one_shiftLeft_pred hne hlow] at hand ⊢
    have hset : c.add.getLsbD (low - 1) = true := (and_shiftLeft_ne_zero (by omega)).mp hand
    have hclear := hc.disjoint _ hset
    refine ⟨⟨fun i hi => ?_, fun i hi => ?_, fun i hi => ?_⟩, ?_⟩
    · simp [getLsbD_one_shiftLeft (show low - 1 < 64 by omega), hc.add i (by omega), show i ≠ low - 1 by omega]
    · simp [getLsbD_one_shiftLeft (show low - 1 < 64 by omega), hc.sub i (by omega), show i ≠ low - 1 by omega]
    · rw [BitVec.getLsbD_xor, getLsbD_one_shiftLeft (by omega)] at hi ⊢
      by_cases hi' : i = low - 1
      · simp [hi', hset] at hi
      · simp only [hi', decide_false, Bool.xor_false] at hi ⊢
        exact hc.disjoint i hi
    · have hdouble : 1#64 <<< low = 1#64 <<< (low - 1) + 1#64 <<< (low - 1) := by
        rw [← one_shiftLeft_succ, Nat.sub_add_cancel (Nat.pos_of_ne_zero hne)]
      rw [xor_shiftLeft hset (by omega), xor_shiftLeft_clear hclear (by omega), hdouble]
      ring
  case isFalse h =>
    have hclear := (hc.clear hk).2
    refine ⟨⟨fun i hi => hc.add i (by omega), fun i hi => ?_, fun i hi => ?_⟩, ?_⟩
    · simp [getLsbD_one_shiftLeft hlow, hc.sub i (by omega), show i ≠ low by omega]
    · have hne : i ≠ low := by
        rintro rfl
        rw [(hc.clear hk).1] at hi
        cases hi
      simp [getLsbD_one_shiftLeft hlow, hc.disjoint i hi, hne]
    · rw [add_shiftLeft hclear hlow]
      ring

theorem MultConstants.Fits.region (hc : c.Fits k) (hk : k ≤ low) (hlow : low < high) (hhigh : high ≤ 64) :
    (c.region low high).Fits (high + 1) ∧
      (c.region low high).add - (c.region low high).sub = c.add - c.sub + (1#64 <<< high - 1#64 <<< low) := by
  have hlt : low < 64 := by omega
  unfold MultConstants.region
  dsimp only
  split
  case isTrue hone =>
    refine ⟨⟨fun i hi => ?_, fun i hi => hc.sub i (by omega), fun i hi => ?_⟩, ?_⟩
    · simp [getLsbD_one_shiftLeft hlt, hc.add i (by omega), show i ≠ low by omega]
    · rw [BitVec.getLsbD_or, getLsbD_one_shiftLeft hlt] at hi
      by_cases hi' : i = low
      · exact hc.sub i (by omega)
      · exact hc.disjoint i (by simpa [hi'] using hi)
    · rw [add_shiftLeft (hc.clear hk).1 hlt, hone, one_shiftLeft_succ]
      ring
  case isFalse =>
    obtain ⟨hfits, hvalue⟩ := hc.subLow hk hlt
    split
    case isTrue hne =>
      obtain ⟨hfits', hadd⟩ := hfits.addHigh hlow (by omega)
      refine ⟨hfits', ?_⟩
      calc ((c.subLow low).add ||| 1#64 <<< high) - (c.subLow low).sub
          = (c.subLow low).add - (c.subLow low).sub + 1#64 <<< high := by rw [hadd]; ring
        _ = c.add - c.sub + (1#64 <<< high - 1#64 <<< low) := by rw [hvalue]; ring
    case isFalse heq =>
      obtain rfl : high = 64 := not_not.mp heq
      refine ⟨⟨fun i hi => hfits.add i (by omega), fun i hi => hfits.sub i (by omega), hfits.disjoint⟩, ?_⟩
      rw [hvalue, show 1#64 <<< 64 = (0 : BitVec 64) from rfl]
      ring

/-- The multiplicand is what is left of it and what has been collected. -/
structure Multiplies (multiplicand x : BitVec 64) (c : MultConstants) (k : Nat) : Prop where
  value : multiplicand = x + (c.add - c.sub)
  above : Above k x
  fits : c.Fits k

/-- The sum with the lowest bit carries through the lowest region. -/
theorem carry_above (h : IsLowest x low) (hlow : low < 64) : Above (low + 1) (x + 1#64 <<< low) := by
  have hzero : x.toNat % 2 ^ low = 0 := Above.toNat_mod h.clear
  have hbit : x.toNat.testBit low = true := h.set
  have hmod : x.toNat % 2 ^ (low + 1) = 2 ^ low := by
    rw [Nat.mod_pow_succ, ← Nat.toNat_testBit, hzero, hbit, Bool.toNat_true, mul_one, Nat.zero_add]
  refine above_of_toNat_mod ?_
  have hdvd : 2 ^ (low + 1) ∣ 2 ^ 64 := pow_dvd_pow 2 (by omega)
  rw [BitVec.toNat_add, Nat.mod_mod_of_dvd _ hdvd, BitVec.toNat_shiftLeft, Nat.shiftLeft_eq, BitVec.toNat_one (by decide), one_mul,
    Nat.mod_eq_of_lt (Nat.pow_lt_pow_right Nat.one_lt_two hlow), Nat.add_mod, hmod,
    Nat.mod_eq_of_lt (Nat.pow_lt_pow_right Nat.one_lt_two (Nat.lt_succ_self low)), pow_succ, mul_two, Nat.mod_self]

/-- What a round leaves of the multiplicand, and where it goes on. -/
def nextHigh (p : BitVec 64) : Nat :=
  if isolateRightmostBit p ≠ 0 then indexOfSingleBit (isolateRightmostBit p) else 64

theorem nextHigh_spec {p : BitVec 64} (h : Above (low + 1) p) (hlow : low < 64) :
    low < nextHigh p ∧ nextHigh p ≤ 64 ∧ p ^^^ isolateRightmostBit p = p - 1#64 <<< nextHigh p ∧
      Above (nextHigh p + 1) (p ^^^ isolateRightmostBit p) := by
  by_cases hzero : p = 0
  · subst hzero
    have hisolate : isolateRightmostBit (0 : BitVec 64) = 0 := rfl
    have hnext : nextHigh (0 : BitVec 64) = 64 := rfl
    rw [hnext, hisolate]
    exact ⟨hlow, le_rfl, rfl, fun i _ => by simp⟩
  obtain ⟨high, hhigh, hlowest⟩ := exists_isLowest hzero
  have hisolate := hlowest.isolate hhigh
  have hne : (1#64) <<< high ≠ 0 := fun hzero => by
    have hbit := congrArg (BitVec.getLsbD · high) hzero
    simp [getLsbD_one_shiftLeft hhigh] at hbit
  have hnext : nextHigh p = high := by
    rw [nextHigh, hisolate, if_pos hne, indexOfSingleBit_shiftLeft high hhigh]
  have hlt : low < high := by
    by_contra hge
    have hclear := h high (by omega)
    rw [hlowest.set] at hclear
    cases hclear
  rw [hnext, hisolate]
  refine ⟨hlt, hhigh.le, xor_shiftLeft hlowest.set hhigh, fun i hi => ?_⟩
  rw [BitVec.getLsbD_xor, getLsbD_one_shiftLeft hhigh]
  by_cases hi' : i = high
  · simp [hi', hlowest.set]
  · simp [hi', hlowest.clear i (by omega)]

/-- A round of the loop. -/
theorem Multiplies.round {multiplicand : BitVec 64} (h : Multiplies multiplicand x c k) (hx : x ≠ 0) :
    ∃ x' c' k', k + 2 ≤ k' ∧ Multiplies multiplicand x' c' k' ∧ ∀ fuel, multLoop (fuel + 1) x c = multLoop fuel x' c' := by
  obtain ⟨low, hlow, hlowest⟩ := exists_isLowest hx
  have hk : k ≤ low := by
    by_contra hge
    have hclear := h.above low (by omega)
    rw [hlowest.set] at hclear
    cases hclear
  obtain ⟨hlt, hle, hvalue, habove⟩ := nextHigh_spec (carry_above hlowest hlow) hlow
  obtain ⟨hfits, hregion⟩ := h.fits.region hk hlt hle
  refine ⟨_, _, nextHigh (x + 1#64 <<< low) + 1, by omega, ⟨?_, habove, hfits⟩, fun fuel => ?_⟩
  · rw [hvalue, hregion, h.value]
    ring
  · rw [multLoop, if_neg hx, hlowest.index hlow]
    rfl

theorem multLoop_spec {multiplicand : BitVec 64} (fuel : Nat) (h : Multiplies multiplicand x c k) (hfuel : 64 ≤ k + 2 * fuel) :
    ∃ c', multLoop fuel x c = some c' ∧ multiplicand = c'.add - c'.sub ∧ c'.Disjoint := by
  have hdone : x = 0 → multiplicand = c.add - c.sub := fun hx => by
    rw [h.value, hx]
    exact BitVec.zero_add _
  induction fuel generalizing x c k with
  | zero =>
    have hx : x = 0 := BitVec.eq_of_getLsbD_eq fun i hi => (h.above i (by omega)).trans (BitVec.getLsbD_zero).symm
    exact ⟨c, if_pos hx, hdone hx, h.fits.disjoint⟩
  | succ fuel ih =>
    by_cases hx : x = 0
    · exact ⟨c, by rw [multLoop, if_pos hx], hdone hx, h.fits.disjoint⟩
    · obtain ⟨x', c', k', hk', h', hround⟩ := h.round hx
      rw [hround]
      refine ih h' (by omega) fun hx' => ?_
      rw [h'.value, hx']
      exact BitVec.zero_add _

/-- The multiplicand is the difference of the constants, which have no common bits. -/
theorem computeMultConstants64_spec (multiplicand : BitVec 64) :
    ∃ c, computeMultConstants64 multiplicand = some c ∧ multiplicand = c.add - c.sub ∧ c.Disjoint := by
  have hstart : Multiplies multiplicand multiplicand ⟨0, 0⟩ 0 := by
    refine ⟨?_, fun i hi => absurd hi (Nat.not_lt_zero i), ⟨fun i _ => by simp, fun i _ => by simp, fun i _ => by simp⟩⟩
    rw [BitVec.sub_self, BitVec.add_zero]
  obtain ⟨c, hloop, hvalue, hdisjoint⟩ := multLoop_spec 32 hstart (by decide)
  refine ⟨c, ?_, hvalue, hdisjoint⟩
  rw [computeMultConstants64, hloop]
  exact if_pos hvalue

/-! ### Logarithms and powers -/

/-- After the assignment each bit tells about twice as many bits of the number. -/
theorem smear_bits {y x : BitVec 32} {n : Nat} (h : ∀ i, y.getLsbD i = true ↔ ∃ j < n, x.getLsbD (i + j) = true) (i : Nat) :
    (smear n y).getLsbD i = true ↔ ∃ j < n + n, x.getLsbD (i + j) = true := by
  rw [smear, BitVec.getLsbD_or, BitVec.getLsbD_ushiftRight, Bool.or_eq_true, h, h]
  constructor
  · rintro (⟨j, hj, hset⟩ | ⟨j, hj, hset⟩)
    · exact ⟨j, by omega, hset⟩
    · exact ⟨n + j, by omega, by rwa [← Nat.add_assoc, Nat.add_comm i n]⟩
  · rintro ⟨j, hj, hset⟩
    by_cases hlt : j < n
    · exact .inl ⟨j, hlt, hset⟩
    · exact .inr ⟨j - n, by omega, by rwa [show n + i + (j - n) = i + j by omega]⟩

/-- All bits up to the highest one are set. -/
theorem smear_all (x : BitVec 32) :
    smear 16 (smear 8 (smear 4 (smear 2 (smear 1 x)))) = BitVec.ofNat 32 (2 ^ Nat.size x.toNat - 1) := by
  have hstart : ∀ i, x.getLsbD i = true ↔ ∃ j < 1, x.getLsbD (i + j) = true := fun i => by simp
  have hall := smear_bits (smear_bits (smear_bits (smear_bits (smear_bits hstart))))
  refine BitVec.eq_of_getLsbD_eq fun i hi => ?_
  rw [Bool.eq_iff_iff, hall, BitVec.getLsbD_ofNat, Nat.testBit_two_pow_sub_one]
  simp only [hi, decide_true, Bool.true_and, decide_eq_true_eq]
  rw [Nat.lt_size]
  constructor
  · rintro ⟨j, -, hset⟩
    exact (Nat.pow_le_pow_right Nat.two_pos (Nat.le_add_right i j)).trans (Nat.ge_two_pow_of_testBit hset)
  · intro hle
    have hpos : x.toNat ≠ 0 := (Nat.two_pow_pos i).trans_le hle |>.ne'
    have hlog : i ≤ x.toNat.log2 := (Nat.le_log2 hpos).mpr hle
    have hlt : x.toNat.log2 < 32 := (Nat.log2_lt hpos).mpr x.isLt
    exact ⟨x.toNat.log2 - i, by omega, by
      rw [Nat.add_sub_cancel' hlog]
      exact Nat.testBit_log2 hpos⟩

theorem ones_spec : ∀ k < 33, (ones (BitVec.ofNat 32 (2 ^ k - 1))).toNat = k := by decide +kernel

theorem expBase2_spec : ∀ k < 33, (expBase2 (BitVec.ofNat 32 k)).toNat = 2 ^ k % 2 ^ 32 := by decide +kernel

/-- The logarithm, rounded up. -/
theorem log2Ceil_spec {d : BitVec 32} (hd : d ≠ 0) :
    ∃ l < 33, log2Ceil d = BitVec.ofNat 32 l ∧ d.toNat ≤ 2 ^ l ∧ 2 ^ l < 2 * d.toNat := by
  have hpos : 0 < d.toNat := Nat.pos_of_ne_zero fun h => hd (BitVec.eq_of_toNat_eq h)
  have hpred : (d - 1#32).toNat = d.toNat - 1 := by
    rw [BitVec.toNat_sub_of_le (by rwa [BitVec.le_def])]
    rfl
  have hlt := d.isLt
  have hsize : Nat.size (d.toNat - 1) < 33 := Nat.lt_succ_of_le (Nat.size_le.mpr (by omega))
  refine ⟨Nat.size (d.toNat - 1), hsize, ?_, ?_, ?_⟩
  · have hones : ones (BitVec.ofNat 32 (2 ^ Nat.size (d.toNat - 1) - 1)) = BitVec.ofNat 32 (Nat.size (d.toNat - 1)) := by
      refine BitVec.eq_of_toNat_eq ?_
      rw [ones_spec _ hsize, BitVec.toNat_ofNat, Nat.mod_eq_of_lt (by omega)]
    rw [log2Ceil, ldz, smear_all, hpred, hones, sub_sub_cancel]
  · have := Nat.size_le.mp (le_refl (Nat.size (d.toNat - 1)))
    omega
  · by_cases hone : d.toNat = 1
    · rw [hone]
      decide
    · obtain ⟨k, hk⟩ := Nat.exists_eq_succ_of_ne_zero (show Nat.size (d.toNat - 1) ≠ 0 from
        (Nat.size_pos.mpr (by omega)).ne')
      have hle := Nat.lt_size.mp (hk ▸ Nat.lt_succ_self k : k < Nat.size (d.toNat - 1))
      rw [hk, pow_succ]
      omega

/-! ### Constants of the unsigned division -/

theorem sh1_spec : ∀ l < 33, (if (BitVec.ofNat 32 l).slt 1#32 then BitVec.ofNat 32 l else 1#32).toNat = min l 1 := by
  decide +kernel

theorem sh2_spec : ∀ l < 33,
    (if (BitVec.ofNat 32 l - 1#32).slt 0#32 then 0#32 else BitVec.ofNat 32 l - 1#32).toNat = l - 1 := by
  decide +kernel

/-- The difference between the divisor and the power of two above it. -/
theorem mid_toNat {d : BitVec 32} {l : Nat} (hd : d ≠ 0) (hl : l < 33) (hle : d.toNat ≤ 2 ^ l) :
    (expBase2 (BitVec.ofNat 32 l) - d).toNat = 2 ^ l - d.toNat := by
  have hpos : 0 < d.toNat := Nat.pos_of_ne_zero fun h => hd (BitVec.eq_of_toNat_eq h)
  have hlt := d.isLt
  rw [BitVec.toNat_sub, expBase2_spec l hl]
  rcases (Nat.lt_succ_iff.mp hl).eq_or_lt with rfl | hl'
  · rw [Nat.mod_self, Nat.add_zero, Nat.mod_eq_of_lt (by omega)]
  · have hpow : 2 ^ l < 2 ^ 32 := Nat.pow_lt_pow_right Nat.one_lt_two hl'
    rw [Nat.mod_eq_of_lt hpow, show 2 ^ 32 - d.toNat + 2 ^ l = 2 ^ l - d.toNat + 2 ^ 32 by omega, Nat.add_mod_right,
      Nat.mod_eq_of_lt (by omega)]

/-- The quotient of the multiplier, computed with 64 bits. -/
theorem multiplier_toNat {a d : BitVec 64} (ha : a.toNat < 2 ^ 32) :
    ((1#64 <<< 32) * a / d + 1#64).toNat = (2 ^ 32 * a.toNat / d.toNat + 1) % 2 ^ 64 := by
  have hshift : (1#64 <<< 32).toNat = 2 ^ 32 := by decide
  rw [BitVec.toNat_add, BitVec.toNat_udiv, BitVec.toNat_mul, hshift,
    Nat.mod_eq_of_lt (show 2 ^ 32 * a.toNat < 2 ^ 64 by omega)]
  rfl

/-- The multiplier of the unsigned division is a magic number without its highest bit. -/
theorem computeUDivConstants32_spec {d : BitVec 32} (hd : d ≠ 0) :
    ∃ l c, computeUDivConstants32 d = some c ∧ MagicDivision.Magic 32 l d.toNat (2 ^ 32 + c.mprime.toNat) ∧
      c.sh1.toNat = min l 1 ∧ c.sh2.toNat = l - 1 := by
  obtain ⟨l, hl, hlog, hle, hlt⟩ := log2Ceil_spec hd
  have hpos : 0 < d.toNat := Nat.pos_of_ne_zero fun h => hd (BitVec.eq_of_toNat_eq h)
  have hd32 := d.isLt
  have hmid := mid_toNat hd hl hle
  refine ⟨l, _, if_neg hd, ?_, ?_, ?_⟩
  · have hquotient : 2 ^ 32 * (2 ^ l - d.toNat) / d.toNat < 2 ^ 32 - 1 := by
      rw [Nat.div_lt_iff_lt_mul hpos]
      have : 2 ^ 32 * (2 ^ l - d.toNat) ≤ 2 ^ 32 * (d.toNat - 1) := Nat.mul_le_mul_left _ (by omega)
      omega
    have hmprime : (((1#64 <<< 32) * (expBase2 (log2Ceil d) - d).setWidth 64 / d.setWidth 64 + 1#64).setWidth 32).toNat =
        2 ^ 32 * (2 ^ l - d.toNat) / d.toNat + 1 := by
      rw [BitVec.toNat_setWidth, multiplier_toNat (by rw [BitVec.toNat_setWidth, hlog, hmid]; omega), BitVec.toNat_setWidth,
        BitVec.toNat_setWidth, hlog, hmid, Nat.mod_eq_of_lt (show 2 ^ l - d.toNat < 2 ^ 64 by omega),
        Nat.mod_eq_of_lt (show d.toNat < 2 ^ 64 by omega)]
      have hsmall : 2 ^ 32 * (2 ^ l - d.toNat) / d.toNat + 1 < 2 ^ 32 := Nat.add_lt_of_lt_sub hquotient
      rw [Nat.mod_eq_of_lt (hsmall.trans (by norm_num)), Nat.mod_eq_of_lt hsmall]
    have hsum : 2 ^ 32 + (2 ^ 32 * (2 ^ l - d.toNat) / d.toNat + 1) = 2 ^ (32 + l) / d.toNat + 1 := by
      have hsplit : 2 ^ (32 + l) = 2 ^ 32 * (2 ^ l - d.toNat) + 2 ^ 32 * d.toNat := by
        rw [← Nat.mul_add, Nat.sub_add_cancel hle, pow_add]
      rw [hsplit, Nat.add_mul_div_right _ _ hpos]
      omega
    rw [hmprime, hsum]
    exact MagicDivision.magic_div hpos hle
  · rw [hlog]
    exact sh1_spec l hl
  · rw [hlog]
    exact sh2_spec l hl

end ConstantDivision
end CapTaint.Klee
