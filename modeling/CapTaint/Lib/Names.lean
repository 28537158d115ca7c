import Mathlib

/-! Names that are put together from parts with a separator, and when the parts can be read back: the separator
    has to be missing on one side of its place. -/

namespace CapTaint.Names

theorem isDigit_of_mem_toString {n : Nat} {c : Char} (h : c ∈ (toString n).toList) : c.isDigit = true := by
  refine Nat.isDigit_of_mem_toDigits (by decide) (by decide) (n := n) (b := 10) ?_
  simpa [toString, Nat.repr] using h

/-- A separator that no digit is does not occur in a number. -/
theorem notMem_toString {n : Nat} {d : Char} (hd : d.isDigit = false) : d ∉ (toString n).toList := by
  intro h
  rw [isDigit_of_mem_toString h] at hd
  cases hd

/-- The last separator splits a name in one way. -/
theorem append_cons_cancel_last {d : Char} {x x' a a' : List Char} (ha : d ∉ a) (ha' : d ∉ a')
    (h : x ++ d :: a = x' ++ d :: a') : x = x' ∧ a = a' := by
  rcases List.append_eq_append_iff.mp h with ⟨c, rfl, hc⟩ | ⟨c, rfl, hc⟩
  · cases c with
    | nil => exact ⟨by simp, by simpa using hc⟩
    | cons e c =>
      obtain ⟨-, rfl⟩ := List.cons.inj hc
      exact absurd (by simp) ha
  · cases c with
    | nil => exact ⟨by simp, by simpa using hc.symm⟩
    | cons e c =>
      obtain ⟨-, rfl⟩ := List.cons.inj hc
      exact absurd (by simp) ha'

/-- What has no character of `s` at its end stops before `s`. -/
theorem prefix_of_prefix_append {l a s : List Char} (hs : ∀ c ∈ s.head?, c ∉ l) (h : l <+: a ++ s) : l <+: a := by
  rcases List.prefix_or_prefix_of_prefix h (List.prefix_append a s) with h | ⟨r, rfl⟩
  · exact h
  · cases r with
    | nil => simp
    | cons c r =>
      obtain ⟨t, rfl⟩ := (List.prefix_append_right_inj a).mp h
      exact absurd (by simp) (hs c (by simp))

/-- A number whose digits start another one is not above it. -/
theorem le_of_toString_prefix {x y : Nat} (h : (toString x).toList <+: (toString y).toList) : x ≤ y := by
  have hdigits : ∀ n : Nat, (toString n).toList = Nat.toDigits 10 n := fun n => Nat.toList_repr
  rw [hdigits, hdigits] at h
  rcases h.length_le.eq_or_lt with heq | hlt
  · have hsame : Nat.toDigits 10 x = Nat.toDigits 10 y := h.eq_of_length heq
    rw [← hdigits, ← hdigits] at hsame
    exact (Nat.repr_injective (String.toList_inj.mp hsame)).le
  · have hpos : 0 < (Nat.toDigits 10 x).length := Nat.length_toDigits_pos
    have hx : x < 10 ^ (Nat.toDigits 10 x).length := (Nat.length_toDigits_le_iff (by decide) hpos).mp le_rfl
    have hy : ¬y < 10 ^ (Nat.toDigits 10 x).length := fun hy =>
      absurd ((Nat.length_toDigits_le_iff (by decide) hpos).mpr hy) (by omega)
    omega

end CapTaint.Names
