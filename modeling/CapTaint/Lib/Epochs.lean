import Mathlib.Data.Nat.Notation
import Mathlib.Logic.Function.Basic
import Mathlib.Order.Lattice
import Mathlib.Order.Nat

/-! # Ownership by epochs

Holders share objects. Each holder has an epoch, each object the epoch in which a holder has got it for itself. A holder
that is copied starts a new epoch, and so does its copy: what they share has an owner of an earlier epoch. -/

namespace CapTaint

/-- The epochs of holders, the owners of objects, and who holds what. -/
structure Epochs (S O : Type) where
  epoch : S → ℕ
  owner : O → ℕ
  holds : S → O → Prop

namespace Epochs

variable {S O : Type} {e : Epochs S O} {s t : S} {o : O}

/-- No epoch has owner 0, a holder's objects are of its epoch or an earlier one, and of an earlier one if it shares
    them. -/
structure Invariant (e : Epochs S O) : Prop where
  pos : ∀ s o, e.holds s o → 0 < e.owner o
  le : ∀ s o, e.holds s o → e.owner o ≤ e.epoch s
  shared : ∀ s t o, s ≠ t → e.holds s o → e.holds t o → e.owner o < e.epoch s

/-- An object that is owned in the holder's epoch is held by no other. -/
theorem Invariant.exclusive (h : e.Invariant) (hs : e.holds s o) (howner : e.owner o = e.epoch s) (hne : t ≠ s) :
    ¬e.holds t o := fun ht => (h.shared s t o hne.symm hs ht).ne howner

/-- An object without an owner is held by none. -/
theorem Invariant.free (h : e.Invariant) (howner : e.owner o = 0) : ¬e.holds s o := fun hs => (h.pos s o hs).ne' howner

/-- A holder gets an object that no other holds. -/
theorem Invariant.claim (h : e.Invariant) {e' : Epochs S O} (hpos : 0 < e.epoch s) (hepoch : e'.epoch = e.epoch)
    (howner : ∀ p, p ≠ o → e'.owner p = e.owner p) (hown : e'.owner o = e.epoch s)
    (hholds : ∀ t p, p ≠ o → e'.holds t p → e.holds t p) (honly : ∀ t, e'.holds t o → t = s) : e'.Invariant where
  pos t p ht := by
    by_cases hp : p = o
    · rw [hp, hown]
      exact hpos
    · rw [howner p hp]
      exact h.pos t p (hholds t p hp ht)
  le t p ht := by
    by_cases hp : p = o
    · subst hp
      rw [hown, hepoch, honly t ht]
    · rw [howner p hp, hepoch]
      exact h.le t p (hholds t p hp ht)
  shared t u p hne ht hu := by
    by_cases hp : p = o
    · subst hp
      exact absurd ((honly t ht).trans (honly u hu).symm) hne
    · rw [howner p hp, hepoch]
      exact h.shared t u p hne (hholds t p hp ht) (hholds u p hp hu)

/-- The holder `s` is copied to `c`, which holds nothing before, and both start the next epoch. -/
theorem Invariant.fork (h : e.Invariant) {e' : Epochs S O} {c : S} (hsource : e'.epoch s = e.epoch s + 1)
    (hcopy : e'.epoch c = e.epoch s + 1) (hepoch : ∀ t, t ≠ s → t ≠ c → e'.epoch t = e.epoch t)
    (howner : e'.owner = e.owner) (hholds : ∀ t o, t ≠ c → e'.holds t o → e.holds t o)
    (hcopied : ∀ o, e'.holds c o → e.holds s o) : e'.Invariant := by
  -- an object of the copy is one of the holder that is copied
  have hat : ∀ t o, e'.holds t o → t ≠ c ∧ e.holds t o ∨ t = c ∧ e.holds s o := by
    intro t o ht
    by_cases hc : t = c
    · exact .inr ⟨hc, hcopied o (hc ▸ ht)⟩
    · exact .inl ⟨hc, hholds t o hc ht⟩
  have hle : ∀ t, t ≠ c → e.epoch t ≤ e'.epoch t := by
    intro t hc
    by_cases hs : t = s
    · rw [hs, hsource]
      exact Nat.le_succ _
    · rw [hepoch t hs hc]
  refine ⟨fun t o ht => ?_, fun t o ht => ?_, fun t u o hne ht hu => ?_⟩
  · rw [howner]
    rcases hat t o ht with ⟨-, ho⟩ | ⟨-, ho⟩ <;> exact h.pos _ o ho
  · rw [howner]
    rcases hat t o ht with ⟨hc, ho⟩ | ⟨rfl, ho⟩
    · exact (h.le t o ho).trans (hle t hc)
    · rw [hcopy]
      exact Nat.le_succ_of_le (h.le s o ho)
  · rw [howner]
    rcases hat t o ht with ⟨hc, ho⟩ | ⟨rfl, ho⟩
    · by_cases hs : t = s
      · subst hs
        rw [hsource]
        exact Nat.lt_succ_of_le (h.le t o ho)
      · rcases hat u o hu with ⟨hc', ho'⟩ | ⟨-, ho'⟩
        · exact (h.shared t u o hne ho ho').trans_le (hle t hc)
        · exact (h.shared t s o hs ho ho').trans_le (hle t hc)
    · rw [hcopy]
      exact Nat.lt_succ_of_le (h.le s o ho)

end Epochs

end CapTaint
