import Mathlib

/-! A strict total order on a finite set is the order of the positions 1, 2, … of its elements. -/

namespace CapTaint.Rank
open Finset Classical

variable {α : Type}

/-- `before` is a strict total order on `s`. -/
structure IsOrder (s : Finset α) (before : α → α → Prop) : Prop where
  irrefl : ∀ a ∈ s, ¬before a a
  trans : ∀ a ∈ s, ∀ b ∈ s, ∀ c ∈ s, before a b → before b c → before a c
  total : ∀ a ∈ s, ∀ b ∈ s, a ≠ b → before a b ∨ before b a

/-- The position of `a`, from 1. -/
noncomputable def rank (s : Finset α) (before : α → α → Prop) (a : α) : ℕ := #{b ∈ s | before b a} + 1

variable {s : Finset α} {before : α → α → Prop}

theorem IsOrder.rank_lt (h : IsOrder s before) {a b : α} (ha : a ∈ s) (hb : b ∈ s) (hab : before a b) :
    rank s before a < rank s before b := by
  have hsub : ({c ∈ s | before c a} : Finset α) ⊆ {c ∈ s | before c b} := fun c hc => by
    obtain ⟨hc, hca⟩ := mem_filter.mp hc
    exact mem_filter.mpr ⟨hc, h.trans c hc a ha b hb hca hab⟩
  refine Nat.succ_lt_succ (card_lt_card ((ssubset_iff_of_subset hsub).mpr ⟨a, ?_, ?_⟩))
  · exact mem_filter.mpr ⟨ha, hab⟩
  · exact fun hmem => h.irrefl a ha (mem_filter.mp hmem).2

theorem IsOrder.rank_lt_iff (h : IsOrder s before) {a b : α} (ha : a ∈ s) (hb : b ∈ s) :
    rank s before a < rank s before b ↔ before a b := by
  refine ⟨fun hlt => ?_, h.rank_lt ha hb⟩
  by_cases hab : a = b
  · rw [hab] at hlt
    exact absurd hlt (lt_irrefl _)
  · rcases h.total a ha b hb hab with hab | hba
    · exact hab
    · exact absurd (h.rank_lt hb ha hba) (lt_asymm hlt)

theorem IsOrder.rank_inj (h : IsOrder s before) {a b : α} (ha : a ∈ s) (hb : b ∈ s)
    (heq : rank s before a = rank s before b) : a = b := by
  by_contra hne
  rcases h.total a ha b hb hne with hab | hba
  · exact absurd heq (h.rank_lt ha hb hab).ne
  · exact absurd heq (h.rank_lt hb ha hba).ne'

theorem rank_pos {a : α} : 0 < rank s before a := Nat.succ_pos _

/-- An element is not before itself, so its position is at most the size of the set. -/
theorem IsOrder.rank_le_card (h : IsOrder s before) {a : α} (ha : a ∈ s) : rank s before a ≤ #s := by
  refine card_lt_card ((ssubset_iff_of_subset (filter_subset _ _)).mpr ⟨a, ha, ?_⟩)
  exact fun hmem => h.irrefl a ha (mem_filter.mp hmem).2

end CapTaint.Rank
