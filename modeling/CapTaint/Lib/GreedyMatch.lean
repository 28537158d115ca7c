import Mathlib

/-! Greedy matching of two lists: each entry of the first list is matched with the first equal entry of the second one
    that is not flagged yet. It succeeds exactly when the first list is part of the second one, repetitions counted. -/

namespace CapTaint.GreedyMatch

variable {α : Type} [DecidableEq α]

/-- The flags after the first entry that is equal to `a` and not flagged has been flagged. -/
def flagFirst (a : α) : List α → List Bool → Option (List Bool)
  | b :: others, flag :: flags =>
    if ¬flag ∧ a = b then some (true :: flags) else (flagFirst a others flags).map (flag :: ·)
  | _, _ => none

/-- All entries of the first list are matched, one after the other. -/
def matchAll : List α → List α → List Bool → Bool
  | [], _, _ => true
  | a :: rest, others, flags =>
    match flagFirst a others flags with
    | none => false
    | some flags => matchAll rest others flags

/-- The entries that are not flagged. -/
def unflagged : List α → List Bool → List α
  | b :: others, flag :: flags => if flag then unflagged others flags else b :: unflagged others flags
  | _, _ => []

variable {a : α} {others : List α} {flags flags' : List Bool}

omit [DecidableEq α] in
theorem unflagged_replicate (others : List α) : unflagged others (List.replicate others.length false) = others := by
  induction others with
  | nil => rfl
  | cons b others ih =>
    rw [List.length_cons, List.replicate_succ, unflagged, ih]
    rfl

/-- A match takes one copy of `a` out of what is not flagged. -/
theorem flagFirst_eq_some (h : flagFirst a others flags = some flags') :
    (unflagged others flags).Perm (a :: unflagged others flags') := by
  induction others generalizing flags flags' with
  | nil => cases h
  | cons b others ih =>
    cases flags with
    | nil => cases h
    | cons flag flags =>
      rw [flagFirst] at h
      split at h
      next hfound =>
        obtain ⟨hflag, rfl⟩ := hfound
        obtain rfl := Option.some.inj h
        simp [unflagged, hflag]
      next =>
        obtain ⟨rest, hrest, rfl⟩ := Option.map_eq_some_iff.mp h
        have ih := ih hrest
        cases flag with
        | true => exact ih
        | false => exact (ih.cons b).trans (.swap a b _)

theorem flagFirst_eq_none (hlen : flags.length = others.length) :
    flagFirst a others flags = none ↔ a ∉ unflagged others flags := by
  induction others generalizing flags with
  | nil => simp [flagFirst, unflagged]
  | cons b others ih =>
    cases flags with
    | nil => cases hlen
    | cons flag flags =>
      have ih := ih (Nat.succ.inj hlen)
      rw [flagFirst]
      cases flag with
      | true => simpa [unflagged] using ih
      | false =>
        by_cases hab : a = b
        · simp [unflagged, hab]
        · simpa [unflagged, hab] using ih

theorem length_flagFirst (h : flagFirst a others flags = some flags') : flags'.length = flags.length := by
  induction others generalizing flags flags' with
  | nil => cases h
  | cons b others ih =>
    cases flags with
    | nil => cases h
    | cons flag flags =>
      rw [flagFirst] at h
      split at h
      next =>
        obtain rfl := Option.some.inj h
        rfl
      next =>
        obtain ⟨rest, hrest, rfl⟩ := Option.map_eq_some_iff.mp h
        rw [List.length_cons, List.length_cons, ih hrest]

theorem matchAll_iff {list : List α} (hlen : flags.length = others.length) :
    matchAll list others flags = true ↔ list.Subperm (unflagged others flags) := by
  induction list generalizing flags with
  | nil => simp [matchAll]
  | cons a rest ih =>
    rw [matchAll]
    cases hfirst : flagFirst a others flags with
    | none =>
      have hnot := (flagFirst_eq_none hlen).mp hfirst
      refine iff_of_false (by simp) fun hsub => hnot ?_
      exact hsub.subset List.mem_cons_self
    | some flags' =>
      have hperm := flagFirst_eq_some hfirst
      rw [ih ((length_flagFirst hfirst).trans hlen), ← List.subperm_cons a]
      exact hperm.symm.subperm_left

/-- With lists of one length the matching decides whether they are permutations of each other. -/
theorem matchAll_iff_perm {list : List α} (hlen : list.length = others.length) :
    matchAll list others (List.replicate others.length false) = true ↔ list.Perm others := by
  rw [matchAll_iff (by simp), unflagged_replicate]
  exact ⟨fun hsub => hsub.perm_of_length_le hlen.ge, fun hperm => hperm.subperm⟩

end CapTaint.GreedyMatch
