import Mathlib

/-! # Binary search

The least number of an interval with a property that all larger numbers keep. Whether a number has the property is asked
of a procedure with a state, which may fail. Numbers are unsigned and wrap around. -/

namespace BinarySearch

variable {ε σ : Type}

/-- Half of an interval is left after each step, and there is no result when the steps are used up. -/
def search (outOfSteps : ε) (modulus : Nat) (ask : Nat → σ → Except ε (Bool × σ)) : Nat → Nat → Nat → σ → Except ε (Nat × σ)
  | 0, lo, hi, s => if lo < hi then .error outOfSteps else .ok (lo, s)
  | steps + 1, lo, hi, s =>
    if lo < hi then do
      let mid := (lo + (hi - lo) / 2) % modulus
      let (res, s) ← ask mid s
      if res then search outOfSteps modulus ask steps lo mid s
      else search outOfSteps modulus ask steps ((mid + 1) % modulus) hi s
    else .ok (lo, s)

/-- In every state the procedure tells whether a number of the interval has the property. -/
def Decides (P : Nat → Prop) (ask : Nat → σ → Except ε (Bool × σ)) (lo hi : Nat) : Prop :=
  ∀ mid, lo ≤ mid → mid < hi → ∀ s, ∃ res s', ask mid s = .ok (res, s') ∧ (res = true ↔ P mid)

section
variable {P : Nat → Prop} {ask : Nat → σ → Except ε (Bool × σ)} {outOfSteps : ε} {modulus steps lo lo' hi hi' mid : Nat} {s s' : σ}

theorem Decides.mono (h : Decides P ask lo hi) (hlo : lo ≤ lo') (hhi : hi' ≤ hi) : Decides P ask lo' hi' :=
  fun mid hmid hmid' => h mid (hlo.trans hmid) (hmid'.trans_le hhi)

theorem search_done (h : ¬lo < hi) : search outOfSteps modulus ask steps lo hi s = .ok (lo, s) := by
  cases steps <;> rw [search, if_neg h]

theorem search_step (hlt : lo < hi) (hhi : hi < modulus) {res : Bool} (hask : ask (lo + (hi - lo) / 2) s = .ok (res, s')) :
    search outOfSteps modulus ask (steps + 1) lo hi s =
      if res then search outOfSteps modulus ask steps lo (lo + (hi - lo) / 2) s'
      else search outOfSteps modulus ask steps (lo + (hi - lo) / 2 + 1) hi s' := by
  rw [search, if_pos hlt]
  simp only [Nat.mod_eq_of_lt (show lo + (hi - lo) / 2 < modulus by omega), hask,
    Nat.mod_eq_of_lt (show lo + (hi - lo) / 2 + 1 < modulus by omega)]
  rfl

/-- The search ends with the least number that has the property, when one step for each bit of the length is allowed. -/
theorem search_isLeast (hmono : Monotone P) (hask : Decides P ask lo hi) (hle : lo ≤ hi) (hbelow : ∀ n < lo, ¬P n) (hhi : P hi)
    (hmodulus : hi < modulus) (hsteps : hi - lo < 2 ^ steps) :
    ∃ n s', search outOfSteps modulus ask steps lo hi s = .ok (n, s') ∧ IsLeast {n | P n} n ∧ n ≤ hi := by
  induction steps generalizing lo hi s with
  | zero =>
    obtain rfl : lo = hi := by omega
    exact ⟨lo, s, search_done (lt_irrefl lo), ⟨hhi, fun n hn => not_lt.mp fun hlt => hbelow n hlt hn⟩, le_rfl⟩
  | succ steps ih =>
    rcases hle.eq_or_lt with rfl | hlt
    · exact ⟨lo, s, search_done (lt_irrefl lo), ⟨hhi, fun n hn => not_lt.mp fun hlt => hbelow n hlt hn⟩, le_rfl⟩
    have hlo : lo ≤ lo + (hi - lo) / 2 := Nat.le_add_right _ _
    have hmid : lo + (hi - lo) / 2 < hi := by omega
    rw [pow_succ] at hsteps
    obtain ⟨res, s', heq, hres⟩ := hask _ hlo hmid s
    rw [search_step hlt hmodulus heq]
    cases res with
    | true =>
      rw [if_pos rfl]
      obtain ⟨n, s'', hn, hleast, hle⟩ := @ih lo (lo + (hi - lo) / 2) s' (hask.mono le_rfl hmid.le) hlo hbelow (hres.mp rfl)
        (hmid.trans hmodulus) (by omega)
      exact ⟨n, s'', hn, hleast, hle.trans hmid.le⟩
    | false =>
      have hnot : ¬P (lo + (hi - lo) / 2) := fun h => Bool.false_ne_true (hres.mpr h)
      rw [if_neg Bool.false_ne_true]
      refine @ih (lo + (hi - lo) / 2 + 1) hi s' (hask.mono (by omega) le_rfl) hmid (fun n hn hP => ?_) hhi hmodulus (by omega)
      exact hnot (hmono (Nat.lt_succ_iff.mp hn) hP)

end
end BinarySearch
