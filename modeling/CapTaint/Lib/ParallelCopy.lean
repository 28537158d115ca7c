import Mathlib.Data.List.Nodup
import Mathlib.Logic.Function.Basic

/-! # Parallel assignments

Registers get the values of operands, either all at once or one after another. Both are the same when no operand is a
register that has been written before. -/

namespace CapTaint.ParallelCopy

inductive Operand (R K : Type)
  | register (r : R)
  | constant (c : K)
  deriving DecidableEq

variable {R K : Type}

def Operand.eval (ρ : R → K) : Operand R K → K
  | register r => ρ r
  | constant c => c

theorem Operand.eval_congr {ρ ρ' : R → K} {operand : Operand R K} (h : ∀ r, operand = .register r → ρ r = ρ' r) :
    operand.eval ρ = operand.eval ρ' := by
  cases operand with
  | register r => exact h r rfl
  | constant c => rfl

variable [DecidableEq R]

/-- The registers get values. -/
def write (ρ : R → K) (values : List (R × K)) : R → K := values.foldl (fun ρ entry => Function.update ρ entry.1 entry.2) ρ

/-- All operands are read before the first register is written. -/
def parallel (moves : List (R × Operand R K)) (ρ : R → K) : R → K := write ρ (moves.map fun move => (move.1, move.2.eval ρ))

def sequential (moves : List (R × Operand R K)) (ρ : R → K) : R → K :=
  moves.foldl (fun ρ move => Function.update ρ move.1 (move.2.eval ρ)) ρ

variable {moves : List (R × Operand R K)} {values : List (R × K)} {ρ ρ' : R → K} {r : R} {operand : Operand R K}

theorem write_of_notMem (h : r ∉ values.map (·.1)) : write ρ values r = ρ r := by
  induction values generalizing ρ with
  | nil => rfl
  | cons entry values ih =>
    obtain ⟨hne, hrest⟩ := List.ne_and_not_mem_of_not_mem_cons h
    exact (ih hrest).trans (Function.update_of_ne hne _ _)

theorem write_of_mem {k : K} (hnodup : (values.map (·.1)).Nodup) (h : (r, k) ∈ values) : write ρ values r = k := by
  induction values generalizing ρ with
  | nil => cases h
  | cons entry values ih =>
    obtain ⟨hnot, hnodup⟩ := List.nodup_cons.mp hnodup
    rcases List.mem_cons.mp h with rfl | h
    · exact (write_of_notMem hnot).trans (Function.update_self _ _ _)
    · exact ih hnodup h

theorem parallel_of_notMem (h : r ∉ moves.map (·.1)) : parallel moves ρ r = ρ r := by
  refine write_of_notMem ?_
  rwa [List.map_map]

theorem parallel_of_mem (hnodup : (moves.map (·.1)).Nodup) (h : (r, operand) ∈ moves) :
    parallel moves ρ r = operand.eval ρ := by
  refine write_of_mem ?_ (List.mem_map.mpr ⟨_, h, rfl⟩)
  rwa [List.map_map]

/-- Operands that are not written are not changed by the assignments before. -/
theorem sequential_eq_parallel (h : moves.Pairwise fun move move' => move'.2 ≠ .register move.1) :
    sequential moves ρ = parallel moves ρ := by
  induction moves generalizing ρ with
  | nil => rfl
  | cons move moves ih =>
    obtain ⟨hread, hrest⟩ := List.pairwise_cons.mp h
    refine (ih hrest).trans (congrArg (write _) (List.map_congr_left fun move' hmove' => ?_))
    refine congrArg (Prod.mk move'.1) (Operand.eval_congr fun r hr => Function.update_of_ne ?_ _ _)
    rintro rfl
    exact hread move' hmove' hr

end CapTaint.ParallelCopy
