import Mathlib

/-! # Formulas

Quantifier-free formulas over named constants: integer constants with `+`, `<`, `≤` and `=`, Boolean
    constants, and constants of one further sort that are only compared for equality. -/

namespace CapTaint.Smt

inductive Term
  | const (name : String)
  | val (n : Int)
  | add (a b : Term)
  deriving Repr, DecidableEq

inductive Formula
  | bool (b : Bool)
  | boolConst (name : String)
  | lt (a b : Term)
  | le (a b : Term)
  | eq (a b : Term)
  | same (x y : String)
  | not (p : Formula)
  | and (p q : Formula)
  | or (p q : Formula)
  deriving Repr, DecidableEq

/-- What the constants stand for: the integer, the Boolean and the uninterpreted ones. -/
structure Assignment (V : Type) where
  int : String → Int
  bool : String → Bool
  value : String → V

variable {V : Type} (σ : Assignment V)

def Term.eval : Term → Int
  | .const name => σ.int name
  | .val n => n
  | .add a b => a.eval + b.eval

def Formula.Holds : Formula → Prop
  | .bool b => b = true
  | .boolConst name => σ.bool name = true
  | .lt a b => a.eval σ < b.eval σ
  | .le a b => a.eval σ ≤ b.eval σ
  | .eq a b => a.eval σ = b.eval σ
  | .same x y => σ.value x = σ.value y
  | .not p => ¬p.Holds
  | .and p q => p.Holds ∧ q.Holds
  | .or p q => p.Holds ∨ q.Holds

instance Formula.instDecidableHolds [DecidableEq V] : (p : Formula) → Decidable (p.Holds σ)
  | .bool b => inferInstanceAs (Decidable (b = true))
  | .boolConst name => inferInstanceAs (Decidable (σ.bool name = true))
  | .lt a b => inferInstanceAs (Decidable (a.eval σ < b.eval σ))
  | .le a b => inferInstanceAs (Decidable (a.eval σ ≤ b.eval σ))
  | .eq a b => inferInstanceAs (Decidable (a.eval σ = b.eval σ))
  | .same x y => inferInstanceAs (Decidable (σ.value x = σ.value y))
  | .not p => have := instDecidableHolds p; inferInstanceAs (Decidable (¬p.Holds σ))
  | .and p q =>
    have := instDecidableHolds p
    have := instDecidableHolds q
    inferInstanceAs (Decidable (p.Holds σ ∧ q.Holds σ))
  | .or p q =>
    have := instDecidableHolds p
    have := instDecidableHolds q
    inferInstanceAs (Decidable (p.Holds σ ∨ q.Holds σ))

/-- The equation of two Boolean terms. -/
def Formula.iff (p q : Formula) : Formula := .or (.and p q) (.and (.not p) (.not q))

/-- A solver that holds the assertions `fs` accepts `σ`. -/
def Satisfies (fs : List Formula) : Prop := ∀ f ∈ fs, f.Holds σ

instance [DecidableEq V] (fs : List Formula) : Decidable (Satisfies σ fs) :=
  inferInstanceAs (Decidable (∀ f ∈ fs, f.Holds σ))

section
variable {σ}

@[simp] theorem holds_bool {b : Bool} : (Formula.bool b).Holds σ ↔ b = true := Iff.rfl

@[simp] theorem holds_lt {a b : Term} : (Formula.lt a b).Holds σ ↔ a.eval σ < b.eval σ := Iff.rfl

@[simp] theorem holds_le {a b : Term} : (Formula.le a b).Holds σ ↔ a.eval σ ≤ b.eval σ := Iff.rfl

@[simp] theorem holds_eq {a b : Term} : (Formula.eq a b).Holds σ ↔ a.eval σ = b.eval σ := Iff.rfl

@[simp] theorem holds_same {x y : String} : (Formula.same x y).Holds σ ↔ σ.value x = σ.value y := Iff.rfl

@[simp] theorem holds_and {p q : Formula} : (Formula.and p q).Holds σ ↔ p.Holds σ ∧ q.Holds σ := Iff.rfl

@[simp] theorem holds_or {p q : Formula} : (Formula.or p q).Holds σ ↔ p.Holds σ ∨ q.Holds σ := Iff.rfl

@[simp] theorem holds_not {p : Formula} : (Formula.not p).Holds σ ↔ ¬p.Holds σ := Iff.rfl

@[simp] theorem holds_boolConst {name : String} : (Formula.boolConst name).Holds σ ↔ σ.bool name = true := Iff.rfl

@[simp] theorem holds_iff {p q : Formula} : (p.iff q).Holds σ ↔ (p.Holds σ ↔ q.Holds σ) := by
  rw [Formula.iff, holds_or, holds_and, holds_and, holds_not, holds_not]
  exact iff_iff_and_or_not_and_not.symm

@[simp] theorem eval_const {name : String} : (Term.const name).eval σ = σ.int name := rfl

@[simp] theorem eval_val {n : Int} : (Term.val n).eval σ = n := rfl

@[simp] theorem eval_add {a b : Term} : (Term.add a b).eval σ = a.eval σ + b.eval σ := rfl

@[simp] theorem satisfies_nil : Satisfies σ [] := fun _ h => by cases h

@[simp] theorem satisfies_cons {f : Formula} {fs : List Formula} :
    Satisfies σ (f :: fs) ↔ f.Holds σ ∧ Satisfies σ fs := by
  simp [Satisfies]

@[simp] theorem satisfies_append {fs gs : List Formula} :
    Satisfies σ (fs ++ gs) ↔ Satisfies σ fs ∧ Satisfies σ gs := by
  simp only [Satisfies, List.mem_append, or_imp, forall_and]

theorem satisfies_flatMap {α : Type} {l : List α} {f : α → List Formula} :
    Satisfies σ (l.flatMap f) ↔ ∀ x ∈ l, Satisfies σ (f x) := by
  simp only [Satisfies, List.mem_flatMap]
  exact ⟨fun h x hx g hg => h g ⟨x, hx, hg⟩, fun h g ⟨x, hx, hg⟩ => h x hx g hg⟩

theorem satisfies_map {α : Type} {l : List α} {f : α → Formula} :
    Satisfies σ (l.map f) ↔ ∀ x ∈ l, (f x).Holds σ := by
  simp [Satisfies]

theorem holds_foldl_and {p : Formula} {ps : List Formula} :
    (ps.foldl .and p).Holds σ ↔ p.Holds σ ∧ ∀ q ∈ ps, q.Holds σ := by
  induction ps generalizing p with
  | nil => simp
  | cons q ps ih => simp [ih, and_assoc]

theorem holds_foldl_or {p : Formula} {ps : List Formula} :
    (ps.foldl .or p).Holds σ ↔ p.Holds σ ∨ ∃ q ∈ ps, q.Holds σ := by
  induction ps generalizing p with
  | nil => simp
  | cons q ps ih => simp [ih, or_assoc]

theorem eval_foldl_add {a : Term} {as : List Term} :
    (as.foldl .add a).eval σ = a.eval σ + (as.map (·.eval σ)).sum := by
  induction as generalizing a with
  | nil => simp
  | cons b as ih => simp [ih, add_assoc]

end

/-- Formulas over the integer constants. -/
def Formula.OverInts : Formula → Prop
  | .bool _ | .lt _ _ | .le _ _ | .eq _ _ => True
  | .not p => p.OverInts
  | .and p q | .or p q => p.OverInts ∧ q.OverInts
  | .boolConst _ | .same _ _ => False

theorem Term.eval_congr {σ τ : Assignment V} (h : σ.int = τ.int) (a : Term) : a.eval σ = a.eval τ := by
  induction a with
  | const name => exact congrFun h name
  | val n => rfl
  | add a b iha ihb => rw [eval_add, eval_add, iha, ihb]

theorem Formula.OverInts.holds_congr {σ τ : Assignment V} (h : σ.int = τ.int) {p : Formula} (hp : p.OverInts) :
    p.Holds σ ↔ p.Holds τ := by
  induction p with
  | bool b => rfl
  | boolConst name => cases hp
  | lt a b => rw [holds_lt, holds_lt, a.eval_congr h, b.eval_congr h]
  | le a b => rw [holds_le, holds_le, a.eval_congr h, b.eval_congr h]
  | eq a b => rw [holds_eq, holds_eq, a.eval_congr h, b.eval_congr h]
  | same x y => cases hp
  | not p ih => exact not_congr (ih hp)
  | and p q ihp ihq => exact and_congr (ihp hp.1) (ihq hp.2)
  | or p q ihp ihq => exact or_congr (ihp hp.1) (ihq hp.2)

/-- Values for names that are given at most one value each. -/
theorem exists_values {α β : Type} [Inhabited β] {given : α → β → Prop}
    (h : ∀ {name v v'}, given name v → given name v' → v = v') : ∃ f : α → β, ∀ {name v}, given name v → f name = v := by
  classical
  refine ⟨fun name => if hv : ∃ v, given name v then hv.choose else default, fun {name v} hv => ?_⟩
  have hex : ∃ v, given name v := ⟨v, hv⟩
  beta_reduce
  rw [dif_pos hex]
  exact h hex.choose_spec hv

end CapTaint.Smt

/-! ### Solvers

A solver with backtracking points: a list of assertions that is cut back to its length at the last `push`. -/

namespace CapTaint

structure Solver (φ : Type) where
  base : List φ := []
  /-- What was asserted since each backtracking point, the newest one first. -/
  frames : List (List φ) := []
  deriving DecidableEq

namespace Solver
variable {φ : Type}

def push (s : Solver φ) : Solver φ := { s with frames := [] :: s.frames }

/-- Called with a backtracking point only. -/
def pop (s : Solver φ) : Solver φ := { s with frames := s.frames.tail }

def add (s : Solver φ) (f : φ) : Solver φ :=
  match s.frames with
  | [] => { s with base := s.base ++ [f] }
  | frame :: rest => { s with frames := (frame ++ [f]) :: rest }

def addAll (s : Solver φ) (fs : List φ) : Solver φ := fs.foldl add s

/-- The assertions that a check sees. -/
def assertions (s : Solver φ) : List φ := s.base ++ s.frames.reverse.flatten

def depth (s : Solver φ) : Nat := s.frames.length

variable {s : Solver φ} {fs : List φ}

theorem addAll_push : s.push.addAll fs = { s with frames := fs :: s.frames } := by
  have hadd : ∀ (frame fs : List φ), (fs.foldl add { s with frames := frame :: s.frames }) =
      { s with frames := (frame ++ fs) :: s.frames } := by
    intro frame fs
    induction fs generalizing frame with
    | nil => simp
    | cons f fs ih =>
      rw [List.foldl_cons]
      exact (ih (frame ++ [f])).trans (by simp)
  exact hadd [] fs

theorem assertions_addAll_push : (s.push.addAll fs).assertions = s.assertions ++ fs := by
  simp [addAll_push, assertions]

@[simp] theorem pop_addAll_push : (s.push.addAll fs).pop = s := by
  rw [addAll_push]
  rfl

@[simp] theorem pop_push : s.push.pop = s := rfl

@[simp] theorem depth_addAll_push : (s.push.addAll fs).depth = s.depth + 1 := by
  rw [addAll_push]
  rfl

end Solver
end CapTaint
