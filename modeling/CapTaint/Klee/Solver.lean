import CapTaint.Branching
import CapTaint.Klee.Create

/-! # Solvers

Queries, what they ask about the assignments of the arrays, and the interface that the solvers of the chain implement.
A solver keeps a state of type `σ` and may fail. -/

namespace CapTaint.Klee

structure Query where
  constraints : List Expr
  expr : Expr
  deriving DecidableEq

namespace Query

def withExpr (query : Query) (expr : Expr) : Query := { query with expr := expr }

def withFalse (query : Query) : Query := query.withExpr (boolean false)

def negateExpr (opt : Bool) (query : Query) : Except Abort Query := do
  return query.withExpr (← query.expr.createIsZero opt)

end Query

/-! ### Meaning -/

def Expr.Holds (v : Valuation) (e : Expr) : Prop := e.value v = 1

namespace Query
variable (query : Query)

/-- The constraints and the expression have type `Bool`. -/
structure WellFormed : Prop where
  constraints : ∀ c ∈ query.constraints, c.Typed 1
  expr : query.expr.Typed 1

def Satisfies (v : Valuation) : Prop := ∀ c ∈ query.constraints, c.Holds v

def Satisfiable : Prop := ∃ v, query.Satisfies v

/-- The expression must be true. -/
def Valid : Prop := ∀ v, query.Satisfies v → query.expr.Holds v

/-- The expression must be false. -/
def Refuted : Prop := ∀ v, query.Satisfies v → ¬query.expr.Holds v

def HasValidity : Validity → Prop
  | .True => query.Valid
  | .False => query.Refuted
  | .Unknown => ¬query.Valid ∧ ¬query.Refuted

end Query

/-! ### Implementations -/

/-- `SolverImpl`. The initial values are those of a counterexample of the query, if it has one. -/
structure SolverImpl (σ : Type) where
  computeTruth : Query → σ → Option Bool × σ
  computeValidity : Query → σ → Option Validity × σ
  computeValue : Query → σ → Option Expr × σ
  computeInitialValues : Query → List Array → σ → Option (Option (List (List Nat))) × σ

end CapTaint.Klee
