import CapTaint.Klee.CachingSolver
import CapTaint.Klee.IndependentSolver
import CapTaint.Klee.STPSolver

/-! # The chain of solvers

The wrappers as implementations of the interface, and `constructSolverChain`. The loggers pass on what they are asked, and
`FastCexSolver` and the validating solver are off by default: they are left out. -/

namespace CapTaint.Klee

/-- A call in a process that has not ended. -/
def guarded {σ α : Type} (call : σ → Option (Option α × σ)) : Option σ → Option α × Option σ
  | none => (none, none)
  | some s =>
    match call s with
    | none => (none, none)
    | some (answer, s) => (answer, some s)

/-- A solver with its state. -/
structure Solver where
  State : Type
  impl : SolverImpl State
  state : State

/-- An abort ends the process. -/
def CexCachingSolver.impl {σ : Type} (cfg : Config) (solver : SolverImpl σ) : SolverImpl (Option (State σ)) where
  computeTruth query := guarded fun st => (computeTruth cfg solver query st).toOption
  computeValidity query := guarded fun st => (computeValidity cfg solver query st).toOption
  computeValue query := guarded fun st => (computeValue cfg solver query st).toOption
  computeInitialValues query objects := guarded fun st => (computeInitialValues cfg solver query objects st).toOption

namespace CachingSolver

variable {σ : Type} (solver : SolverImpl σ)

def computeValue (query : Query) (st : State σ) : Option Expr × State σ :=
  let (answer, s) := solver.computeValue query st.solver
  (answer, { st with solver := s })

def computeInitialValues (query : Query) (objects : List Array) (st : State σ) : Option (Option (List (List Nat))) × State σ :=
  let (answer, s) := solver.computeInitialValues query objects st.solver
  (answer, { st with solver := s })

def impl (opt : Bool) (less : Expr → Expr → Bool) : SolverImpl (Option (State σ)) where
  computeTruth query := guarded fun st => (computeTruth opt less solver query st).toOption
  computeValidity query := guarded fun st => (computeValidity opt less solver query st).toOption
  computeValue query := guarded fun st => some (computeValue solver query st)
  computeInitialValues query objects := guarded fun st => some (computeInitialValues solver query objects st)

end CachingSolver

def IndependentSolver.impl {σ : Type} (solver : SolverImpl σ) : SolverImpl (Option σ) where
  computeTruth query := guarded fun s => (computeTruth solver query s).toOption
  computeValidity query := guarded fun s => (computeValidity solver query s).toOption
  computeValue query := guarded fun s => (computeValue solver query s).toOption
  computeInitialValues query objects := guarded fun s => some (solver.computeInitialValues query objects s)

def STPSolverImpl.impl (stp : Stp) (cfg : Config) (opt useVisitorHash : Bool) : SolverImpl (Option State) where
  computeTruth query := guarded (computeTruth stp cfg query)
  computeValidity query := guarded (computeValidity stp cfg opt query)
  computeValue query := guarded (computeValue stp cfg opt useVisitorHash query)
  computeInitialValues query objects := guarded (computeInitialValues stp cfg query objects)

def STPSolver (stp : Stp) (cfg : STPSolverImpl.Config) (opt useVisitorHash : Bool) (state : STPSolverImpl.State) : Solver :=
  ⟨Option STPSolverImpl.State, STPSolverImpl.impl stp cfg opt useVisitorHash, some state⟩

def createCexCachingSolver (cfg : CexCachingSolver.Config) (solver : Solver) : Solver :=
  ⟨Option (CexCachingSolver.State solver.State), CexCachingSolver.impl cfg solver.impl, some (CexCachingSolver.initial solver.state)⟩

def createCachingSolver (opt : Bool) (less : Expr → Expr → Bool) (solver : Solver) : Solver :=
  ⟨Option (CachingSolver.State solver.State), CachingSolver.impl solver.impl opt less, some (CachingSolver.initial solver.state)⟩

def createIndependentSolver (solver : Solver) : Solver :=
  ⟨Option solver.State, IndependentSolver.impl solver.impl, some solver.state⟩

structure ChainOptions where
  useCexCache : Bool
  useCache : Bool
  useIndependentSolver : Bool

def constructSolverChain (options : ChainOptions) (cfg : CexCachingSolver.Config) (coreSolver : Solver) : Solver :=
  let solver := coreSolver
  let solver := if options.useCexCache then createCexCachingSolver cfg solver else solver
  let solver := if options.useCache then createCachingSolver cfg.constArrayOpt cfg.less solver else solver
  if options.useIndependentSolver then createIndependentSolver solver else solver

/-! ### Histories -/

namespace SolverImpl

open CexCachingSolver (Request Answer)

variable {σ : Type} (impl : SolverImpl σ)

def answer : Request → σ → Answer × σ
  | .validity query, s =>
    let (result, s) := impl.computeValidity query s
    (.validity query result, s)
  | .truth query, s =>
    let (result, s) := impl.computeTruth query s
    (.truth query result, s)
  | .value query, s =>
    let (result, s) := impl.computeValue query s
    (.value query result, s)
  | .initialValues query objects, s =>
    let (result, s) := impl.computeInitialValues query objects s
    (.initialValues query objects result, s)

def answers : List Request → σ → List Answer
  | [], _ => []
  | request :: requests, s =>
    let (answer, s) := impl.answer request s
    answer :: answers requests s

end SolverImpl

/-- The answers of a solver to the requests, from its first state on. -/
def Solver.answers (solver : Solver) (requests : List CexCachingSolver.Request) : List CexCachingSolver.Answer :=
  solver.impl.answers requests solver.state

end CapTaint.Klee
