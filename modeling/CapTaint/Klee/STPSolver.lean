import CapTaint.Klee.Construct
import CapTaint.Klee.CexCachingSolver

/-! # The solver that asks STP

`STPSolverImpl`, with and without a process of its own for each query. STP is given by what it answers about formulas over
the assignments of the arrays. There is no result where the process ends: an assertion or the type check of STP fails, the
shared memory overflows, or the solver failed and failures are not ignored. The statistics and the log are left out. -/

namespace CapTaint.Klee

/-- A formula by its term in each model. -/
abbrev Formula := Valuation → Option STPExpr

/-- STP: its functions for terms, its operators for quotients, and for asserted formulas and a query a model that refutes it, if
    there is one. -/
structure Stp extends STP where
  division : StpDivision
  vc_query : List Formula → Formula → Option Valuation

inductive SolverRunStatus
  | SUCCESS_SOLVABLE | SUCCESS_UNSOLVABLE | FAILURE | TIMEOUT | FORK_FAILED | INTERRUPTED | UNEXPECTED_EXIT_CODE
  | WAITPID_FAILED
  deriving DecidableEq, Repr

/-- What becomes of the process of a query. One that exits does so with the result of the query, unless that is none that is
    known. -/
inductive Fate
  | forkFailed | waitFailed | interrupted | timedOut | unexpectedExitCode | exited
  deriving DecidableEq, Repr

namespace STPSolverImpl

structure Config where
  useForkedSTP : Bool
  optimizeDivides : Bool
  useConstructHash : Bool
  ignoreSolverFailures : Bool

structure State where
  runStatusCode : SolverRunStatus
  /-- The fates of the processes to come; when none are left, they exit. -/
  fates : List Fate

variable (stp : Stp) (cfg : Config)

def construct (e : Expr) : Formula := fun m =>
  @STPBuilder.constructTerm stp.toSTP stp.division cfg.optimizeDivides cfg.useConstructHash m e

/-- The bytes of an object in a model. -/
def getCounterExample (m : Valuation) (array : Array) : Option (List Nat) :=
  (List.range array.size).mapM fun offset => do
    let counter ← @STPBuilder.getInitialRead stp.toSTP m array offset
    return (← counter.asBv).value % 256

def runAndGetCex (constraints : List Formula) (q : Formula) (objects : List Array) :
    Option (SolverRunStatus × Option (List (List Nat))) :=
  match stp.vc_query constraints q with
  | none => some (.SUCCESS_UNSOLVABLE, none)
  | some m => do
    let values ← objects.mapM (getCounterExample stp m)
    return (.SUCCESS_SOLVABLE, some values)

/-- The parts of the shared memory, one for each object. -/
def readMemory : List Array → List Nat → List (List Nat)
  | [], _ => []
  | array :: objects, pos => pos.take array.size :: readMemory objects (pos.drop array.size)

/-- The status of a process that failed. -/
def failed (status : SolverRunStatus) : Option (SolverRunStatus × Option (List (List Nat))) :=
  if cfg.ignoreSolverFailures then some (status, none) else none

def runAndGetCexForked (fate : Fate) (constraints : List Formula) (q : Formula) (objects : List Array) :
    Option (SolverRunStatus × Option (List (List Nat))) :=
  -- `sum` is an `unsigned`
  if 2 ^ 20 ≤ (objects.map (·.size)).sum % 2 ^ 32 then none
  else
    match fate with
    | .forkFailed => failed cfg .FORK_FAILED
    | .waitFailed => failed cfg .WAITPID_FAILED
    | .interrupted => failed cfg .INTERRUPTED
    | .timedOut => some (.TIMEOUT, none)
    | .unexpectedExitCode => failed cfg .UNEXPECTED_EXIT_CODE
    | .exited =>
      match stp.vc_query constraints q with
      | none => some (.SUCCESS_UNSOLVABLE, none)
      | some m =>
        -- the bytes go behind the end of the shared memory
        if 2 ^ 20 ≤ (objects.map (·.size)).sum then none
        else match objects.mapM (getCounterExample stp m) with
        | none => failed cfg .INTERRUPTED
        | some values => some (.SUCCESS_SOLVABLE, some (readMemory objects values.flatten))

def SUCCESS (status : SolverRunStatus) : Bool := status = .SUCCESS_SOLVABLE ∨ status = .SUCCESS_UNSOLVABLE

def computeInitialValues (query : Query) (objects : List Array) (st : State) :
    Option (Option (Option (List (List Nat))) × State) := do
  let constraints := query.constraints.map (construct stp cfg)
  let stp_e := construct stp cfg query.expr
  if cfg.useForkedSTP then
    let (status, values) ← runAndGetCexForked stp cfg (st.fates.headD .exited) constraints stp_e objects
    return (if SUCCESS status then some values else none, ⟨status, st.fates.tail⟩)
  else
    let (status, values) ← runAndGetCex stp constraints stp_e objects
    return (some values, { st with runStatusCode := status })

def computeTruth (query : Query) (st : State) : Option (Option Bool × State) := do
  let (result, st) ← computeInitialValues stp cfg query [] st
  return (result.map (·.isNone), st)

/-- The default of `SolverImpl`. -/
def computeValidity (opt : Bool) (query : Query) (st : State) : Option (Option Validity × State) := do
  let (isValid, st) ← computeTruth stp cfg query st
  match isValid with
  | none => return (none, st)
  | some true => return (some .True, st)
  | some false => do
    let negated ← (query.negateExpr opt).toOption
    let (isRefuted, st) ← computeTruth stp cfg negated st
    return (isRefuted.map fun isRefuted => if isRefuted then .False else .Unknown, st)

def computeValue (opt useVisitorHash : Bool) (query : Query) (st : State) : Option (Option Expr × State) := do
  let objects := findSymbolicObjects [query.expr]
  let (result, st) ← computeInitialValues stp cfg query.withFalse objects st
  match result with
  | none => return (none, st)
  | some none => none
  | some (some values) => do
    let value ← ((Assignment.ofValues objects values).evaluate opt useVisitorHash query.expr).toOption
    return (some value, st)

/-! ### Runs -/

open CexCachingSolver

variable (opt useVisitorHash : Bool)

def step (st : State) : Request → Option (Answer × State)
  | .validity query => do
    let (result, st) ← computeValidity stp cfg opt query st
    return (.validity query result, st)
  | .truth query => do
    let (result, st) ← computeTruth stp cfg query st
    return (.truth query result, st)
  | .value query => do
    let (result, st) ← computeValue stp cfg opt useVisitorHash query st
    return (.value query result, st)
  | .initialValues query objects => do
    let (result, st) ← computeInitialValues stp cfg query objects st
    return (.initialValues query objects result, st)

def run (st : State) : List Request → Option (List Answer × State)
  | [] => some ([], st)
  | request :: requests => do
    let (answer, st) ← step stp cfg opt useVisitorHash st request
    let (answers, st) ← run st requests
    return (answer :: answers, st)

end STPSolverImpl
end CapTaint.Klee
