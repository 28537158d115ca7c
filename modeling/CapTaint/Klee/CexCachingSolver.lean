import CapTaint.Lib.MapOfSets
import CapTaint.Klee.Evaluator
import CapTaint.Klee.Expr
import CapTaint.Klee.Solver

/-! # CexCachingSolver

The solver that remembers counterexamples. The option that checks each new binding against its key is left out. -/

namespace CapTaint.Klee.CexCachingSolver

structure Config where
  /-- `ConstArrayOpt`. -/
  constArrayOpt : Bool
  useVisitorHash : Bool
  /-- `CexCacheTryAll`. -/
  tryAll : Bool
  /-- `CexCacheExperimental`. -/
  experimental : Bool
  /-- Whether `Expr::compare` is negative, an order that depends on hashes. -/
  less : Expr → Expr → Bool
  /-- Whether the bindings of an assignment come before those of another. -/
  lessBindings : Assignment → Assignment → Bool

/-- The insertion into an ordered set. -/
def insertOrdered {α : Type} [DecidableEq α] (less : α → α → Bool) (x : α) : List α → List α
  | [] => [x]
  | y :: ys =>
    if x = y then y :: ys
    else if less x y then x :: y :: ys
    else y :: insertOrdered less x ys

/-- A set of expressions in its order. -/
abbrev KeyType := List Expr

/-- A missing assignment, `NULL` in the source, stands for an unsatisfiable set. -/
structure State (σ : Type) where
  cache : MapOfSets.Node Expr (Option Assignment)
  assignmentsTable : List Assignment
  solver : σ

variable {σ : Type} (cfg : Config) (impl : SolverImpl σ)

def KeyType.ofConstraints (constraints : List Expr) : KeyType :=
  constraints.foldl (fun key e => insertOrdered cfg.less e key) []

def satisfies (key : KeyType) (a : Assignment) : Except Abort Bool := a.satisfies cfg.constArrayOpt cfg.useVisitorHash key

/-! ### The tests of the searches -/

def nullAssignment (a : Option Assignment) : Except Abort Bool := .ok a.isNone

def nonNullAssignment (a : Option Assignment) : Except Abort Bool := .ok a.isSome

def nullOrSatisfyingAssignment (key : KeyType) : Option Assignment → Except Abort Bool
  | none => .ok true
  | some a => satisfies cfg key a

/-- The loop over the table. -/
def findSatisfying (key : KeyType) : List Assignment → Except Abort (Option Assignment)
  | [] => .ok none
  | a :: table => do
    if ← satisfies cfg key a then return some a
    else findSatisfying key table

/-! ### Lookup -/

/-- Some result if there is a cached one. -/
def searchForAssignment (key : KeyType) (st : State σ) : Except Abort (Option (Option Assignment)) :=
  match MapOfSets.lookup key st.cache with
  | some result => .ok (some result)
  | none =>
    if cfg.tryAll then do
      match ← MapOfSets.findSuperset nonNullAssignment st.cache key with
      | some result => return some result
      | none =>
        match ← MapOfSets.findSubset cfg.less nullAssignment st.cache key with
        | some result => return some result
        | none => return (← findSatisfying cfg key st.assignmentsTable).map some
    else do
      match ← MapOfSets.findSuperset nonNullAssignment st.cache key with
      | some result => return some result
      | none => MapOfSets.findSubset cfg.less (nullOrSatisfyingAssignment cfg key) st.cache key

/-- The key of the query and the cached result. -/
def lookupAssignment (query : Query) (st : State σ) : Except Abort (KeyType × Option (Option Assignment)) := do
  let key := KeyType.ofConstraints cfg query.constraints
  let neg ← query.expr.createIsZero cfg.constArrayOpt
  if neg = boolean false then return (key, some none)
  else
    let key := if neg.isConstant then key else insertOrdered cfg.less neg key
    return (key, ← searchForAssignment cfg key st)

/-- No result if the wrapped solver fails. -/
def getAssignment (query : Query) (st : State σ) : Except Abort (Option (Option Assignment) × State σ) := do
  match ← lookupAssignment cfg query st with
  | (_, some result) => return (some result, st)
  | (key, none) =>
    let objects := findSymbolicObjects key
    match impl.computeInitialValues query objects st.solver with
    | (none, solver) => return (none, { st with solver := solver })
    | (some none, solver) =>
      return (some none, { st with cache := MapOfSets.insert cfg.less key none st.cache, solver := solver })
    | (some (some values), solver) =>
      let binding := Assignment.ofValues objects values
      return (some (some binding),
        { cache := MapOfSets.insert cfg.less key (some binding) st.cache,
          assignmentsTable := insertOrdered cfg.lessBindings binding st.assignmentsTable,
          solver := solver })

/-! ### The operations -/

/-- `assert(a && ...)` and the evaluation under `a`, which must end with a constant. -/
def evaluateExpr (query : Query) : Option Assignment → Created
  | none => .error .assertion
  | some a => do
    let q ← a.evaluate cfg.constArrayOpt cfg.useVisitorHash query.expr
    if q.isConstant then return q else .error .assertion

def computeValidity (query : Query) (st : State σ) : Except Abort (Option Validity × State σ) := do
  match ← getAssignment cfg impl query.withFalse st with
  | (none, st) => return (none, st)
  | (some a, st) =>
    let q ← evaluateExpr cfg query a
    if q = boolean true then
      match ← getAssignment cfg impl query st with
      | (none, st) => return (none, st)
      | (some a, st) => return (some (if a.isNone then .True else .Unknown), st)
    else
      match ← getAssignment cfg impl (← query.negateExpr cfg.constArrayOpt) st with
      | (none, st) => return (none, st)
      | (some a, st) => return (some (if a.isNone then .False else .Unknown), st)

/-- Whether the cache knows that no assignment satisfies the constraints and the query. -/
def knownFalse (query : Query) (st : State σ) : Except Abort Bool := do
  let (_, result) ← lookupAssignment cfg (← query.negateExpr cfg.constArrayOpt) st
  return result = some none

def computeTruth (query : Query) (st : State σ) : Except Abort (Option Bool × State σ) := do
  let known ← if cfg.experimental then knownFalse cfg query st else pure false
  if known then return (none, st)
  else
    match ← getAssignment cfg impl query st with
    | (none, st) => return (none, st)
    | (some a, st) => return (some a.isNone, st)

def computeValue (query : Query) (st : State σ) : Except Abort (Option Expr × State σ) := do
  match ← getAssignment cfg impl query.withFalse st with
  | (none, st) => return (none, st)
  | (some a, st) => return (some (← evaluateExpr cfg query a), st)

/-- The bytes of an object, which are zero if it is not bound. -/
def valuesOf (a : Assignment) (os : Array) : List Nat := (a.bindings.lookup os).getD (List.replicate os.size 0)

def computeInitialValues (query : Query) (objects : List Array) (st : State σ) :
    Except Abort (Option (Option (List (List Nat))) × State σ) := do
  match ← getAssignment cfg impl query st with
  | (none, st) => return (none, st)
  | (some a, st) => return (some (a.map fun a => objects.map (valuesOf a)), st)

/-! ### Histories -/

inductive Request
  | validity (query : Query)
  | truth (query : Query)
  | value (query : Query)
  | initialValues (query : Query) (objects : List Array)
  deriving DecidableEq

/-- A request with its result, if there is one. -/
inductive Answer
  | validity (query : Query) (result : Option Validity)
  | truth (query : Query) (result : Option Bool)
  | value (query : Query) (result : Option Expr)
  | initialValues (query : Query) (objects : List Array) (result : Option (Option (List (List Nat))))
  deriving DecidableEq

def Answer.request : Answer → Request
  | .validity query _ => .validity query
  | .truth query _ => .truth query
  | .value query _ => .value query
  | .initialValues query objects _ => .initialValues query objects

def step (st : State σ) : Request → Except Abort (Answer × State σ)
  | .validity query => do
    let (result, st) ← computeValidity cfg impl query st
    return (.validity query result, st)
  | .truth query => do
    let (result, st) ← computeTruth cfg impl query st
    return (.truth query result, st)
  | .value query => do
    let (result, st) ← computeValue cfg impl query st
    return (.value query result, st)
  | .initialValues query objects => do
    let (result, st) ← computeInitialValues cfg impl query objects st
    return (.initialValues query objects result, st)

def run (st : State σ) : List Request → Except Abort (List Answer × State σ)
  | [] => .ok ([], st)
  | request :: requests => do
    let (answer, st) ← step cfg impl st request
    let (answers, st) ← run st requests
    return (answer :: answers, st)

/-- A new solver around one in state `s`. -/
def initial (s : σ) : State σ := ⟨MapOfSets.empty, [], s⟩

end CapTaint.Klee.CexCachingSolver
