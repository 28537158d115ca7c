import CapTaint.Klee.Solver

/-! # CachingSolver

The solver that remembers partial validities. `opt` is the option `ConstArrayOpt`, and `less` tells whether
`Expr::compare` is negative, an order that depends on hashes. -/

namespace CapTaint.Klee

/-- `IncompleteSolver::PartialValidity`. -/
inductive PartialValidity
  | mustBeTrue
  | mustBeFalse
  /-- A true assignment is known to exist. -/
  | mayBeTrue
  /-- A false assignment is known to exist. -/
  | mayBeFalse
  | trueOrFalse
  | none
  deriving DecidableEq

def negatePartialValidity : PartialValidity → Except Abort PartialValidity
  | .mustBeTrue => .ok .mustBeFalse
  | .mustBeFalse => .ok .mustBeTrue
  | .mayBeTrue => .ok .mayBeFalse
  | .mayBeFalse => .ok .mayBeTrue
  | .trueOrFalse => .ok .trueOrFalse
  | .none => .error .assertion

namespace CachingSolver

structure CacheEntry where
  constraints : List Expr
  query : Expr
  deriving DecidableEq

/-- A call of the wrapped solver. -/
inductive Call
  | validity (query : Query)
  | truth (query : Query)
  deriving DecidableEq

structure State (σ : Type) where
  cache : List (CacheEntry × PartialValidity)
  solver : σ
  /-- The calls so far, which the source does not keep. -/
  calls : List Call

variable {σ : Type} (opt : Bool) (less : Expr → Expr → Bool) (impl : SolverImpl σ)

/-- The smaller one of the query and its negation, and whether it is the negation. -/
def canonicalizeQuery (originalQuery : Expr) : Except Abort (Expr × Bool) := do
  let negatedQuery ← originalQuery.createIsZero opt
  if less originalQuery negatedQuery then return (originalQuery, false)
  else return (negatedQuery, true)

/-- Between the validity of a query and that of its canonical version. -/
def orient (negationUsed : Bool) (pv : PartialValidity) : Except Abort PartialValidity :=
  if negationUsed then negatePartialValidity pv else .ok pv

def cacheLookup (query : Query) (st : State σ) : Except Abort (Option PartialValidity) := do
  let (canonicalQuery, negationUsed) ← canonicalizeQuery opt less query.expr
  match st.cache.lookup ⟨query.constraints, canonicalQuery⟩ with
  | some pv => return some (← orient negationUsed pv)
  | none => return none

/-- `insert` of the map leaves an entry that is there already. -/
def cacheInsert (query : Query) (result : PartialValidity) (st : State σ) : Except Abort (State σ) := do
  let (canonicalQuery, negationUsed) ← canonicalizeQuery opt less query.expr
  let cachedResult ← orient negationUsed result
  let ce : CacheEntry := ⟨query.constraints, canonicalQuery⟩
  if (st.cache.lookup ce).isSome then return st
  else return { st with cache := (ce, cachedResult) :: st.cache }

/-- `solver->impl->computeTruth`. -/
def askTruth (query : Query) (st : State σ) : Option Bool × State σ :=
  let (answer, solver) := impl.computeTruth query st.solver
  (answer, { st with solver := solver, calls := st.calls ++ [.truth query] })

/-- `solver->impl->computeValidity`. -/
def askValidity (query : Query) (st : State σ) : Option Validity × State σ :=
  let (answer, solver) := impl.computeValidity query st.solver
  (answer, { st with solver := solver, calls := st.calls ++ [.validity query] })

/-- The branches for a cached `MayBeTrue` and `MayBeFalse`: `asked` is the query whose truth decides. -/
def refine (query asked : Query) (must : PartialValidity) (result : Validity) (st : State σ) :
    Except Abort (Option Validity × State σ) :=
  match askTruth impl asked st with
  | (none, st) => .ok (none, st)
  | (some true, st) => do return (some result, ← cacheInsert opt less query must st)
  | (some false, st) => do return (some .Unknown, ← cacheInsert opt less query .trueOrFalse st)

def computeValidity (query : Query) (st : State σ) : Except Abort (Option Validity × State σ) := do
  match ← cacheLookup opt less query st with
  | some .mustBeTrue => return (some .True, st)
  | some .mustBeFalse => return (some .False, st)
  | some .trueOrFalse => return (some .Unknown, st)
  | some .mayBeTrue => refine opt less impl query query .mustBeTrue .True st
  | some .mayBeFalse => refine opt less impl query (← query.negateExpr opt) .mustBeFalse .False st
  | some .none => .error .assertion
  | none =>
    match askValidity impl query st with
    | (none, st) => return (none, st)
    | (some result, st) =>
      let cachedResult := match result with
        | .True => PartialValidity.mustBeTrue
        | .False => .mustBeFalse
        | .Unknown => .trueOrFalse
      return (some result, ← cacheInsert opt less query cachedResult st)

/-- The part of `computeTruth` that queries the solver. On a hit the cached result is `MayBeTrue`. -/
def queryTruth (query : Query) (cacheHit : Bool) (st : State σ) : Except Abort (Option Bool × State σ) :=
  match askTruth impl query st with
  | (none, st) => .ok (none, st)
  | (some isValid, st) => do
    -- with a true assignment known, a query that is not valid must be `TrueOrFalse`
    let cachedResult := if isValid then .mustBeTrue else if cacheHit then .trueOrFalse else .mayBeFalse
    return (some isValid, ← cacheInsert opt less query cachedResult st)

def computeTruth (query : Query) (st : State σ) : Except Abort (Option Bool × State σ) := do
  match ← cacheLookup opt less query st with
  | none => queryTruth opt less impl query false st
  | some .mayBeTrue => queryTruth opt less impl query true st
  | some cachedResult => return (some (cachedResult = .mustBeTrue), st)

/-! ### Histories -/

inductive Request
  | validity (query : Query)
  | truth (query : Query)
  deriving DecidableEq

def Request.query : Request → Query
  | .validity query => query
  | .truth query => query

/-- A request with its result, if the wrapped solver did not fail. -/
inductive Answer
  | validity (query : Query) (result : Option Validity)
  | truth (query : Query) (result : Option Bool)
  deriving DecidableEq

def Answer.request : Answer → Request
  | .validity query _ => .validity query
  | .truth query _ => .truth query

def step (st : State σ) : Request → Except Abort (Answer × State σ)
  | .validity query => do
    let (result, st) ← computeValidity opt less impl query st
    return (.validity query result, st)
  | .truth query => do
    let (result, st) ← computeTruth opt less impl query st
    return (.truth query result, st)

def run (st : State σ) : List Request → Except Abort (List Answer × State σ)
  | [] => .ok ([], st)
  | request :: requests => do
    let (answer, st) ← step opt less impl st request
    let (answers, st) ← run st requests
    return (answer :: answers, st)

/-- A new solver around one in state `s`. -/
def initial (s : σ) : State σ := ⟨[], s, []⟩

end CachingSolver

end CapTaint.Klee
