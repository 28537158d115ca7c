import CapTaint.Lib.Worklist
import CapTaint.Klee.Constraints
import CapTaint.Klee.Solver

/-! # IndependentSolver

The solver that passes on only the constraints that have to do with the query expression, which it knows by the reads in
them. -/

namespace CapTaint.Klee

open Worklist

/-! ### findReads -/

/-- The indices and values of the update nodes. -/
def UpdateList.kids : UpdateList → List Expr
  | .root _ => []
  | .extend next index value => index :: value :: next.kids

/-- The kids, and for a read what its update nodes have. -/
def Expr.parts : Expr → List Expr
  | .read updates index => index :: updates.kids
  | e => e.kids

/-- What a visit pushes unless it is visited. Update nodes that have been met before have nothing that is not visited. -/
def Expr.toVisit (e : Expr) : List Expr := e.parts.filter (!·.isConstant)

mutual
/-- All that can be pushed. -/
def Expr.subexpressions (e : Expr) : List Expr :=
  e :: match e with
    | .constant _ _ => []
    | .notOptimized src => src.subexpressions
    | .read updates index => index.subexpressions ++ updates.subexpressions
    | .select cond trueExpr falseExpr => cond.subexpressions ++ trueExpr.subexpressions ++ falseExpr.subexpressions
    | .concat left right => left.subexpressions ++ right.subexpressions
    | .extract expr _ _ => expr.subexpressions
    | .zext src _ => src.subexpressions
    | .sext src _ => src.subexpressions
    | .not expr => expr.subexpressions
    | .arith _ left right => left.subexpressions ++ right.subexpressions
    | .cmp _ left right => left.subexpressions ++ right.subexpressions

def UpdateList.subexpressions : UpdateList → List Expr
  | .root _ => []
  | .extend next index value => index.subexpressions ++ value.subexpressions ++ next.subexpressions
end

/-- A `ReadExpr`. -/
structure ReadExpr where
  updates : UpdateList
  index : Expr

def Expr.toRead : Expr → Option ReadExpr
  | .read updates index => some ⟨updates, index⟩
  | _ => none

/-- `findReads`, which visits the updates. -/
def findReads (e : Expr) : List ReadExpr :=
  if e.isConstant then []
  else Search.collect Expr.toVisit (fun top => top.toRead.toList) e.subexpressions.length ⟨[e], [e]⟩ []

/-! ### IndependentElementSet -/

/-- The bytes of arrays, by their indices, and arrays as a whole. -/
structure IndependentElementSet where
  elements : AList fun _ : Array => Finset Nat
  wholeObjects : List Array

namespace IndependentElementSet

/-- The body of the loop in the constructor. `getZExtValue(32)` asserts that the index has at most 32 bits. -/
def addRead (s : IndependentElementSet) (re : ReadExpr) : Except Abort IndependentElementSet :=
  let array := re.updates.array
  if array.isConstantArray ∧ re.updates.nodes.isEmpty then .ok s
  else if array ∈ s.wholeObjects then .ok s
  else
    match re.index with
    | .constant width value =>
      if width ≤ 32 then
        .ok { s with elements := s.elements.insert array (insert value.toNat ((s.elements.lookup array).getD ∅)) }
      else .error .assertion
    | _ => .ok { elements := s.elements.erase array, wholeObjects := s.wholeObjects.insert array }

/-- The constructor. -/
def ofExpr (e : Expr) : Except Abort IndependentElementSet := (findReads e).foldlM addRead ⟨∅, []⟩

def intersects (s b : IndependentElementSet) : Bool :=
  (s.wholeObjects.any fun array => array ∈ b.wholeObjects ∨ array ∈ b.elements) ||
    s.elements.entries.any fun entry => entry.1 ∈ b.wholeObjects ∨ ¬Disjoint entry.2 ((b.elements.lookup entry.1).getD ∅)

/-- The body of the first loop of `add`. The second component is `modified`. -/
def addWhole (s : IndependentElementSet × Bool) (array : Array) : IndependentElementSet × Bool :=
  if array ∈ s.1.elements then
    (⟨s.1.elements.erase array, s.1.wholeObjects.insert array⟩, true)
  else if array ∉ s.1.wholeObjects then (⟨s.1.elements, s.1.wholeObjects.insert array⟩, true)
  else s

/-- The body of the second loop of `add`. -/
def addElements (s : IndependentElementSet × Bool) (array : Array) (dis : Finset Nat) : IndependentElementSet × Bool :=
  if array ∈ s.1.wholeObjects then s
  else
    match s.1.elements.lookup array with
    | none => (⟨s.1.elements.insert array dis, s.1.wholeObjects⟩, true)
    | some old => (⟨s.1.elements.insert array (old ∪ dis), s.1.wholeObjects⟩, s.2 || decide ¬dis ⊆ old)

def add (s b : IndependentElementSet) : IndependentElementSet × Bool :=
  b.elements.entries.foldl (fun s entry => addElements s entry.1 entry.2) (b.wholeObjects.foldl addWhole (s, false))

end IndependentElementSet

/-! ### getIndependentConstraints -/

structure Selection where
  eltsClosure : IndependentElementSet
  result : List Expr
  newWorklist : List (Expr × IndependentElementSet)
  done : Bool

/-- The body of the inner loop. -/
def Selection.examine (st : Selection) (entry : Expr × IndependentElementSet) : Selection :=
  if entry.2.intersects st.eltsClosure then
    let added := st.eltsClosure.add entry.2
    { st with eltsClosure := added.1, result := st.result ++ [entry.1], done := st.done && !added.2 }
  else { st with newWorklist := st.newWorklist ++ [entry] }

/-- The outer loop, which goes around at most once for each constraint and once more. -/
def selectLoop : Nat → IndependentElementSet → List Expr → List (Expr × IndependentElementSet) →
    Except Abort (IndependentElementSet × List Expr)
  | 0, _, _, _ => .error .unfinished
  | fuel + 1, eltsClosure, result, worklist =>
    let st := worklist.foldl Selection.examine ⟨eltsClosure, result, [], true⟩
    if st.done then .ok (st.eltsClosure, st.result) else selectLoop fuel st.eltsClosure st.result st.newWorklist

def getIndependentConstraints (query : Query) : Except Abort (IndependentElementSet × List Expr) := do
  let eltsClosure ← IndependentElementSet.ofExpr query.expr
  let sets ← query.constraints.mapM IndependentElementSet.ofExpr
  selectLoop (query.constraints.length + 1) eltsClosure [] (query.constraints.zip sets)

/-! ### The solver -/

namespace IndependentSolver

variable {σ : Type} (impl : SolverImpl σ)

/-- The query that is passed on. -/
def required (query : Query) : Except Abort Query := do
  let selected ← getIndependentConstraints query
  return ⟨selected.2, query.expr⟩

def computeTruth (query : Query) (s : σ) : Except Abort (Option Bool × σ) := do
  return impl.computeTruth (← required query) s

def computeValidity (query : Query) (s : σ) : Except Abort (Option Validity × σ) := do
  return impl.computeValidity (← required query) s

def computeValue (query : Query) (s : σ) : Except Abort (Option Expr × σ) := do
  return impl.computeValue (← required query) s

end IndependentSolver

/-! ### findReads on a heap

`findReads` on expressions that share their parts. The expressions that have been visited are told apart by their structure,
and the update lists by the addresses of their heads. -/

structure UpdateNode (Obj Node : Type) where
  address : Node
  index : Obj
  value : Obj

def UpdateNode.parts {Obj Node : Type} (un : UpdateNode Obj Node) : List Obj := [un.index, un.value]

/-- The indices and values in the updates of a read. -/
def Expr.updateParts : Expr → List Expr
  | .read updates _ => updates.kids
  | _ => []

def Expr.isRead (e : Expr) : Bool := e.toRead.isSome

/-- Objects on a heap: each stands for an expression. The nodes of a read are those from the head of its updates on, and
    the nodes behind an address are always the same. -/
structure ExprDag (Obj Node : Type) where
  structureOf : Obj → Expr
  getKids : Obj → List Obj
  updates : Obj → List (UpdateNode Obj Node)
  getKids_structure : ∀ o, (getKids o).map structureOf = (structureOf o).kids
  updates_structure : ∀ o, ((updates o).flatMap UpdateNode.parts).map structureOf = (structureOf o).updateParts
  updates_shared : ∀ o o', (updates o).head?.map UpdateNode.address = (updates o').head?.map UpdateNode.address →
    updates o = updates o'

namespace ExprDag

variable {Obj Node : Type} [DecidableEq Node] (dag : ExprDag Obj Node)

/-- The head of the updates, which may be null. -/
def head (o : Obj) : Option Node := (dag.updates o).head?.map UpdateNode.address

/-- The variables of `findReads`, the stack with its top first. -/
structure ReadSearch (Obj Node : Type) where
  stack : List Obj
  visited : List Expr
  updates : List (Option Node)
  results : List Obj

/-- An expression that is not constant and has not been visited goes on the stack. -/
def push (s : ReadSearch Obj Node) (e : Obj) : ReadSearch Obj Node :=
  if (dag.structureOf e).isConstant ∨ dag.structureOf e ∈ s.visited then s
  else { s with visited := dag.structureOf e :: s.visited, stack := e :: s.stack }

/-- The walk through the update nodes, unless their head has been met. -/
def pushUpdates (s : ReadSearch Obj Node) (re : Obj) : ReadSearch Obj Node :=
  if dag.head re ∈ s.updates then s
  else ((dag.updates re).flatMap UpdateNode.parts).foldl dag.push { s with updates := dag.head re :: s.updates }

/-- The body of the loop, with the top of the stack. The only kid of a read is its index. -/
def visit (visitUpdates : Bool) (top : Obj) (s : ReadSearch Obj Node) : ReadSearch Obj Node :=
  if (dag.structureOf top).isRead then
    let s := (dag.getKids top).foldl dag.push { s with results := s.results ++ [top] }
    if visitUpdates then dag.pushUpdates s top else s
  else (dag.getKids top).foldl dag.push s

/-- The loop. There is no result when the steps are used up. -/
def searchReads (visitUpdates : Bool) : Nat → ReadSearch Obj Node → Option (List Obj)
  | 0, s => if s.stack.isEmpty then some s.results else none
  | fuel + 1, s =>
    match s.stack with
    | [] => some s.results
    | top :: stack => searchReads visitUpdates fuel (dag.visit visitUpdates top { s with stack := stack })

def findReads (visitUpdates : Bool) (fuel : Nat) (e : Obj) : Option (List Obj) :=
  if (dag.structureOf e).isConstant then some []
  else dag.searchReads visitUpdates fuel ⟨[e], [dag.structureOf e], [], []⟩

end ExprDag

end CapTaint.Klee
