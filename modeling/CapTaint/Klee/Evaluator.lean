import CapTaint.Klee.Constraints

/-! # Evaluation

`ExprEvaluator` and `Assignment`. Every array of the program has the default domain of 32 bits, so that an index fits
`unsigned`. -/

namespace CapTaint.Klee

namespace ExprEvaluator

variable (opt useVisitorHash : Bool) (getInitialValue : Array → Nat → Expr)

section
variable (visit : Expr → Visited → Except Abort (Expr × Visited))

/-- The read at a concrete index; `visit` does the recursive calls. -/
def evalRead (index : Nat) : UpdateList → Visited → Except Abort (Expr × Visited)
  | .root array, visited =>
    if array.isConstantArray ∧ index < array.size then
      match array.constantValues[index]? with
      | some value => .ok (.constant array.range value, visited)
      | none => .error .assertion
    else .ok (getInitialValue array index, visited)
  | .extend next updateIndex value, visited => do
    let (ui, visited) ← visit updateIndex visited
    match ui with
    | .constant _ c => if c.toNat = index then visit value visited else evalRead index next visited
    | _ => do
      -- the update may or may not be at the index: a read at this version
      let ul := UpdateList.extend next updateIndex value
      let read ← ReadExpr.create opt ul (.constant ul.array.domain (BitVec.ofNat _ index))
      return (read, visited)

/-- `DoChildren` of `visitActual`. -/
def doChildren (e : Expr) (visited : Visited) : Except Abort (Expr × Visited) := do
  let (kids, visited) ← ExprVisitor.visitKids visit e.kids visited
  if kids = e.kids then return (e, visited)
  else return (← e.rebuild opt kids, visited)

def visitRead (updates : UpdateList) (index : Expr) (visited : Visited) : Except Abort (Expr × Visited) := do
  let (v, visited) ← visit index visited
  match v with
  | .constant _ c => evalRead opt getInitialValue visit c.toNat updates visited
  | _ => doChildren opt visit (.read updates index) visited

/-- A divisor that evaluates to zero is left as it was. -/
def protectedDivisor (right : Expr) : Expr → Expr
  | .constant w c => if c = 0 then right else .constant w c
  | r => r

def protectedDivOperation (kind : ArithKind) (left right : Expr) (visited : Visited) : Except Abort (Expr × Visited) := do
  let (l, visited) ← visit left visited
  let (r, visited) ← visit right visited
  let r := protectedDivisor right r
  if l ≠ left ∨ r ≠ right then return (← (Expr.arith kind left right).rebuild opt [l, r], visited)
  else return (.arith kind left right, visited)

/-- What `visitExpr` folds: constants only, and no read. -/
def folds : Expr → Bool
  | .read _ _ => false
  | e => e.kids.all Expr.isConstant

def visitActual (e : Expr) (visited : Visited) : Except Abort (Expr × Visited) :=
  if e.isConstant then .ok (e, visited)
  else if folds e then do return (← e.rebuild opt e.kids, visited)
  else
    match e with
    | .read updates index => visitRead opt getInitialValue visit updates index visited
    | .arith kind left right =>
      if divides kind then protectedDivOperation opt visit kind left right visited
      else doChildren opt visit (.arith kind left right) visited
    | e => doChildren opt visit e visited

end

def visit : Nat → Expr → Visited → Except Abort (Expr × Visited)
  | 0, _, _ => .error .unfinished
  | fuel + 1, e, visited =>
    ExprVisitor.remember useVisitorHash e visited (visitActual opt getInitialValue (visit fuel) e visited)

end ExprEvaluator

/-- The bytes of arrays, in the order of the addresses. -/
structure Assignment where
  bindings : List (Array × List Nat)
  deriving DecidableEq

namespace Assignment

/-- `insert` of a map from addresses, which leaves an entry that is there already. -/
def insertBinding (object : Array) (bytes : List Nat) : List (Array × List Nat) → List (Array × List Nat)
  | [] => [(object, bytes)]
  | binding :: bindings =>
    if object = binding.1 then binding :: bindings
    else if object.id < binding.1.id then (object, bytes) :: binding :: bindings
    else binding :: insertBinding object bytes bindings

def ofValues (objects : List Array) (values : List (List Nat)) : Assignment :=
  ⟨(objects.zip values).foldl (fun bindings binding => insertBinding binding.1 binding.2 bindings) []⟩

variable (opt useVisitorHash : Bool) (a : Assignment)

/-- The byte of an array, without free values. -/
def byteOf (array : Array) (index : Nat) : Nat := ((a.bindings.lookup array).bind (·[index]?)).getD 0

def evaluateByte (array : Array) (index : Nat) : Expr :=
  .constant array.range (BitVec.ofNat array.range (a.byteOf array index))

def visit (e : Expr) (visited : Visited) : Except Abort (Expr × Visited) :=
  ExprEvaluator.visit opt useVisitorHash a.evaluateByte (e.weight + 1) e visited

def evaluate (e : Expr) : Created := do
  let (e, _) ← a.visit opt useVisitorHash e []
  return e

def isTrue (e : Expr) : Except Abort Bool :=
  if e.getWidth ≠ 1 then .error .assertion else .ok (e = boolean true)

/-- One evaluator for all of the expressions. -/
def satisfiesFrom : List Expr → Visited → Except Abort Bool
  | [], _ => .ok true
  | e :: es, visited => do
    let (e, visited) ← a.visit opt useVisitorHash e visited
    if !(← isTrue e) then return false
    else satisfiesFrom es visited

def satisfies (es : List Expr) : Except Abort Bool := a.satisfiesFrom opt useVisitorHash es []

end Assignment

end CapTaint.Klee
