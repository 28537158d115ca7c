import CapTaint.Trace
import CapTaint.Lib.LiveSet

/-! # The filter of useful expressions

`DealWithSymbolicExpr` keeps the part of a trace that the branches and assertions depend on. The work list of its
two closures is the `std::set` that they fill, visited in the order of names. -/

namespace CapTaint
open Std LiveSet

/-! ## Expressions -/

/-- The name of a symbolic array: the full name of a shared access, which holds the mark of a load or a store. -/
structure SymbolName where
  name : String
  marked : (name.toList.any fun c => c == 'S' || c == 'L') = true
  deriving DecidableEq

/-- The expression kinds with one kid. -/
inductive UnaryKind
  | notOptimized | extract | zext | sext | not
  deriving DecidableEq

/-- The expression kinds with two kids. -/
inductive BinaryKind
  | concat | add | sub | mul | udiv | sdiv | urem | srem | and | or | xor | shl | lshr | ashr | eq | ne | ult | ule
  | ugt | uge | slt | sle | sgt | sge
  deriving DecidableEq

/-- Symbolic expressions by their kids. A read is known by its array. `concat` is a concatenation whose first kid
    is a read, as the symbols of loads and stores are; `binary .concat` is any other one. -/
inductive Expr
  | constant (value : Nat)
  | read (root : SymbolName)
  | concat (root : SymbolName) (rest : Expr)
  | unary (kind : UnaryKind) (kid : Expr)
  | binary (kind : BinaryKind) (left right : Expr)
  | select (condition trueExpr falseExpr : Expr)
  deriving DecidableEq

/-- An equation, as the listener writes one for a store: the stored value on the left, the new symbol on the right. -/
structure EqExpr where
  left : Expr
  right : Expr
  deriving DecidableEq

def EqExpr.toExpr (e : EqExpr) : Expr := .binary .eq e.left e.right

/-- `getVarName` of a full name: what stands before its first mark. -/
def beforeMark (fullName : String) : String := String.ofList (fullName.toList.takeWhile fun c => c ≠ 'S' ∧ c ≠ 'L')

/-- `DealWithSymbolicExpr::getVarName`. -/
def getVarName : Expr → String
  | .read root | .concat root _ => beforeMark root.name
  | _ => ""

/-- `Trace::getEvent`: the event of a full name; it fails where an assertion of the source does. `allReadSet` and
    `allWriteSet` are the sets as they were recorded. -/
def Trace.getEvent (trace : Trace) (name : String) : Option Event :=
  match name.toList.dropWhile fun c => c ≠ 'S' ∧ c ≠ 'L' with
  | [] => none
  | mark :: _ =>
    let all := (if mark = 'S' then trace.writeSet else trace.readSet)[beforeMark name]?
    all.bind fun events => events.find? fun event => event.globalVarFullName = name

/-- `DealWithSymbolicExpr::getFullName`, which asserts on the other kinds. -/
def getFullName : Expr → Option String
  | .read root | .concat root _ => some root.name
  | _ => none

/-- `DealWithSymbolicExpr::resolveSymbolicExpr`: the variables of the expression are added to the set. -/
def resolveSymbolicExpr : Expr → TreeSet String → TreeSet String
  | .constant _, related => related
  | .read root, related => related.insert (beforeMark root.name)
  | .concat root rest, related =>
    let related := related.insert (beforeMark root.name)
    if rest = .read root then related else resolveSymbolicExpr rest related
  | .unary _ kid, related => resolveSymbolicExpr kid related
  | .binary _ left right, related =>
    if left = right then resolveSymbolicExpr left related
    else resolveSymbolicExpr right (resolveSymbolicExpr left related)
  | .select condition trueExpr falseExpr, related =>
    resolveSymbolicExpr falseExpr (resolveSymbolicExpr trueExpr (resolveSymbolicExpr condition related))

def addExprToSet (expr related : TreeSet String) : TreeSet String := expr.toList.foldl TreeSet.insert related

/-! ## The closure of the branches -/

/-- The expressions that the symbolic listener leaves in a trace. -/
structure SymbolicExprs where
  storeSymbolicExpr : List EqExpr := []
  brSymbolicExpr : List Expr := []
  assertSymbolicExpr : List Expr := []

namespace DealWithSymbolicExpr

/-- The variables of each expression, the source's `brRelatedSymbolicExpr` and `assertRelatedSymbolicExpr`. -/
def relatedSymbolicExprs (exprs : List Expr) : List (TreeSet String) := exprs.map fun e => resolveSymbolicExpr e ∅

/-- The state of the loop over `allRelatedSymbolicExpr`. -/
structure Closure where
  allRelatedSymbolicExpr : TreeSet String
  /-- `remainingExpr`, whose target names are `remainingExprVarName`. -/
  remainingExpr : List EqExpr
  kQueryExpr : List EqExpr := []
  varRelatedSymbolicExpr : TreeMap String (TreeSet String) := ∅

/-- A store expression whose target is the visited variable. -/
def Closure.take (s : Closure) (varName : String) (e : EqExpr) : Closure :=
  let tempSymbolicExpr := resolveSymbolicExpr e.toExpr ∅
  { s with
    kQueryExpr := s.kQueryExpr ++ [e]
    varRelatedSymbolicExpr :=
      match s.varRelatedSymbolicExpr[varName]? with
      | some related => s.varRelatedSymbolicExpr.insert varName (addExprToSet tempSymbolicExpr related)
      | none => s.varRelatedSymbolicExpr.insert varName tempSymbolicExpr
    allRelatedSymbolicExpr := addExprToSet tempSymbolicExpr s.allRelatedSymbolicExpr }

/-- The inner loop: the remaining expressions with the target `varName` are taken out. -/
def Closure.visit (s : Closure) (varName : String) : Closure :=
  s.remainingExpr.foldl
    (fun s e =>
      if varName = getVarName e.right then s.take varName e else { s with remainingExpr := s.remainingExpr ++ [e] })
    { s with remainingExpr := [] }

/-- Every variable name that the loops can meet. -/
def allVarNames (symbolic : SymbolicExprs) : List String :=
  (symbolic.brSymbolicExpr ++ symbolic.assertSymbolicExpr ++ symbolic.storeSymbolicExpr.map EqExpr.toExpr).flatMap
    fun e => (resolveSymbolicExpr e ∅).toList

/-- The first half of `filterUseless`; each round of the loop visits one of the names, none twice. -/
def closure (symbolic : SymbolicExprs) : Closure :=
  let roots := relatedSymbolicExprs symbolic.brSymbolicExpr ++ relatedSymbolicExprs symbolic.assertSymbolicExpr
  liveLoop Closure.allRelatedSymbolicExpr Closure.visit ((allVarNames symbolic).length + 1) none
    { allRelatedSymbolicExpr := roots.foldl (fun all related => addExprToSet related all) ∅
      remainingExpr := symbolic.storeSymbolicExpr }

/-! ## Threads of a variable -/

/-- One entry of the read or the write set: the thread of the variable becomes 0 when another thread shows up. The
    lists of the two sets are never empty. -/
def markThread (varThread : TreeMap String Int) (varName : String) (events : List Event) : TreeMap String Int :=
  match events with
  | [] => varThread
  | first :: _ =>
    let varThread := if varName ∈ varThread then varThread else varThread.insert varName first.threadId
    let id := varThread.getD varName 0
    if id ≠ 0 ∧ ∃ event ∈ events, id ≠ event.threadId then varThread.insert varName 0 else varThread

/-- `varThread` of a trace whose read and write sets are filtered: -1 for a variable that is not written. -/
def varThreadOf (readSet writeSet : TreeMap String (List Event)) : TreeMap String Int :=
  let varThread := readSet.toList.foldl (fun table entry => markThread table entry.1 entry.2) ∅
  let varThread := writeSet.toList.foldl (fun table entry => markThread table entry.1 entry.2) varThread
  varThread.map fun varName id => if varName ∈ writeSet then id else -1

/-! ## The filter -/

/-- `DealWithSymbolicExpr::fillterTrace` on the three tables of the encoder. -/
def fillterTrace (trace : Trace) (relatedSymbolicExpr : TreeSet String) : Trace :=
  { trace with
    usefulReadSet := trace.readSet.filter fun varName _ => varName ∈ relatedSymbolicExpr
    usefulWriteSet := trace.writeSet.filter fun varName _ => varName ∈ relatedSymbolicExpr
    usefulGlobalVariableInitializer :=
      trace.globalVariableInitializer.filter fun varName => varName ∈ relatedSymbolicExpr }

/-- What `filterUseless` computes for a trace. -/
structure Filtered where
  trace : Trace
  allRelatedSymbolicExpr : TreeSet String
  brRelatedSymbolicExpr : List (TreeSet String)
  assertRelatedSymbolicExpr : List (TreeSet String)
  kQueryExpr : List EqExpr
  varRelatedSymbolicExpr : TreeMap String (TreeSet String)
  varThread : TreeMap String Int

/-- `DealWithSymbolicExpr::filterUseless`, which is called once for a trace. -/
def filterUseless (trace : Trace) (symbolic : SymbolicExprs) : Filtered :=
  let s := closure symbolic
  let all := s.allRelatedSymbolicExpr
  let readSet := trace.readSet.filter fun varName _ => varName ∈ all
  let writeSet := trace.writeSet.filter fun varName _ => varName ∈ all
  let globalVariableInitializer := trace.globalVariableInitializer.filter fun varName => varName ∈ all
  { trace := fillterTrace
      { trace with
        readSet := readSet, allReadSet := trace.readSet
        writeSet := writeSet, allWriteSet := trace.writeSet
        globalVariableInitializer := globalVariableInitializer } all
    allRelatedSymbolicExpr := all
    brRelatedSymbolicExpr := relatedSymbolicExprs symbolic.brSymbolicExpr
    assertRelatedSymbolicExpr := relatedSymbolicExprs symbolic.assertSymbolicExpr
    kQueryExpr := s.kQueryExpr
    varRelatedSymbolicExpr := s.varRelatedSymbolicExpr
    varThread := varThreadOf readSet writeSet }

/-- The loop of `filterUselessWithSet` over `RelatedSymbolicExpr`. -/
def relatedClosure (varRelatedSymbolicExpr : TreeMap String (TreeSet String)) (relatedSymbolicExpr : TreeSet String) :
    TreeSet String :=
  let names := relatedSymbolicExpr.toList ++ varRelatedSymbolicExpr.toList.flatMap fun entry => entry.2.toList
  liveLoop id
    (fun related varName =>
      match varRelatedSymbolicExpr[varName]? with
      | some expr => addExprToSet expr related
      | none => related)
    (names.length + 1) none (addExprToSet relatedSymbolicExpr ∅)

/-- `DealWithSymbolicExpr::filterUselessWithSet`. `varThread[name]` is 0 for a name without an entry. -/
def filterUselessWithSet (filtered : Filtered) (relatedSymbolicExpr : TreeSet String) : Bool :=
  (relatedClosure filtered.varRelatedSymbolicExpr relatedSymbolicExpr).toList.any fun varName =>
    filtered.varThread.getD varName 0 == 0

end DealWithSymbolicExpr
end CapTaint
