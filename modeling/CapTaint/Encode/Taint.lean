import CapTaint.DealWithSymbolicExpr
import CapTaint.Encode.ReadWrite

/-! # Tags

The formulas of `Encode::PTS` give each shared access a Boolean constant, its tag. `TaintListener` has collected for them
how the tag of a store follows from the tags of loads, and the names of the sources of taint. -/

namespace CapTaint
open Std Smt

/-! ## What the replay collects -/

/-- What `TaintListener` knows of a stored value: whether its type is an integer or a float, the width of the type, and the
    arrays of the symbols that the value is computed from. -/
structure StoredValue where
  isNumber : Bool
  width : Nat
  related : List SymbolName

namespace TaintListener

/-- The new symbol is read as a whole: one bit of a byte, a byte, or the bytes of a longer value. -/
def manualMakeTaintSymbolic (name : SymbolName) (width : Nat) : Expr :=
  if width = 1 then .unary .extract (.read name)
  else (List.range (width / 8 - 1)).foldl (fun rest _ => .concat name rest) (.read name)

/-- `OrExpr::create`, which leaves a zero out. -/
def createOr : Expr → Expr → Expr
  | .constant 0, right => right
  | left, right => .binary .or left right

/-- The equation for a store. -/
def taintConstraint (name : SymbolName) (value : StoredValue) : EqExpr where
  left := value.related.foldl (fun temp orName => createOr temp (manualMakeTaintSymbolic orName value.width)) (.constant 0)
  right := manualMakeTaintSymbolic name value.width

/-- The name of a symbolic array; shared stores have marked names. -/
def symbolName (name : String) : Option SymbolName :=
  if h : (name.toList.any fun c => c == 'S' || c == 'L') = true then some ⟨name, h⟩ else none

/-- A store of a number to a shared location. -/
def storesNumber (stored : Event → StoredValue) (event : Event) : Bool :=
  match event.inst with
  | .store _ isPointerTy => !isPointerTy && event.isGlobal && (stored event).isNumber
  | _ => false

/-- What a store adds to `taintExpr`. -/
def storeConstraint (stored : Event → StoredValue) (event : Event) : Option EqExpr :=
  if storesNumber stored event then
    (symbolName event.globalVarFullName).map fun name => taintConstraint name (stored event)
  else none

def taintExpr (trace : Trace) (stored : Event → StoredValue) : List EqExpr :=
  trace.path.filterMap (storeConstraint stored)

/-- What a call of `make_taint` adds to `initTaintSymbolicExpr`. -/
def sourceName (event : Event) : Option String :=
  match event.inst with
  | .call (.makeTaint _) => some event.globalVarFullName
  | _ => none

def initTaintSymbolicExpr (trace : Trace) : TreeSet String := (trace.path.filterMap sourceName).foldl TreeSet.insert ∅

end TaintListener

/-! ## The formulas -/

namespace Encode

def tag (name : String) : Formula := .boolConst (name ++ "_tag")

def buildInitTaintFormula (trace : Trace) : List Formula :=
  trace.globalVariableInitializer.toList.map fun var => (tag (initName var)).iff (.bool false)

def taintReadFromWriteFormula (read write : Event) (var : String) : Formula :=
  (tag read.globalVarFullName).iff (tag (writeVarName write var))

def taintReadFromInitFormula (trace : Trace) (read : Event) : Option Formula :=
  if read.varName ∈ trace.globalVariableInitializer then
    some ((tag read.globalVarFullName).iff (tag (initName read.varName)))
  else none

/-- The writes that `read` may see, among those before the filter. -/
def mayBeTainted (trace : Trace) (var : String) (read : Event) : List Event :=
  (trace.allWriteSet.getD var []).filter (·.threadId ≠ read.threadId) ++ (trace.latestWrite read).toList

/-- The read is before every candidate. -/
def orderAtInit (trace : Trace) (read : Event) (candidates : List Event) : List Formula :=
  candidates.map fun w => .lt (order trace read) (order trace w)

/-- The read is behind the candidate number `i`, and the other candidates are not between the two. -/
def orderAtWrite (trace : Trace) (read : Event) (candidates : List Event) (i : Nat) (write : Event) : List Formula :=
  let rw : Formula := .lt (order trace write) (order trace read)
  let rw : Formula :=
    match candidates[i + 1]? with
    | some next => if next.threadId = write.threadId then .and rw (.lt (order trace read) (order trace next)) else rw
    | none => rw
  let others := candidates.zipIdx.filter fun item => ¬(item.2 = i ∨ item.1.threadId = write.threadId)
  rw :: others.map fun item => enumerateOrder trace read write item.1

/-- The disjuncts of a read that may see `candidates`: the initial value, under the equation `equalInit`, and each of the
    candidates. -/
def matchRead (trace : Trace) (read : Event) (candidates : List Event) (equalInit : Option Formula)
    (equal : Event → Formula) : List Formula :=
  (if trace.latestWrite read = none then
    equalInit.toList.map fun equality => makeExprsAnd (equality :: orderAtInit trace read candidates)
  else []) ++
  candidates.mapIdx fun i write => makeExprsAnd (equal write :: orderAtWrite trace read candidates i write)

/-- The disjuncts for the values have this shape too. -/
theorem oneVarAllRead_eq (trace : Trace) (var : String) (read : Event) :
    oneVarAllRead trace var read =
      matchRead trace read (mayBeRead trace var read) (readFromInitFormula trace read) fun write =>
        readFromWriteFormula read write var := by
  unfold oneVarAllRead matchRead readFromInit
  congr 1
  split
  · cases readFromInitFormula trace read <;> rfl
  · rfl

/-- The formula of a read: of a variable that may be tainted, it has the tag of what it reads. -/
def taintMatch (trace : Trace) (potential : TreeSet String) (var : String) (read : Event) : Formula :=
  if var ∈ potential then
    makeExprsOr (matchRead trace read (mayBeTainted trace var read) (taintReadFromInitFormula trace read) fun write =>
      taintReadFromWriteFormula read write var)
  else (tag read.globalVarFullName).iff (.bool false)

/-- `potential` is `potentialTaintSymbolicExpr`. -/
def buildTaintMatchFormula (trace : Trace) (potential : TreeSet String) : List Formula :=
  trace.allReadSet.toList.flatMap fun entry => entry.2.map (taintMatch trace potential entry.1)

/-- The tag of a value; the cast of the first kid of a concatenation may fail. Three kids give no tag. -/
def makeOrTaint : Expr → Option Formula
  | .read root | .concat root _ => some (tag root.name)
  | .constant _ => some (.bool false)
  | .unary _ kid => makeOrTaint kid
  | .binary .concat _ _ => none
  | .binary _ left right => do
    let left ← makeOrTaint left
    let right ← makeOrTaint right
    some (.or left right)
  | .select _ _ _ => some (.bool false)

def taintPropagation (init : TreeSet String) (value : EqExpr) : Option Formula := do
  let varName ← getFullName value.right
  if varName ∈ init then some ((Formula.bool true).iff (tag varName))
  else
    let lhs ← makeOrTaint value.left
    some (lhs.iff (tag varName))

def buildTaintProgatationFormula (taintExpr : List EqExpr) (init : TreeSet String) : Option (List Formula) :=
  taintExpr.mapM (taintPropagation init)

/-- The last three parts of `Encode::buildPTSFormula`. -/
def buildTaintFormula (trace : Trace) (stored : Event → StoredValue) (potential : TreeSet String) : Option (List Formula) := do
  let propagation ←
    buildTaintProgatationFormula (TaintListener.taintExpr trace stored) (TaintListener.initTaintSymbolicExpr trace)
  some (buildInitTaintFormula trace ++ buildTaintMatchFormula trace potential ++ propagation)

end Encode
end CapTaint
