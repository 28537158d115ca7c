import CapTaint.DealWithSymbolicExpr

/-! # The value equations of shared loads

`SymbolicListener` gives a shared load a new symbol and records that the symbol has the loaded value, once in
`rwSymbolicExpr` and, in the same place, the event in `rwEvent`. `filterUseless` filters one of the two vectors, and
`buildifAndassert` zips them by index. -/

namespace CapTaint
open Std

/-- The types of a loaded value that the listener tells apart. -/
inductive LoadedType
  | floating | integer | pointer | other
  deriving DecidableEq

/-- An executed load: its event, the type of the value, the value, and the symbol that `manualMakeSymbolic` makes for it. -/
structure Load where
  event : Event
  type : LoadedType
  value : Expr
  symbolic : Expr
  /-- The new array has the full name of the event. -/
  named : getFullName symbolic = some event.globalVarFullName
  deriving DecidableEq

def Load.constraint (load : Load) : EqExpr := { left := load.value, right := load.symbolic }

/-- The two vectors of a trace. -/
structure RwTables where
  rwSymbolicExpr : List EqExpr := []
  rwEvent : List Event := []
  deriving DecidableEq

namespace SymbolicListener

/-- The load of a shared variable that is not a pointer, with `PTR` off. -/
def isRecorded (load : Load) : Bool := load.event.isGlobal && (load.type == .floating || load.type == .integer)

/-- The `Load` case of `SymbolicListener::instructionExecuted`. -/
def instructionExecuted (t : RwTables) (load : Load) : RwTables :=
  if isRecorded load then
    { rwSymbolicExpr := t.rwSymbolicExpr ++ [load.constraint], rwEvent := t.rwEvent ++ [load.event] }
  else t

def record (loads : List Load) : RwTables := loads.foldl instructionExecuted {}

end SymbolicListener

/-- The part of `DealWithSymbolicExpr::filterUseless` on the equations; `rwEvent` stays as it is. -/
def DealWithSymbolicExpr.filterRw (t : RwTables) (allRelatedSymbolicExpr : TreeSet String) : RwTables :=
  { t with rwSymbolicExpr := t.rwSymbolicExpr.filter fun e => getVarName e.right ∈ allRelatedSymbolicExpr }

/-- `rwFormula` as `Encode::buildifAndassert` builds it with `KQuery2Z3::getZ3Expr`; no result where `rwEvent` is read
    behind its end. -/
def Encode.rwFormula {F : Type} (getZ3Expr : EqExpr → F) (t : RwTables) : Option (List (Event × F)) :=
  t.rwSymbolicExpr.zipIdx.mapM fun entry => (t.rwEvent[entry.2]?).map fun event => (event, getZ3Expr entry.1)

end CapTaint
