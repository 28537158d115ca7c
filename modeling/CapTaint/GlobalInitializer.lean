import CapTaint.Event
import CapTaint.DataLayout

/-! # Initial values of global variables

`PSOListener::handleInitializer`: one running address goes through an initializer, and its numbers are put into the table of
initial values under the names of their addresses. -/

namespace CapTaint

open Cursor (roundUp)

/-- `ConstantInt` and `ConstantFP`. -/
inductive Number
  | int (width : Nat) (value : BitVec width)
  | fp (kind : FloatKind) (value : BitVec kind.sizeInBits)
  deriving DecidableEq, Repr

def Number.type : Number → ScalarType
  | int width _ => .integer width
  | fp kind _ => .floating kind

/-- The constants without parts: with the numbers, null pointers and `getelementptr` expressions on global variables. -/
inductive ScalarConstant
  | number (value : Number)
  | null
  | gep (global : Nat)
  deriving DecidableEq, Repr

def ScalarConstant.type : ScalarConstant → ScalarType
  | .number value => value.type
  | .null | .gep _ => .pointer

/-- The null value of a type. -/
def nullValue : ScalarType → ScalarConstant
  | .integer width => .number (.int width 0)
  | .floating kind => .number (.fp kind 0)
  | .pointer => .null

/-- `llvm::Constant` -/
inductive Constant
  | scalar (constant : ScalarConstant)
  | dataArray (element : ScalarType) (elements : List Number)
  | aggregateZero (type : LType)
  | array (element : LType) (elements : List Constant)
  | struct (name : String) (fields : List Constant)

mutual
def Constant.type : Constant → LType
  | .scalar constant => .scalar constant.type
  | .dataArray element elements => .array (.scalar element) elements.length
  | .aggregateZero type => type
  | .array element elements => .array element elements.length
  | .struct name fields => .struct name (fieldTypes fields)

def fieldTypes : List Constant → List LType
  | [] => []
  | field :: fields => field.type :: fieldTypes fields
end

/-- A global variable with an initializer, and the object that holds it. -/
structure GlobalVariable where
  initializer : Constant
  memory : Location

namespace PSOListener

/-- What goes into `global_variable_initializer`, and the running address. -/
structure InitState where
  initialized : List (String × Number) := []
  startAddress : Nat
  deriving DecidableEq, Repr

namespace InitState

variable (s : InitState)

def align (alignment : Nat) : InitState := { s with startAddress := roundUp alignment s.startAddress }

def advance (size : Nat) : InitState := { s with startAddress := s.startAddress + size }

/-- `insertGlobalVariableInitializer` under the name of the running address. -/
def insert (mo : Location) (number : Number) : InitState :=
  { s with initialized := s.initialized ++ [(createVarName { mo with address := s.startAddress }, number)] }

end InitState

section
variable (layout : DataLayout) (handleGlobal : Nat → Option (List (String × Number))) (mo : Location)

/-- The branches of `ConstantInt` and `ConstantFP`. -/
def handleNumber (number : Number) (s : InitState) : InitState :=
  ((s.align (layout.abiAlignment number.type)).insert mo number).advance (layout.scalarSizeInBits number.type / 8)

/-- `handleConstantExpr` handles the initializer of the variable at its own address. The running address stays. -/
def handleConstantExpr (global : Nat) (s : InitState) : Option InitState :=
  (handleGlobal global).map fun initialized => { s with initialized := s.initialized ++ initialized }

def handleScalar : ScalarConstant → InitState → Option InitState
  | .number number, s => some (handleNumber layout mo number s)
  | .null, s => some ((s.align (layout.abiAlignment .pointer)).advance (layout.scalarSizeInBits .pointer / 8))
  | .gep global, s => handleConstantExpr handleGlobal global s

/-- The structs of the thread library are passed over. -/
def passSpecial (type : LType) (s : InitState) : InitState :=
  (s.align (layout.getABITypeAlignment type)).advance (layout.getTypeSizeInBits type / 8)

mutual
/-- The initializer is the null value of the type. -/
def handleAggregateZero : LType → InitState → Option InitState
  | .scalar type, s => handleScalar layout handleGlobal mo (nullValue type) s
  | .vector element num, s => (List.range num).foldlM (fun s _ => handleScalar layout handleGlobal mo (nullValue element) s) s
  -- an `unsigned` index does not come to the end of more elements
  | .array element num, s =>
    if num < 2 ^ 32 then (List.range num).foldlM (fun s _ => handleAggregateZero element s) s else none
  | .struct name elements, s =>
    if (specialOf name).isSome then some (passSpecial layout (.struct name elements) s) else handleAggregateZeros elements s

def handleAggregateZeros : List LType → InitState → Option InitState
  | [], s => some s
  | element :: elements, s => do handleAggregateZeros elements (← handleAggregateZero element s)
end

mutual
def handleInitializer : Constant → InitState → Option InitState
  | .scalar constant, s => handleScalar layout handleGlobal mo constant s
  | .dataArray _ elements, s =>
    if elements.length < 2 ^ 32 then some (elements.foldl (fun s number => handleNumber layout mo number s) s) else none
  | .aggregateZero type, s => handleAggregateZero layout handleGlobal mo type s
  | .array _ elements, s => handleInitializers elements s
  | .struct name fields, s =>
    if (specialOf name).isSome then some (passSpecial layout (Constant.struct name fields).type s) else handleInitializers fields s

def handleInitializers : List Constant → InitState → Option InitState
  | [], s => some s
  | constant :: constants, s => do handleInitializers constants (← handleInitializer constant s)
end

end

/-- The initializer of a variable at the address of its object. The nesting of the calls is bounded by `fuel`, and an operand
    that is no variable with an initializer stops the program. -/
def handleGlobal (layout : DataLayout) (globals : Nat → Option GlobalVariable) : Nat → Nat → Option (List (String × Number))
  | 0, _ => none
  | fuel + 1, global => (globals global).bind fun variable' =>
    (handleInitializer layout (handleGlobal layout globals fuel) variable'.memory variable'.initializer
      { startAddress := variable'.memory.address }).map (·.initialized)

end PSOListener
end CapTaint
