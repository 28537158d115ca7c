import Mathlib.Data.BitVec
import Mathlib.Logic.Function.Basic

/-! # External calls

`callExternalFunction` stores arguments in words of memory, where the stub that `createDispatcher` generates finds them.
There is no result where an assertion fails. -/

namespace CapTaint.ExternalDispatcher

/-! ### Types and constants -/

inductive Ty
  | int (width : Nat)
  | float
  | double
  | fp80
  | pointer
  deriving DecidableEq

namespace Ty

/-- `getTypeSizeInBits`, the width of expressions of the type. -/
def typeSizeInBits : Ty → Nat
  | int width => width
  | float => 32
  | double => 64
  | fp80 => 80
  | pointer => 64

/-- `getPrimitiveSizeInBits` -/
def primitiveSizeInBits : Ty → Nat
  | int width => width
  | float => 32
  | double => 64
  | fp80 => 80
  | pointer => 0

end Ty

structure FunctionType where
  params : List Ty
  returnType : Option Ty
  isVarArg : Bool
  deriving DecidableEq

structure Function where
  name : String
  type : FunctionType
  deriving DecidableEq

/-- A `ConstantExpr`. -/
structure Constant where
  width : Nat
  value : BitVec width
  deriving DecidableEq

/-! ### Memory -/

abbrev Words := Nat → BitVec 64

/-- The bytes of the value are stored in one word, or in two. -/
def store (words : Words) (index : Nat) {width : Nat} (value : BitVec width) : Words :=
  let bits := (width + 7) / 8 * 8
  if width ≤ 64 then Function.update words index (((words index >>> bits) <<< bits) ||| value.setWidth 64)
  else
    Function.update (Function.update words index (value.setWidth 64)) (index + 1)
      (((words (index + 1) >>> (bits - 64)) <<< (bits - 64)) ||| (value >>> 64).setWidth 64)

def load (words : Words) (index width : Nat) : BitVec width := (words (index + 1) ++ words index).setWidth width

/-- `ConstantExpr::toMemory` -/
def toMemory (words : Words) (index : Nat) (c : Constant) : Option Words :=
  if c.width ∈ [1, 8, 16, 32, 64, 80] then some (store words index c.value) else none

/-- `ConstantExpr::fromMemory` -/
def fromMemory (words : Words) (width : Nat) : Constant := ⟨width, load words 0 width⟩

/-! ### The stub -/

/-- A call instruction, which is known by its number. The type that it calls a function with may be that of a bitcast. -/
structure Inst where
  id : Nat
  args : List Ty
  calledType : FunctionType
  isSExt : List Bool
  deriving DecidableEq

/-- The stub calls its target with what it loads: for each argument the word and the type. -/
structure Stub where
  target : Function
  loads : List (Nat × Ty)
  deriving DecidableEq

/-- The words that the stub passes over. -/
def wordsOf (ty : Ty) : Nat := ((if ty.primitiveSizeInBits ≠ 0 then ty.primitiveSizeInBits else 64) + 63) / 64

/-- The loop over the arguments of the instruction, from the `i`th one on. -/
def loadsFrom (target : FunctionType) : Nat → Nat → List Ty → List (Nat × Ty)
  | _, _, [] => []
  | i, idx, arg :: rest =>
    let argTy := target.params.getD i arg
    (idx, argTy) :: loadsFrom target (i + 1) (idx + wordsOf argTy) rest

/-- The symbols that can be resolved are a parameter. -/
def createDispatcher (resolveSymbol : String → Bool) (target : Function) (inst : Inst) : Option Stub :=
  if resolveSymbol target.name then some ⟨target, loadsFrom target.type 0 2 inst.args⟩ else none

/-- The map of the instructions that have been executed to their stubs, or to null pointers. -/
abbrev Dispatchers := Inst → Option (Option Stub)

/-- `executeCall`: the stub that is run, if there is one. -/
def executeCall (resolveSymbol : String → Bool) (dispatchers : Dispatchers) (f : Function) (i : Inst) : Dispatchers × Option Stub :=
  match dispatchers i with
  | some dispatcher => (dispatchers, dispatcher)
  | none =>
    let dispatcher := createDispatcher resolveSymbol f i
    (Function.update dispatchers i (some dispatcher), dispatcher)

/-- What the stub passes to its target. -/
def Stub.arguments (stub : Stub) (words : Words) : List Constant :=
  stub.loads.map fun entry => ⟨entry.2.typeSizeInBits, load words entry.1 entry.2.typeSizeInBits⟩

/-- The stub stores the result of the target. -/
def Stub.storeResult (words : Words) (result : Constant) : Words := store words 0 result.value

/-! ### The executor -/

/-- A call, with the values of the arguments. The target of a direct call may be a bitcast of a function, or an alias. -/
structure Call where
  inst : Inst
  target : Function
  direct : Bool
  values : List Constant

/-- `SExtExpr::create` or `ZExtExpr::create` -/
def convert (isSExt : Bool) (width : Nat) (c : Constant) : Constant :=
  if c.width = width then c else if isSExt then ⟨width, c.value.signExtend width⟩ else ⟨width, c.value.setWidth width⟩

/-- The loop that coerces arguments, from the `i`th one on. -/
def coerce (target : FunctionType) (isSExt : List Bool) : Nat → List Constant → List Constant
  | _, [] => []
  | i, c :: rest =>
    (target.params[i]?.elim c fun param => convert (isSExt.getD i false) param.typeSizeInBits c) :: coerce target isSExt (i + 1) rest

/-- The arguments with which `callExternalFunction` is called. -/
def Call.arguments (call : Call) : List Constant :=
  if call.direct ∧ call.target.type ≠ call.inst.calledType then coerce call.target.type call.inst.isSExt 0 call.values else call.values

/-- The loop in `callExternalFunction`, with the words at which the arguments are stored. -/
def storeArguments : Nat → Words → List Constant → Option (Words × List Nat)
  | _, words, [] => some (words, [])
  | wordIndex, words, c :: rest => do
    let words ← toMemory words wordIndex c
    let (words, indices) ← storeArguments (wordIndex + (c.width + 63) / 64) words rest
    return (words, wordIndex :: indices)

/-- The arguments are stored behind two words for the result. -/
def callExternalFunction (call : Call) : Option (Words × List Nat) := storeArguments 2 (fun _ => 0) call.arguments

/-- The stubs behind a list of calls. -/
def run (resolveSymbol : String → Bool) (calls : List Call) : Dispatchers :=
  calls.foldl (fun dispatchers call => (executeCall resolveSymbol dispatchers call.target call.inst).1) fun _ => none

end CapTaint.ExternalDispatcher
