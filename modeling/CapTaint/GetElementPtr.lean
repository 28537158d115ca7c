import CapTaint.DataLayout
import CapTaint.Klee.AddressSpace
import CapTaint.Klee.ImpliedValue

/-! # Addresses of elements

`getelementptr` as a constant, which `evalConstantExpr` evaluates, and as an instruction, of which `computeOffsets` does a
part when the module is loaded. A constant operand stands for what `evalConstant` makes of it. -/

namespace CapTaint

namespace Klee.ConstantExpr

variable (c d : ConstantExpr)

def alloc (v w : Nat) : ConstantExpr := ⟨w, BitVec.ofNat w v⟩

def zext (w : Nat) : ConstantExpr := ⟨w, c.value.setWidth w⟩

def sext (w : Nat) : ConstantExpr := ⟨w, c.value.signExtend w⟩

def add : ConstantExpr := ⟨c.width, c.value + d.value.setWidth c.width⟩

def mul : ConstantExpr := ⟨c.width, c.value * d.value.setWidth c.width⟩

end Klee.ConstantExpr

namespace GetElementPtr

open Klee

/-! ### The types that are stepped through -/

/-- `llvm::Value`: a constant or a register of the stack frame. -/
inductive LValue
  | constant (c : ConstantExpr)
  | register (n : Nat)
  deriving DecidableEq

/-- `llvm::CompositeType`. Pointers, arrays and vectors are sequences of elements. -/
inductive CompositeType
  | struct (name : String) (elements : List LType)
  | sequential (element : LType)

/-- The cast to a `CompositeType`. No type has a pointer to step through inside it. -/
def asComposite : LType → Option CompositeType
  | .scalar _ => none
  | .vector element _ => some (.sequential (.scalar element))
  | .array element _ => some (.sequential element)
  | .struct name elements => some (.struct name elements)

/-- What an operand steps into: a field, or an element that has the type. -/
inductive Step
  | field (name : String) (elements : List LType) (index : Nat)
  | element (type : LType) (operand : LValue)

/-- The step of an operand and the type that it leads to, `getTypeAtIndex`. -/
def stepInto : CompositeType → LValue → Option (Step × LType)
  | .sequential element, operand => some (.element element operand, element)
  | .struct name elements, .constant c => do
    let index := c.value.toNat % 2 ^ 32
    return (.field name elements index, ← elements[index]?)
  | .struct _ _, .register _ => none

/-- The walk of `gep_type_iterator`. -/
def gepSteps : Option CompositeType → List LValue → Option (List Step)
  | _, [] => some []
  | none, _ :: _ => none
  | some type, operand :: operands => do
    let next ← stepInto type operand
    return next.1 :: (← gepSteps (asComposite next.2) operands)

/-- A `getelementptr`, a constant or an instruction, that LLVM's verifier accepts. The pointer points to a value of the type `source`. -/
structure GEPOperator where
  source : LType
  pointer : LValue
  indices : List LValue
  steps : List Step
  steps_eq : gepSteps (some (.sequential source)) indices = some steps

def GEPOperator.operands (gep : GEPOperator) : List LValue := gep.pointer :: gep.indices

/-- What the code asks the context and the target about. -/
structure TargetData where
  pointerWidth : Nat
  getTypeStoreSize : LType → Nat
  /-- `StructLayout::getElementOffset` -/
  getElementOffset : String → List LType → Nat → Nat

variable (target : TargetData)

/-! ### Constants -/

/-- The addend of a step. An `unsigned` holds the size of an element. -/
def constantAddend : Step → Except Abort ConstantExpr
  | .field name elements index => .ok (.alloc (target.getElementOffset name elements index) target.pointerWidth)
  | .element type (.constant c) =>
    .ok ((c.zext target.pointerWidth).mul (.alloc (target.getTypeStoreSize type % 2 ^ 32) target.pointerWidth))
  | .element _ (.register _) => .error .assertion

def asConstant : LValue → Except Abort ConstantExpr
  | .constant c => .ok c
  | .register _ => .error .assertion

/-- `evalConstantExpr` of a `getelementptr`. -/
def evalConstantExpr (gep : GEPOperator) : Except Abort ConstantExpr := do
  let op1 ← asConstant gep.pointer
  gep.steps.foldlM (fun base step => return base.add (← constantAddend target step)) (op1.zext target.pointerWidth)

/-! ### Instructions -/

/-- The operands that are not constants, by their number, each with the size of an element. -/
structure KGEPInstruction where
  indices : List (Nat × Nat)
  offset : Nat
  deriving DecidableEq

def computeOffsets : List Step → Nat → ConstantExpr → List (Nat × Nat) → KGEPInstruction
  | [], _, constantOffset, indices => ⟨indices, constantOffset.value.toNat⟩
  | .field name elements i :: steps, index, constantOffset, indices =>
    computeOffsets steps (index + 1)
      (constantOffset.add (.alloc (target.getElementOffset name elements i) target.pointerWidth)) indices
  | .element type (.constant c) :: steps, index, constantOffset, indices =>
    computeOffsets steps (index + 1) (constantOffset.add
      ((c.sext target.pointerWidth).mul (.alloc (target.getTypeStoreSize type) target.pointerWidth))) indices
  | .element type (.register _) :: steps, index, constantOffset, indices =>
    computeOffsets steps (index + 1) constantOffset (indices ++ [(index, target.getTypeStoreSize type)])

def bindInstructionConstants (gep : GEPOperator) : KGEPInstruction :=
  computeOffsets target gep.steps 1 (.alloc 0 target.pointerWidth) []

/-- The cell of an operand; `locals` are those of the stack frame. -/
def LValue.cell (locals : Nat → Expr) : LValue → Expr
  | .constant c => .constant c.width c.value
  | .register n => locals n

def eval (locals : Nat → Expr) (operands : List LValue) (index : Nat) : Created :=
  operands[index]?.elim (.error .assertion) fun operand => .ok (operand.cell locals)

def createPointer (v : Nat) : Created := Klee.ConstantExpr.create v target.pointerWidth

/-- The body of the loop over `kgepi->indices`. -/
def addIndex (opt : Bool) (locals : Nat → Expr) (operands : List LValue) (base : Expr) (it : Nat × Nat) : Created := do
  let index ← eval locals operands it.1
  AddExpr.create opt base
    (← MulExpr.create (← SExtExpr.create index target.pointerWidth) (← createPointer target it.2))

def addOffset (opt : Bool) (offset : Nat) (base : Expr) : Created :=
  if offset = 0 then .ok base else do AddExpr.create opt base (← createPointer target offset)

/-- `executeInstruction` of a `getelementptr` whose offsets are computed. -/
def executeGetElementPtr (opt : Bool) (locals : Nat → Expr) (operands : List LValue) (kgepi : KGEPInstruction) : Created := do
  let base ← eval locals operands 0
  addOffset target opt kgepi.offset (← kgepi.indices.foldlM (addIndex target opt locals operands) base)

end GetElementPtr

/-! ### The layout of the types -/

namespace DataLayout

variable (layout : DataLayout)

def getTypeStoreSize (type : LType) : Nat := (layout.getTypeSizeInBits type + 7) / 8

/-- The offset of an element of a struct, whose first elements end at `offset`. -/
def getElementOffset : List LType → Nat → Nat → Nat
  | [], offset, _ => offset
  | element :: _, offset, 0 => layout.elementOffset element offset
  | element :: elements, offset, index + 1 =>
    getElementOffset elements (layout.elementOffset element offset + layout.getTypeAllocSize element) index

def targetData : GetElementPtr.TargetData where
  pointerWidth := layout.pointerSizeInBits
  getTypeStoreSize := layout.getTypeStoreSize
  getElementOffset _ elements index := layout.getElementOffset elements 0 index

end DataLayout

end CapTaint
