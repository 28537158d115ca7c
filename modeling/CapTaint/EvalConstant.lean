import CapTaint.GlobalInitializer

/-! # Constants as numbers and in memory

`Executor::evalConstant` makes one number of a constant, `Executor::initializeGlobalObject` writes the constant into an object.
The structs may be packed here. The target is little-endian. -/

namespace CapTaint.EvalConstant

open Cursor (roundUp)

/-! ### Types -/

/-- `llvm::Type` -/
inductive SizedType
  | scalar (type : ScalarType)
  | vector (element : ScalarType) (num : Nat)
  | array (element : SizedType) (num : Nat)
  | struct (isPacked : Bool) (elements : List SizedType)

section
variable (layout : DataLayout)

mutual
def abiAlignment : SizedType → Nat
  | .scalar type => layout.abiAlignment type
  | .vector element num => layout.vectorAlignment element num
  | .array element _ => abiAlignment element
  | .struct isPacked elements => if isPacked then 1 else max layout.aggregateAlignment (structAlignment elements)

def structAlignment : List SizedType → Nat
  | [] => 1
  | element :: elements => max (abiAlignment element) (structAlignment elements)
end

/-- The alignment that a struct gives to an element. -/
def memberAlignment (isPacked : Bool) (element : SizedType) : Nat := if isPacked then 1 else abiAlignment layout element

mutual
def sizeInBits : SizedType → Nat
  | .scalar type => layout.scalarSizeInBits type
  | .vector element num => num * layout.scalarSizeInBits element
  | .array element num => num * roundUp (abiAlignment layout element) ((sizeInBits element + 7) / 8) * 8
  | .struct isPacked elements =>
    roundUp (if isPacked then 1 else structAlignment layout elements) (structEnd isPacked elements 0) * 8

/-- The end of the last element. -/
def structEnd (isPacked : Bool) : List SizedType → Nat → Nat
  | [], offset => offset
  | element :: elements, offset =>
    structEnd isPacked elements (roundUp (memberAlignment layout isPacked element) offset +
      roundUp (abiAlignment layout element) ((sizeInBits element + 7) / 8))
end

def storeSize (type : SizedType) : Nat := (sizeInBits layout type + 7) / 8

def allocSize (type : SizedType) : Nat := roundUp (abiAlignment layout type) (storeSize layout type)

/-- `StructLayout::getElementOffset` of the elements behind an offset. -/
def elementOffsets (isPacked : Bool) : List SizedType → Nat → List Nat
  | [], _ => []
  | element :: elements, offset =>
    roundUp (memberAlignment layout isPacked element) offset ::
      elementOffsets isPacked elements (roundUp (memberAlignment layout isPacked element) offset + allocSize layout element)

end

/-- The offsets `i * elementSize` from the index `i` on. -/
def stridesFrom (elementSize i : Nat) : Nat → List Nat
  | 0 => []
  | n + 1 => i * elementSize :: stridesFrom elementSize (i + 1) n

/-! ### Constants -/

/-- `llvm::Constant` -/
inductive Constant
  | number (value : Number)
  | null
  | aggregateZero (type : SizedType)
  | data (element : ScalarType) (elements : List Number)
  | array (element : SizedType) (operands : List Constant)
  | struct (isPacked : Bool) (operands : List Constant)

mutual
def Constant.type : Constant → SizedType
  | .number value => .scalar value.type
  | .null => .scalar .pointer
  | .aggregateZero type => type
  | .data element elements => .array (.scalar element) elements.length
  | .array element operands => .array element operands.length
  | .struct isPacked operands => .struct isPacked (operandTypes operands)

def operandTypes : List Constant → List SizedType
  | [] => []
  | operand :: operands => operand.type :: operandTypes operands
end

/-- The bits of a number. -/
def numberBits : Number → Nat
  | .int _ value => value.toNat
  | .fp _ value => value.toNat

/-! ### Constant expressions -/

/-- A constant expression: the width is a positive `unsigned`. -/
@[ext] structure ConstantExpr where
  width : Nat
  value : Nat
  width_pos : 0 < width
  width_lt : width < 2 ^ 32
  value_lt : value < 2 ^ width

namespace ConstantExpr

/-- The width is an `unsigned`, and `APInt` has an assertion on it. -/
def alloc (value width : Nat) : Option ConstantExpr :=
  if h : 0 < width % 2 ^ 32 then
    some ⟨width % 2 ^ 32, value % 2 ^ (width % 2 ^ 32), h, Nat.mod_lt _ (Nat.two_pow_pos 32), Nat.mod_lt _ (Nat.two_pow_pos _)⟩
  else none

/-- `Concat`. A width that wraps around is not greater, which `APInt::zext` asserts. -/
def concat (l r : ConstantExpr) : Option ConstantExpr :=
  if h : l.width + r.width < 2 ^ 32 then
    some ⟨l.width + r.width, l.value <<< r.width ||| r.value, Nat.add_pos_left l.width_pos _, h, by
      refine Nat.or_lt_two_pow ?_ (r.value_lt.trans_le (Nat.pow_le_pow_right Nat.two_pos (Nat.le_add_left _ _)))
      rw [Nat.shiftLeft_eq, pow_add]
      exact Nat.mul_lt_mul_of_pos_right l.value_lt (Nat.two_pow_pos _)⟩
  else none

/-- `ConcatExpr::createN`, with the most significant kid first. -/
def createN : List ConstantExpr → Option ConstantExpr
  | [] => none
  | [kid] => some kid
  | kid :: kid' :: kids => (createN (kid' :: kids)).bind kid.concat

/-- `ExtractExpr::create`. The part has to be inside. -/
def extract (e : ConstantExpr) (offset width : Nat) : Option ConstantExpr :=
  if h : 0 < width % 2 ^ 32 ∧ offset % 2 ^ 32 + width % 2 ^ 32 ≤ e.width then
    some ⟨width % 2 ^ 32, e.value >>> (offset % 2 ^ 32) % 2 ^ (width % 2 ^ 32), h.1, Nat.mod_lt _ (Nat.two_pow_pos 32),
      Nat.mod_lt _ (Nat.two_pow_pos _)⟩
  else none

end ConstantExpr

section
variable (layout : DataLayout)

/-! ### evalConstant -/

/-- The kids of a struct with their padding, the last one first, from their offsets and the size of the struct. -/
def structKids : List ConstantExpr → List Nat → Nat → Option (List ConstantExpr)
  | kid :: kids, offset :: offsets, size => do
    let rest ← structKids kids offsets size
    let space := offsets.headD size * 8 - offset * 8
    if kid.width < space then
      let padding ← ConstantExpr.alloc 0 (space - kid.width)
      return rest ++ [padding, kid]
    else return rest ++ [kid]
  | [], _, _ => some []
  | _ :: _, [], _ => some []

def evalNumber (value : Number) : Option ConstantExpr := ConstantExpr.alloc (numberBits value) (layout.scalarSizeInBits value.type)

mutual
def evalConstant : Constant → Option ConstantExpr
  | .number value => evalNumber layout value
  | .null => ConstantExpr.alloc 0 layout.pointerSizeInBits
  | .aggregateZero type => ConstantExpr.alloc 0 (sizeInBits layout type)
  -- the elements go into the vector from the first one on
  | .data _ elements => (elements.mapM (evalNumber layout)).bind ConstantExpr.createN
  | .array _ operands => (evalOperands operands).bind fun kids => ConstantExpr.createN kids.reverse
  | .struct isPacked operands => (evalOperands operands).bind fun kids =>
    (structKids kids (elementOffsets layout isPacked (operandTypes operands) 0)
      (sizeInBits layout (.struct isPacked (operandTypes operands)) / 8)).bind ConstantExpr.createN

def evalOperands : List Constant → Option (List ConstantExpr)
  | [] => some []
  | operand :: operands => do
    let kid ← evalConstant operand
    let kids ← evalOperands operands
    return kid :: kids
end

/-! ### initializeGlobalObject -/

/-- The bytes of an object. -/
abbrev Memory : Type := Nat → BitVec 8

def write8 (m : Memory) (offset : Nat) (value : BitVec 8) : Memory := fun x => if x = offset % 2 ^ 32 then value else m x

/-- The loop over the bytes of a value. -/
def writeBytes (m : Memory) (offset value : Nat) : Nat → Memory
  | 0 => m
  | i + 1 => write8 (writeBytes m offset value i) (offset + i) (BitVec.ofNat 8 (value >>> (8 * i)))

/-- `ObjectState::write` of a constant. -/
def write (m : Memory) (offset value width : Nat) : Option Memory :=
  if width = 1 then some (write8 m offset (BitVec.ofNat 8 value))
  else if width ≤ 64 ∧ width ≠ 8 ∧ width ≠ 16 ∧ width ≠ 32 ∧ width ≠ 64 then none
  else if width / 8 * 8 = width then some (writeBytes m offset value (width / 8)) else none

/-- The last case: what `evalConstant` gives, extended to whole bytes. -/
def initializeScalar (type : ScalarType) (e : Option ConstantExpr) (offset : Nat) (m : Memory) : Option Memory := do
  let e ← e
  write m offset e.value (storeSize layout (.scalar type) * 8)

/-- The loop over the elements of a data array. -/
def initializeNumbers : List Number → List Nat → Nat → Memory → Option Memory
  | value :: values, o :: offsets, offset, m => do
    initializeNumbers values offsets offset (← initializeScalar layout value.type (evalNumber layout value) (offset + o) m)
  | [], _, _, m => some m
  | _ :: _, [], _, m => some m

mutual
def initializeGlobalObject : Constant → Nat → Memory → Option Memory
  | .number value, offset, m => initializeScalar layout value.type (evalNumber layout value) offset m
  | .null, offset, m => initializeScalar layout .pointer (ConstantExpr.alloc 0 layout.pointerSizeInBits) offset m
  | .aggregateZero type, offset, m => some (writeBytes m offset 0 (storeSize layout type % 2 ^ 32))
  | .data element elements, offset, m =>
    initializeNumbers layout elements (stridesFrom (storeSize layout (.scalar element)) 0 elements.length) offset m
  | .array element operands, offset, m =>
    initializeOperands operands (stridesFrom (storeSize layout element) 0 operands.length) offset m
  | .struct isPacked operands, offset, m =>
    initializeOperands operands (elementOffsets layout isPacked (operandTypes operands) 0) offset m

/-- The loops over the operands, at their offsets. -/
def initializeOperands : List Constant → List Nat → Nat → Memory → Option Memory
  | operand :: operands, o :: offsets, offset, m => do
    initializeOperands operands offsets offset (← initializeGlobalObject operand (offset + o) m)
  | [], _, _, m => some m
  | _ :: _, [], _, m => some m
end

/-! ### ExtractValue -/

/-- The instruction takes the bits of a type at a byte offset out of an aggregate. -/
def extractValue (agg : ConstantExpr) (offset : Nat) (type : SizedType) : Option ConstantExpr :=
  agg.extract (offset * 8) (sizeInBits layout type)

end

end CapTaint.EvalConstant
