import CapTaint.Lib.Cursor

/-! # The layout of types

The sized types of LLVM and the offsets that its `DataLayout` gives to their parts. The alignments of the types without
parts come from the target. Structs are not packed, and a struct without a name has the empty name. -/

namespace CapTaint

open Cursor (roundUp)

inductive FloatKind
  | half | float | double | x86_fp80 | fp128 | ppc_fp128
  deriving DecidableEq, Repr

def FloatKind.sizeInBits : FloatKind → Nat
  | half => 16
  | float => 32
  | double => 64
  | x86_fp80 => 80
  | fp128 | ppc_fp128 => 128

/-- The types that a vector may have elements of. -/
inductive ScalarType
  | integer (width : Nat)
  | floating (kind : FloatKind)
  | pointer
  deriving DecidableEq, Repr

/-- `llvm::Type` -/
inductive LType
  | scalar (type : ScalarType)
  | vector (element : ScalarType) (num : Nat)
  | array (element : LType) (num : Nat)
  | struct (name : String) (elements : List LType)

/-- `llvm::DataLayout`: what the target says. -/
structure DataLayout where
  abiAlignment : ScalarType → Nat
  vectorAlignment : ScalarType → Nat → Nat
  aggregateAlignment : Nat := 0
  pointerSizeInBits : Nat
  abiAlignment_pos : ∀ type, 0 < abiAlignment type
  vectorAlignment_pos : ∀ element num, 0 < vectorAlignment element num

namespace DataLayout

variable (layout : DataLayout)

def scalarSizeInBits : ScalarType → Nat
  | .integer width => width
  | .floating kind => kind.sizeInBits
  | .pointer => layout.pointerSizeInBits

mutual
def getABITypeAlignment : LType → Nat
  | .scalar type => layout.abiAlignment type
  | .vector element num => layout.vectorAlignment element num
  | .array element _ => getABITypeAlignment element
  | .struct _ elements => max layout.aggregateAlignment (structAlignment elements)

/-- `StructLayout::getAlignment` -/
def structAlignment : List LType → Nat
  | [] => 1
  | element :: elements => max (getABITypeAlignment element) (structAlignment elements)
end

mutual
def getTypeSizeInBits : LType → Nat
  | .scalar type => layout.scalarSizeInBits type
  | .vector element num => num * layout.scalarSizeInBits element
  | .array element num => num * roundUp (layout.getABITypeAlignment element) ((getTypeSizeInBits element + 7) / 8) * 8
  | .struct _ elements => roundUp (layout.structAlignment elements) (structEnd elements 0) * 8

/-- The end of the last element, without the padding behind it. -/
def structEnd : List LType → Nat → Nat
  | [], offset => offset
  | element :: elements, offset =>
    structEnd elements (roundUp (layout.getABITypeAlignment element) offset +
      roundUp (layout.getABITypeAlignment element) ((getTypeSizeInBits element + 7) / 8))
end

def getTypeAllocSize (type : LType) : Nat := roundUp (layout.getABITypeAlignment type) ((layout.getTypeSizeInBits type + 7) / 8)

/-- `StructLayout::getElementOffset` of the element that comes next. -/
def elementOffset (element : LType) (offset : Nat) : Nat := roundUp (layout.getABITypeAlignment element) offset

mutual
theorem getABITypeAlignment_pos : (type : LType) → 0 < layout.getABITypeAlignment type
  | .scalar type => layout.abiAlignment_pos type
  | .vector element num => layout.vectorAlignment_pos element num
  | .array element _ => getABITypeAlignment_pos element
  | .struct _ elements => lt_max_of_lt_right (structAlignment_pos elements)

theorem structAlignment_pos : (elements : List LType) → 0 < layout.structAlignment elements
  | [] => Nat.one_pos
  | _ :: elements => lt_max_of_lt_right (structAlignment_pos elements)
end

end DataLayout

/-- The layout of x86-64. A vector has its natural alignment. -/
def DataLayout.x86_64 : DataLayout where
  abiAlignment
    | .integer width => if width ≤ 8 then 1 else if width ≤ 16 then 2 else if width ≤ 32 then 4 else 8
    | .floating .half => 2
    | .floating .float => 4
    | .floating .double => 8
    | .floating .x86_fp80 | .floating .fp128 | .floating .ppc_fp128 => 16
    | .pointer => 8
  vectorAlignment
    | .integer width, num => 2 ^ Nat.clog 2 ((num * width + 7) / 8)
    | .floating kind, num => 2 ^ Nat.clog 2 ((num * kind.sizeInBits + 7) / 8)
    | .pointer, num => 2 ^ Nat.clog 2 (num * 8)
  pointerSizeInBits := 64
  abiAlignment_pos type := by
    rcases type with width | kind | _
    · dsimp only
      split_ifs <;> decide
    · cases kind <;> decide
    · decide
  vectorAlignment_pos element num := by cases element <;> exact Nat.two_pow_pos _

/-- The structs of the thread library. -/
inductive Special
  | mutex | cond | barrier
  deriving DecidableEq, Repr

/-- The tests on `getStructName`. -/
def specialOf (name : String) : Option Special :=
  if name = "union.pthread_mutex_t" then some .mutex
  else if name = "union.pthread_cond_t" then some .cond
  else if name = "union.pthread_barrier_t" then some .barrier
  else none

end CapTaint
