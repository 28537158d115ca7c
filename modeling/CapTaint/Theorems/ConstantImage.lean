import CapTaint.EvalConstant
import CapTaint.Lib.Placed

/-! # Images of constants

The number that a constant is in memory: the numbers of its parts at their offsets. -/

namespace CapTaint.EvalConstant

open Cursor (roundUp le_roundUp)
open Placed

variable {layout : DataLayout} {c : Constant} {type : SizedType} {operands : List Constant}

/-! ### Layouts -/

section
variable (layout)

mutual
theorem abiAlignment_pos : (type : SizedType) → 0 < abiAlignment layout type
  | .scalar type => layout.abiAlignment_pos type
  | .vector element num => layout.vectorAlignment_pos element num
  | .array element _ => abiAlignment_pos element
  | .struct isPacked elements => by
    rw [abiAlignment]
    split_ifs
    · exact Nat.one_pos
    · exact lt_max_of_lt_right (structAlignment_pos elements)

theorem structAlignment_pos : (elements : List SizedType) → 0 < structAlignment layout elements
  | [] => Nat.one_pos
  | _ :: elements => lt_max_of_lt_right (structAlignment_pos elements)
end

theorem memberAlignment_pos (isPacked : Bool) (element : SizedType) : 0 < memberAlignment layout isPacked element := by
  rw [memberAlignment]
  split_ifs
  · exact Nat.one_pos
  · exact abiAlignment_pos layout element

theorem storeSize_le_allocSize (type : SizedType) : storeSize layout type ≤ allocSize layout type :=
  le_roundUp (abiAlignment_pos layout type) _

theorem sizeInBits_le (type : SizedType) : sizeInBits layout type ≤ storeSize layout type * 8 := by
  rw [storeSize]
  omega

/-- The types of the elements of an aggregate. -/
def elementTypes : SizedType → List SizedType
  | .scalar _ => []
  | .vector _ _ => []
  | .array element num => List.replicate num element
  | .struct _ elements => elements

/-- The offsets of the elements of an aggregate, as the initialization has them. -/
def elementOffsetsOf : SizedType → List Nat
  | .scalar _ => []
  | .vector _ _ => []
  | .array element num => stridesFrom (storeSize layout element) 0 num
  | .struct isPacked elements => elementOffsets layout isPacked elements 0

theorem elementOffsets_fits (isPacked : Bool) : ∀ (elements : List SizedType) (offset : Nat),
    Fits offset (elementOffsets layout isPacked elements offset) (elements.map (storeSize layout)) (structEnd layout isPacked elements offset)
  | [], offset => le_refl offset
  | element :: elements, offset => by
    refine ⟨le_roundUp (memberAlignment_pos layout isPacked element) offset, ?_⟩
    exact (elementOffsets_fits isPacked elements _).lower (Nat.add_le_add_left (storeSize_le_allocSize layout element) _)

theorem strides_fits (element : SizedType) : ∀ n i : Nat, Fits (i * storeSize layout element) (stridesFrom (storeSize layout element) i n)
    ((List.replicate n element).map (storeSize layout)) ((i + n) * storeSize layout element)
  | 0, i => le_refl _
  | n + 1, i => by
    refine ⟨le_rfl, ?_⟩
    have hrest := strides_fits element n (i + 1)
    rwa [Nat.add_mul i 1, Nat.one_mul, Nat.add_assoc i 1 n, Nat.add_comm 1 n] at hrest

theorem fits_type : (type : SizedType) →
    Fits 0 (elementOffsetsOf layout type) ((elementTypes type).map (storeSize layout)) (sizeInBits layout type / 8)
  | .scalar type => Nat.zero_le _
  | .vector element num => Nat.zero_le _
  | .array element num => by
    have hfits := strides_fits layout element num 0
    rw [Nat.zero_mul, Nat.zero_add] at hfits
    refine hfits.mono ?_
    rw [sizeInBits, Nat.mul_div_cancel _ (by decide)]
    exact Nat.mul_le_mul_left num (storeSize_le_allocSize layout element)
  | .struct isPacked elements => by
    refine (elementOffsets_fits layout isPacked elements 0).mono ?_
    rw [sizeInBits, Nat.mul_div_cancel _ (by decide)]
    refine le_roundUp ?_ _
    split_ifs
    · exact Nat.one_pos
    · exact structAlignment_pos layout elements

end

/-! ### Images -/

/-- The null value of a type. -/
def nullValue : SizedType → Constant
  | .scalar (.integer width) => .number (.int width 0)
  | .scalar (.floating kind) => .number (.fp kind 0)
  | .scalar .pointer => .null
  | .vector element num => .aggregateZero (.vector element num)
  | .array element num => .aggregateZero (.array element num)
  | .struct isPacked elements => .aggregateZero (.struct isPacked elements)

/-- The elements of an aggregate. -/
def Constant.elements : Constant → List Constant
  | .number _ => []
  | .null => []
  | .aggregateZero type => (elementTypes type).map nullValue
  | .data _ elements => elements.map .number
  | .array _ operands => operands
  | .struct _ operands => operands

mutual
/-- The elements of an array have one type. -/
def WellTyped : Constant → Prop
  | .number _ => True
  | .null => True
  | .aggregateZero _ => True
  | .data element elements => ∀ value ∈ elements, value.type = element
  | .array element operands => (∀ operand ∈ operands, operand.type = element) ∧ AllWellTyped operands
  | .struct _ operands => AllWellTyped operands

def AllWellTyped : List Constant → Prop
  | [] => True
  | operand :: operands => WellTyped operand ∧ AllWellTyped operands
end

section
variable (layout)

mutual
/-- The number that is in memory after the initialization. -/
def image : Constant → Nat
  | .number value => numberBits value
  | .null => 0
  | .aggregateZero _ => 0
  | .data element elements => placed (stridesFrom (storeSize layout (.scalar element)) 0 elements.length) (elements.map numberBits)
  | .array element operands => placed (stridesFrom (storeSize layout element) 0 operands.length) (images operands)
  | .struct isPacked operands => placed (elementOffsets layout isPacked (operandTypes operands) 0) (images operands)

def images : List Constant → List Nat
  | [] => []
  | operand :: operands => image operand :: images operands
end

end

theorem images_eq_map : ∀ operands : List Constant, images layout operands = operands.map (image layout)
  | [] => rfl
  | operand :: operands => congrArg (image layout operand :: ·) (images_eq_map operands)

theorem operandTypes_eq_map : ∀ operands : List Constant, operandTypes operands = operands.map Constant.type
  | [] => rfl
  | operand :: operands => congrArg (operand.type :: ·) (operandTypes_eq_map operands)

theorem allWellTyped_iff : AllWellTyped operands ↔ ∀ operand ∈ operands, WellTyped operand := by
  induction operands with
  | nil => simp [AllWellTyped]
  | cons operand operands ih => rw [AllWellTyped, List.forall_mem_cons, ih]

theorem nullValue_type (type : SizedType) : (nullValue type).type = type := by
  rcases type with (width | kind | _) | ⟨element, num⟩ | ⟨element, num⟩ | ⟨isPacked, elements⟩ <;> rfl

theorem nullValue_image (type : SizedType) : image layout (nullValue type) = 0 := by
  rcases type with (width | kind | _) | ⟨element, num⟩ | ⟨element, num⟩ | ⟨isPacked, elements⟩ <;> rfl

theorem nullValue_wellTyped (type : SizedType) : WellTyped (nullValue type) := by
  rcases type with (width | kind | _) | ⟨element, num⟩ | ⟨element, num⟩ | ⟨isPacked, elements⟩ <;> trivial

theorem map_eq_replicate {α β : Type*} {f : α → β} {b : β} {l : List α} (h : ∀ a ∈ l, f a = b) : l.map f = List.replicate l.length b :=
  List.eq_replicate_iff.mpr ⟨List.length_map f, fun x hx => by
    obtain ⟨a, ha, rfl⟩ := List.mem_map.mp hx
    exact h a ha⟩

theorem WellTyped.elements (hc : WellTyped c) : ∀ c' ∈ c.elements, WellTyped c' := by
  rcases c with value | _ | type | ⟨element, values⟩ | ⟨element, operands⟩ | ⟨isPacked, operands⟩
  · exact fun _ h => absurd h List.not_mem_nil
  · exact fun _ h => absurd h List.not_mem_nil
  · intro c' hc'
    obtain ⟨type, -, rfl⟩ := List.mem_map.mp hc'
    exact nullValue_wellTyped type
  · intro c' hc'
    obtain ⟨value, -, rfl⟩ := List.mem_map.mp hc'
    trivial
  · exact allWellTyped_iff.mp hc.2
  · exact allWellTyped_iff.mp hc

/-- The elements have the types that the type of the aggregate gives them. -/
theorem WellTyped.elementTypes (hc : WellTyped c) : c.elements.map Constant.type = elementTypes c.type := by
  rcases c with value | _ | type | ⟨element, values⟩ | ⟨element, operands⟩ | ⟨isPacked, operands⟩
  · rfl
  · rfl
  · rw [Constant.elements, List.map_map]
    exact (List.map_congr_left fun type _ => nullValue_type type).trans (List.map_id _)
  · rw [Constant.elements, List.map_map]
    exact map_eq_replicate fun value hvalue => congrArg SizedType.scalar (hc value hvalue)
  · exact map_eq_replicate hc.1
  · exact (operandTypes_eq_map operands).symm

theorem placed_zero : ∀ (offsets : List Nat) (n : Nat), placed offsets (List.replicate n 0) = 0
  | [], n => rfl
  | o :: offsets, 0 => rfl
  | o :: offsets, n + 1 => by
    rw [List.replicate_succ, placed, Nat.zero_mul, Nat.zero_add]
    exact placed_zero offsets n

theorem image_eq_placed (h : ∀ value, c ≠ .number value) :
    image layout c = placed (elementOffsetsOf layout c.type) (c.elements.map (image layout)) := by
  rcases c with value | _ | type | ⟨element, values⟩ | ⟨element, operands⟩ | ⟨isPacked, operands⟩
  · exact absurd rfl (h value)
  · rfl
  · have hzero : (EvalConstant.elementTypes type).map (image layout ∘ nullValue) = List.replicate _ 0 :=
      map_eq_replicate fun type _ => nullValue_image type
    rw [Constant.elements, List.map_map, hzero]
    exact (placed_zero _ _).symm
  · rw [Constant.elements, List.map_map]
    rfl
  · rw [image, images_eq_map]
    rfl
  · rw [image, images_eq_map]
    rfl

/-- Induction with the operands of arrays and structs. -/
theorem Constant.inductOperands {P : Constant → Prop} (number : ∀ value, P (.number value)) (null : P .null)
    (aggregateZero : ∀ type, P (.aggregateZero type)) (data : ∀ element elements, P (.data element elements))
    (array : ∀ element operands, (∀ operand ∈ operands, P operand) → P (.array element operands))
    (struct : ∀ isPacked operands, (∀ operand ∈ operands, P operand) → P (.struct isPacked operands)) (c : Constant) : P c :=
  @Constant.rec P (fun operands => ∀ operand ∈ operands, P operand) number null aggregateZero data array struct
    (fun _ h => absurd h List.not_mem_nil) (fun _ _ hfirst hrest => List.forall_mem_cons.mpr ⟨hfirst, hrest⟩) c

theorem numberBits_lt (layout : DataLayout) (value : Number) : numberBits value < 2 ^ layout.scalarSizeInBits value.type := by
  rcases value with ⟨width, value⟩ | ⟨kind, value⟩
  · exact value.isLt
  · exact value.isLt

theorem two_pow_le (layout : DataLayout) (type : SizedType) : 2 ^ sizeInBits layout type ≤ 256 ^ storeSize layout type := by
  rw [show 256 = 2 ^ 8 from rfl, ← pow_mul, Nat.mul_comm]
  exact Nat.pow_le_pow_right Nat.two_pos (sizeInBits_le layout type)

theorem sized_elements (hc : WellTyped c) (h : ∀ c' ∈ c.elements, image layout c' < 2 ^ sizeInBits layout c'.type) :
    Sized (c.elements.map (image layout)) ((elementTypes c.type).map (storeSize layout)) := by
  rw [← hc.elementTypes, List.map_map, Sized, List.forall₂_map_left_iff, List.forall₂_map_right_iff, List.forall₂_same]
  exact fun c' hc' => (h c' hc').trans_le (two_pow_le layout c'.type)

theorem image_lt_of_elements (hc : WellTyped c) (hne : ∀ value, c ≠ .number value)
    (h : ∀ c' ∈ c.elements, image layout c' < 2 ^ sizeInBits layout c'.type) : image layout c < 2 ^ sizeInBits layout c.type := by
  rw [image_eq_placed hne]
  refine (placed_lt (fits_type layout c.type) (sized_elements hc h)).trans_le ?_
  rw [show 256 = 2 ^ 8 from rfl, ← pow_mul]
  exact Nat.pow_le_pow_right Nat.two_pos (Nat.mul_div_le _ _)

theorem image_lt (layout : DataLayout) : ∀ c : Constant, WellTyped c → image layout c < 2 ^ sizeInBits layout c.type := by
  refine Constant.inductOperands ?number ?null ?zero ?data ?array ?struct
  case number => exact fun value _ => numberBits_lt layout value
  case null => exact fun _ => Nat.two_pow_pos _
  case zero => exact fun _ _ => Nat.two_pow_pos _
  case data =>
    intro element values hc
    refine image_lt_of_elements hc (fun _ h => by cases h) fun c' hc' => ?_
    obtain ⟨value, -, rfl⟩ := List.mem_map.mp hc'
    exact numberBits_lt layout value
  case array =>
    intro element operands ih hc
    exact image_lt_of_elements hc (fun _ h => by cases h) fun c' hc' => ih c' hc' (hc.elements c' hc')
  case struct =>
    intro isPacked operands ih hc
    exact image_lt_of_elements hc (fun _ h => by cases h) fun c' hc' => ih c' hc' (hc.elements c' hc')

end CapTaint.EvalConstant
