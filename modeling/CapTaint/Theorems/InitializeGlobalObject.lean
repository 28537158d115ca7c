import CapTaint.Theorems.ConstantImage

/-! # The initialization of objects

`initializeGlobalObject` writes the image of a constant into a zeroed object, when all of its numbers can be written. -/

namespace CapTaint.EvalConstant

open Placed

variable {layout : DataLayout} {c : Constant} {operands : List Constant} {m : Memory} {offset base total : Nat}

/-! ### Bytes -/

/-- Memory with the bytes of a number from `base` to `total`, behind an offset. -/
def wrote (m : Memory) (offset base total x : Nat) : Memory :=
  fun a => if offset + base ≤ a ∧ a < offset + total then BitVec.ofNat 8 (x / 256 ^ (a - offset)) else m a

theorem writeBytes_eq (m : Memory) (offset value : Nat) : ∀ n, offset + n ≤ 2 ^ 32 →
    writeBytes m offset value n = wrote m offset 0 n value
  | 0, _ => by
    funext a
    rw [writeBytes, wrote, if_neg (by omega)]
  | n + 1, hn => by
    funext a
    rw [writeBytes, write8, writeBytes_eq m offset value n (Nat.le_of_succ_le hn), wrote, wrote, Nat.mod_eq_of_lt (by omega)]
    by_cases ha : a = offset + n
    · rw [if_pos ha, if_pos (by omega), ha, Nat.add_sub_cancel_left, Nat.shiftRight_eq_div_pow, pow_mul]
      rfl
    · by_cases hin : offset + 0 ≤ a ∧ a < offset + n
      · rw [if_neg ha, if_pos hin, if_pos (by omega)]
      · rw [if_neg ha, if_neg hin, if_neg (by omega)]

/-- The bytes of these widths can be written. -/
def Written (bits : Nat) : Prop :=
  0 < bits ∧ (64 < bits ∨ (bits + 7) / 8 = 1 ∨ (bits + 7) / 8 = 2 ∨ (bits + 7) / 8 = 4 ∨ (bits + 7) / 8 = 8)

theorem write_eq {value bits : Nat} (m : Memory) (hbits : 0 < bits) : write m offset value ((bits + 7) / 8 * 8) =
    if 64 < bits ∨ (bits + 7) / 8 = 1 ∨ (bits + 7) / 8 = 2 ∨ (bits + 7) / 8 = 4 ∨ (bits + 7) / 8 = 8 then
      some (writeBytes m offset value ((bits + 7) / 8)) else none := by
  rw [write, if_neg (by omega), Nat.mul_div_cancel _ (by decide), if_pos rfl]
  by_cases h : 64 < bits ∨ (bits + 7) / 8 = 1 ∨ (bits + 7) / 8 = 2 ∨ (bits + 7) / 8 = 4 ∨ (bits + 7) / 8 = 8
  · rw [if_neg (by omega), if_pos h]
  · rw [if_pos (by omega), if_neg h]

theorem alloc_eq_some {value width : Nat} {e : ConstantExpr} (h : ConstantExpr.alloc value width = some e) :
    0 < width % 2 ^ 32 ∧ e.width = width % 2 ^ 32 ∧ e.value = value % 2 ^ (width % 2 ^ 32) := by
  rw [ConstantExpr.alloc] at h
  split_ifs at h with hpos
  cases h
  exact ⟨hpos, rfl, rfl⟩

theorem alloc_of_lt {value width : Nat} (hpos : 0 < width) (hlt : width < 2 ^ 32) (hvalue : value < 2 ^ width) :
    ConstantExpr.alloc value width = some ⟨width, value, hpos, hlt, hvalue⟩ := by
  have hmod := Nat.mod_eq_of_lt hlt
  rw [ConstantExpr.alloc, dif_pos (by omega)]
  refine congrArg some (ConstantExpr.ext hmod ?_)
  show value % 2 ^ (width % 2 ^ 32) = value
  rw [hmod, Nat.mod_eq_of_lt hvalue]

theorem initializeScalar_eq {type : ScalarType} {value : Nat} (hwritten : Written (layout.scalarSizeInBits type))
    (hfits : offset * 8 + layout.scalarSizeInBits type < 2 ^ 32) (hvalue : value < 2 ^ layout.scalarSizeInBits type) (m : Memory) :
    initializeScalar layout type (ConstantExpr.alloc value (layout.scalarSizeInBits type)) offset m =
      some (wrote m offset 0 (storeSize layout (.scalar type)) value) := by
  rw [initializeScalar, alloc_of_lt hwritten.1 (by omega) hvalue]
  show write m offset value ((layout.scalarSizeInBits type + 7) / 8 * 8) = _
  rw [write_eq m hwritten.1, if_pos hwritten.2, writeBytes_eq m offset value _ (by omega)]
  rfl

theorem written_of_initializeScalar {type : ScalarType} {value : Nat}
    (h : (initializeScalar layout type (ConstantExpr.alloc value (layout.scalarSizeInBits type)) offset m).isSome) :
    Written (layout.scalarSizeInBits type) := by
  rw [initializeScalar] at h
  rcases halloc : ConstantExpr.alloc value (layout.scalarSizeInBits type) with _ | e
  · rw [halloc] at h
    cases h
  · have hpos : 0 < layout.scalarSizeInBits type := by
      have hmod := (alloc_eq_some halloc).1
      omega
    rw [halloc] at h
    have hwrite : (write m offset e.value ((layout.scalarSizeInBits type + 7) / 8 * 8)).isSome := h
    rw [write_eq m hpos] at hwrite
    split_ifs at hwrite with hbits
    · exact ⟨hpos, hbits⟩
    · cases hwrite

section
variable (layout)

mutual
/-- All numbers of the constant can be written. -/
def Writes : Constant → Prop
  | .number value => Written (layout.scalarSizeInBits value.type)
  | .null => Written layout.pointerSizeInBits
  | .aggregateZero _ => True
  | .data _ elements => ∀ value ∈ elements, Written (layout.scalarSizeInBits value.type)
  | .array _ operands => AllWrite operands
  | .struct _ operands => AllWrite operands

def AllWrite : List Constant → Prop
  | [] => True
  | operand :: operands => Writes operand ∧ AllWrite operands
end

end

theorem allWrite_iff : AllWrite layout operands ↔ ∀ operand ∈ operands, Writes layout operand := by
  induction operands with
  | nil => simp [AllWrite]
  | cons operand operands ih => rw [AllWrite, List.forall_mem_cons, ih]

theorem initializeNumbers_eq : ∀ (values : List Number) (offsets : List Nat) (offset : Nat) (m : Memory),
    initializeNumbers layout values offsets offset m = initializeOperands layout (values.map .number) offsets offset m
  | [], _, _, _ => by rw [initializeNumbers, List.map_nil, initializeOperands]
  | _ :: _, [], _, _ => by rw [initializeNumbers, List.map_cons, initializeOperands]
  | value :: values, o :: offsets, offset, m => by
    rw [initializeNumbers, List.map_cons, initializeOperands, initializeGlobalObject]
    exact congrArg _ (funext fun m => initializeNumbers_eq values offsets offset m)

theorem byte_congr {x y : Nat} (h : x % 256 = y % 256) : BitVec.ofNat 8 x = BitVec.ofNat 8 y := BitVec.eq_of_toNat_eq h

/-- A number that is written in front of the others. -/
theorem wrote_wrote {o n v x : Nat} (hbase : base ≤ o) (hnext : o + n ≤ total) (hv : v < 256 ^ n) (hx : 256 ^ (o + n) ∣ x)
    (hzero : ∀ a, offset + base ≤ a → a < offset + o → m a = 0) :
    wrote (wrote m (offset + o) 0 n v) offset (o + n) total x = wrote m offset base total (v * 256 ^ o + x) := by
  funext a
  simp only [wrote]
  by_cases hrest : offset + (o + n) ≤ a ∧ a < offset + total
  · rw [if_pos hrest, if_pos (by omega), div_of_ge (front_lt hv) hx (by omega)]
  rw [if_neg hrest]
  by_cases hfront : offset + o + 0 ≤ a ∧ a < offset + o + n
  · obtain ⟨d, rfl⟩ := Nat.exists_eq_add_of_le hfront.1
    rw [if_pos hfront, if_pos (by omega), show offset + o + 0 + d - (offset + o) = d by omega,
      show offset + o + 0 + d - offset = o + d by omega]
    exact byte_congr (front_byte hx (by omega)).symm
  rw [if_neg hfront]
  by_cases hgap : offset + base ≤ a ∧ a < offset + total
  · rw [if_pos hgap, hzero a hgap.1 (by omega)]
    refine (byte_congr (y := 0) (gap_byte ?_)).symm
    have hle : a - offset + 1 ≤ o := by omega
    exact dvd_add (Dvd.dvd.mul_left (pow_dvd_pow 256 hle) v) ((pow_dvd_pow 256 (hle.trans (Nat.le_add_right o n))).trans hx)
  · rw [if_neg hgap]

/-- The constant is written as its image. -/
def Initializes (layout : DataLayout) (c : Constant) : Prop := ∀ (offset : Nat) (m : Memory),
  offset * 8 + sizeInBits layout c.type < 2 ^ 32 → (∀ a, offset ≤ a → a < offset + storeSize layout c.type → m a = 0) →
  initializeGlobalObject layout c offset m = some (wrote m offset 0 (storeSize layout c.type) (image layout c))

theorem initializeOperands_eq : ∀ {operands : List Constant} {base : Nat} {offsets : List Nat} {m : Memory},
    Fits base offsets (operands.map fun c => storeSize layout c.type) total → (∀ c ∈ operands, WellTyped c ∧ Initializes layout c) →
    offset * 8 + total * 8 < 2 ^ 32 → (∀ a, offset + base ≤ a → a < offset + total → m a = 0) →
    initializeOperands layout operands offsets offset m = some (wrote m offset base total (placed offsets (operands.map (image layout))))
  | [], base, [], m, _, _, _, hzero => by
    rw [initializeOperands]
    refine congrArg some (funext fun a => ?_)
    rw [wrote]
    split_ifs with ha
    · rw [hzero a ha.1 ha.2, placed, Nat.zero_div]
      rfl
    · rfl
  | c :: operands, base, o :: offsets, m, hfits, hoperands, htotal, hzero => by
    obtain ⟨⟨hc, hinitializes⟩, hrest⟩ := List.forall_mem_cons.mp hoperands
    have hbase : base ≤ o := hfits.1
    have hnext : o + storeSize layout c.type ≤ total := hfits.2.le
    have hbits := sizeInBits_le layout c.type
    have hfirst := hinitializes (offset + o) m (by omega) fun a hlo hhi => hzero a (by omega) (by omega)
    have hlt := (image_lt layout c hc).trans_le (two_pow_le layout c.type)
    have hzero' : ∀ a, offset + (o + storeSize layout c.type) ≤ a → a < offset + total →
        wrote m (offset + o) 0 (storeSize layout c.type) (image layout c) a = 0 := by
      intro a hlo hhi
      rw [wrote, if_neg (by omega)]
      exact hzero a (by omega) hhi
    rw [initializeOperands, hfirst]
    refine (initializeOperands_eq hfits.2 hrest htotal hzero').trans (congrArg some ?_)
    exact wrote_wrote hbase hnext hlt (dvd_placed _ hfits.2) fun a hlo hhi => hzero a hlo (by omega)

/-- Arrays and structs are whole bytes. -/
def WholeBytes (layout : DataLayout) (type : SizedType) : Prop := sizeInBits layout type = storeSize layout type * 8

theorem array_wholeBytes (element : SizedType) (num : Nat) : WholeBytes layout (.array element num) := by
  rw [WholeBytes, storeSize, sizeInBits]
  omega

theorem struct_wholeBytes (isPacked : Bool) (elements : List SizedType) : WholeBytes layout (.struct isPacked elements) := by
  rw [WholeBytes, storeSize, sizeInBits]
  omega

theorem WellTyped.fits (layout : DataLayout) (hc : WellTyped c) : Fits 0 (elementOffsetsOf layout c.type)
    (c.elements.map fun c' => storeSize layout c'.type) (sizeInBits layout c.type / 8) := by
  have hfits := fits_type layout c.type
  rw [← hc.elementTypes, List.map_map] at hfits
  exact hfits

theorem initializes_of_elements (hc : WellTyped c) (hne : ∀ value, c ≠ .number value) (hbytes : WholeBytes layout c.type)
    (hinit : ∀ offset m, initializeGlobalObject layout c offset m =
      initializeOperands layout c.elements (elementOffsetsOf layout c.type) offset m)
    (helements : ∀ c' ∈ c.elements, Initializes layout c') : Initializes layout c := by
  intro offset m hfits hzero
  have hsize : sizeInBits layout c.type / 8 = storeSize layout c.type := by
    rw [hbytes, Nat.mul_div_cancel _ (by decide)]
  have hparts := hc.fits layout
  rw [hsize] at hparts
  rw [hbytes] at hfits
  rw [hinit, image_eq_placed hne]
  exact initializeOperands_eq hparts (fun c' hc' => ⟨hc.elements c' hc', helements c' hc'⟩) hfits hzero

theorem initializes : ∀ c : Constant, WellTyped c → Writes layout c → Initializes layout c := by
  refine Constant.inductOperands ?number ?null ?zero ?data ?array ?struct
  case number => exact fun value _ hwrites offset m hfits _ => initializeScalar_eq hwrites hfits (numberBits_lt layout value) m
  case null =>
    intro _ hwrites offset m hfits _
    have hpointer : Written (layout.scalarSizeInBits .pointer) := hwrites
    exact initializeScalar_eq hpointer hfits (Nat.two_pow_pos _) m
  case zero =>
    intro type _ _ offset m hfits _
    have hstore : storeSize layout type ≤ sizeInBits layout type / 8 + 1 := by
      rw [storeSize]
      omega
    rw [Constant.type] at hfits
    rw [initializeGlobalObject, Nat.mod_eq_of_lt (by omega), writeBytes_eq m offset 0 _ (by omega)]
    rfl
  case data =>
    intro element values hc hwrites
    refine initializes_of_elements hc (fun _ h => by cases h) (array_wholeBytes _ _) (fun offset m => ?_) fun c' hc' => ?_
    · rw [initializeGlobalObject, initializeNumbers_eq]
      rfl
    · obtain ⟨value, hvalue, rfl⟩ := List.mem_map.mp hc'
      exact fun offset m hfits _ => initializeScalar_eq (hwrites value hvalue) hfits (numberBits_lt layout value) m
  case array =>
    intro element operands ih hc hwrites
    refine initializes_of_elements hc (fun _ h => by cases h) (array_wholeBytes _ _) (fun offset m => ?_) fun c' hc' =>
      ih c' hc' (hc.elements c' hc') (allWrite_iff.mp hwrites c' hc')
    rw [initializeGlobalObject]
    rfl
  case struct =>
    intro isPacked operands ih hc hwrites
    refine initializes_of_elements hc (fun _ h => by cases h) (struct_wholeBytes _ _) (fun offset m => ?_) fun c' hc' =>
      ih c' hc' (hc.elements c' hc') (allWrite_iff.mp hwrites c' hc')
    rw [initializeGlobalObject]
    rfl

theorem writes_of_initializeOperands : ∀ {operands : List Constant} {offsets : List Nat} {offset : Nat} {m : Memory},
    operands.length ≤ offsets.length →
    (∀ c ∈ operands, ∀ offset m, (initializeGlobalObject layout c offset m).isSome → Writes layout c) →
    (initializeOperands layout operands offsets offset m).isSome → ∀ c ∈ operands, Writes layout c
  | [], _, _, _, _, _, _ => fun _ h => absurd h List.not_mem_nil
  | c :: operands, o :: offsets, offset, m, hlength, hoperands, h => by
    obtain ⟨hfirst, hrest⟩ := List.forall_mem_cons.mp hoperands
    rw [initializeOperands] at h
    rcases hinit : initializeGlobalObject layout c (offset + o) m with _ | m'
    · rw [hinit] at h
      cases h
    · rw [hinit] at h
      exact List.forall_mem_cons.mpr ⟨hfirst _ m (by rw [hinit]; rfl),
        writes_of_initializeOperands (Nat.le_of_succ_le_succ hlength) hrest h⟩

theorem WellTyped.length (layout : DataLayout) (hc : WellTyped c) : c.elements.length ≤ (elementOffsetsOf layout c.type).length := by
  have hlength := (hc.fits layout).length
  rw [List.length_map] at hlength
  exact hlength.le

/-- What an initialization that succeeds has written. -/
theorem writes_of_initialize : ∀ c : Constant, WellTyped c → ∀ (offset : Nat) (m : Memory),
    (initializeGlobalObject layout c offset m).isSome → Writes layout c := by
  refine Constant.inductOperands ?number ?null ?zero ?data ?array ?struct
  case number => exact fun value _ offset m h => written_of_initializeScalar h
  case null =>
    intro _ offset m h
    have hpointer : (initializeScalar layout .pointer (ConstantExpr.alloc 0 (layout.scalarSizeInBits .pointer)) offset m).isSome := h
    exact written_of_initializeScalar hpointer
  case zero => exact fun _ _ _ _ _ => trivial
  case data =>
    intro element values hc offset m h value hvalue
    rw [initializeGlobalObject, initializeNumbers_eq] at h
    refine writes_of_initializeOperands (hc.length layout) (fun c' hc' offset m h => ?_) h (.number value)
      (List.mem_map_of_mem hvalue)
    obtain ⟨value, -, rfl⟩ := List.mem_map.mp hc'
    exact written_of_initializeScalar h
  case array =>
    intro element operands ih hc offset m h
    rw [initializeGlobalObject] at h
    exact allWrite_iff.mpr (writes_of_initializeOperands (hc.length layout) (fun c' hc' => ih c' hc' (hc.elements c' hc')) h)
  case struct =>
    intro isPacked operands ih hc offset m h
    rw [initializeGlobalObject] at h
    exact allWrite_iff.mpr (writes_of_initializeOperands (hc.length layout) (fun c' hc' => ih c' hc' (hc.elements c' hc')) h)

end CapTaint.EvalConstant
