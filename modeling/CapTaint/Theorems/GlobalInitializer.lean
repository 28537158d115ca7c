import CapTaint.GlobalInitializer
import CapTaint.Lib.OptionLoop

/-! # Initial values at their addresses

The traversal of an initializer is a cursor over its leaves. A number is put into the table under its address when no
padding is lost before it. A `getelementptr` expression takes no room in the traversal, so that the padding before the next
leaf holds a pointer. -/

namespace CapTaint.PSOListener

open OptionLoop
open Cursor (Item roundUp passes wanted Kept Telling lostUpTo)

/-! ### The layout -/

/-- What the traversal comes to. -/
inductive Leaf
  | constant (constant : ScalarConstant)
  /-- a struct of the thread library -/
  | special

section
variable (layout : DataLayout)

def scalarLeaf (place : Nat) : ScalarConstant → Item Leaf
  | .gep global => ⟨1, 0, place, .constant (.gep global)⟩
  | constant => ⟨layout.abiAlignment constant.type, layout.scalarSizeInBits constant.type / 8, place, .constant constant⟩

def specialLeaf (type : LType) (place : Nat) : Item Leaf :=
  ⟨layout.getABITypeAlignment type, layout.getTypeSizeInBits type / 8, place, .special⟩

/-- The elements of an array without parts of their own, one element behind the other. -/
def numberLeaves (element : ScalarType) : List Number → Nat → List (Item Leaf)
  | [], _ => []
  | number :: numbers, base => scalarLeaf layout base (.number number) ::
    numberLeaves element numbers (base + layout.getTypeAllocSize (.scalar element))

mutual
/-- The leaves of the null value of a type, at their places in the layout. -/
def zeroLeaves : LType → Nat → List (Item Leaf)
  | .scalar type, base => [scalarLeaf layout base (nullValue type)]
  | .vector element num, base =>
    (List.range num).map fun i => scalarLeaf layout (base + i * layout.scalarSizeInBits element / 8) (nullValue element)
  | .array element num, base => (List.range num).flatMap fun i => zeroLeaves element (base + i * layout.getTypeAllocSize element)
  | .struct name elements, base =>
    if (specialOf name).isSome then [specialLeaf layout (.struct name elements) base] else zeroFieldLeaves elements base 0

def zeroFieldLeaves : List LType → Nat → Nat → List (Item Leaf)
  | [], _, _ => []
  | element :: elements, base, offset =>
    zeroLeaves element (base + layout.elementOffset element offset) ++
      zeroFieldLeaves elements base (layout.elementOffset element offset + layout.getTypeAllocSize element)
end

mutual
/-- The leaves of a constant, at their places in the layout. -/
def leaves : Constant → Nat → List (Item Leaf)
  | .scalar constant, base => [scalarLeaf layout base constant]
  | .dataArray element elements, base => numberLeaves layout element elements base
  | .aggregateZero type, base => zeroLeaves layout type base
  | .array element elements, base => elementLeaves element elements base
  | .struct name fields, base =>
    if (specialOf name).isSome then [specialLeaf layout (Constant.struct name fields).type base] else fieldLeaves fields base 0

def elementLeaves (type : LType) : List Constant → Nat → List (Item Leaf)
  | [], _ => []
  | element :: elements, base => leaves element base ++ elementLeaves type elements (base + layout.getTypeAllocSize type)

def fieldLeaves : List Constant → Nat → Nat → List (Item Leaf)
  | [], _, _ => []
  | field :: fields, base, offset =>
    leaves field (base + layout.elementOffset field.type offset) ++
      fieldLeaves fields base (layout.elementOffset field.type offset + layout.getTypeAllocSize field.type)
end

end

mutual
/-- The loops over the elements come to an end. -/
def ZeroCounted : LType → Prop
  | .scalar _ | .vector _ _ => True
  | .array element num => num < 2 ^ 32 ∧ (num ≠ 0 → ZeroCounted element)
  | .struct name elements => (specialOf name).isSome = false → ZerosCounted elements

def ZerosCounted : List LType → Prop
  | [] => True
  | element :: elements => ZeroCounted element ∧ ZerosCounted elements
end

mutual
def Counted : Constant → Prop
  | .scalar _ => True
  | .dataArray _ elements => elements.length < 2 ^ 32
  | .aggregateZero type => ZeroCounted type
  | .array _ elements => AllCounted elements
  | .struct name fields => (specialOf name).isSome = false → AllCounted fields

def AllCounted : List Constant → Prop
  | [] => True
  | constant :: constants => Counted constant ∧ AllCounted constants
end

/-! ### The traversal is a cursor -/

variable {layout : DataLayout} {handled handled' : Nat → Option (List (String × Number))} {mo : Location}

/-- What a leaf puts into the table. -/
def note (handled : Nat → Option (List (String × Number))) (mo : Location) : Leaf → Nat → List (String × Number)
  | .constant (.number number), address => [(createVarName { mo with address }, number)]
  | .constant (.gep global), _ => (handled global).getD []
  | .constant .null, _ | .special, _ => []

/-- The leaf does not stop the traversal. -/
def Leaf.returns (handled : Nat → Option (List (String × Number))) : Leaf → Bool
  | .constant (.gep global) => (handled global).isSome
  | _ => true

def Leaf.isNumber : Leaf → Bool
  | .constant (.number _) => true
  | _ => false

/-- The visit of a leaf. -/
def visit (handled : Nat → Option (List (String × Number))) (mo : Location) (s : InitState) (item : Item Leaf) : Option InitState :=
  if item.mark.returns handled then
    some ⟨s.initialized ++ note handled mo item.mark (roundUp item.align s.startAddress), roundUp item.align s.startAddress + item.size⟩
  else none

theorem handleScalar_eq (constant : ScalarConstant) (place : Nat) (s : InitState) :
    handleScalar layout handled mo constant s = visit handled mo s (scalarLeaf layout place constant) := by
  rcases constant with number | _ | global
  · rfl
  · show some _ = some _
    exact congrArg some (congrArg₂ InitState.mk (List.append_nil _).symm rfl)
  · rw [handleScalar, handleConstantExpr, scalarLeaf, visit]
    have hone : ∀ x, roundUp 1 x = x := fun x => Cursor.roundUp_of_dvd (one_dvd x)
    rcases hhandled : handled global with _ | inserted
    · rw [if_neg (by rw [Leaf.returns, hhandled]; exact Bool.false_ne_true)]
      rfl
    · rw [if_pos (by rw [Leaf.returns, hhandled]; rfl), note, hhandled, hone]
      rfl

theorem passSpecial_eq (type : LType) (place : Nat) (s : InitState) :
    some (passSpecial layout type s) = visit handled mo s (specialLeaf layout type place) :=
  congrArg some (congrArg₂ InitState.mk (List.append_nil _).symm rfl)

/-- A loop whose body passes the leaves of one element. -/
theorem foldlM_leaves {f : InitState → Option InitState} {P : Prop} [Decidable P] {items : Nat → List (Item Leaf)}
    (hf : ∀ s i, f s = if P then (items i).foldlM (visit handled mo) s else none) (n : Nat) (s : InitState) :
    (List.range n).foldlM (fun s _ => f s) s =
      if n ≠ 0 → P then ((List.range n).flatMap items).foldlM (visit handled mo) s else none :=
  foldlM_range_flatMap (g := fun items s => items.foldlM (visit handled mo) s) (fun _ => rfl)
    (fun _ _ _ => List.foldlM_append) hf n s

theorem foldl_numberLeaves (element : ScalarType) (numbers : List Number) (base : Nat) (s : InitState) :
    some (numbers.foldl (fun s number => handleNumber layout mo number s) s) =
      (numberLeaves layout element numbers base).foldlM (visit handled mo) s := by
  induction numbers generalizing base s with
  | nil => rfl
  | cons number numbers ih =>
    rw [List.foldl_cons, ih (base + layout.getTypeAllocSize (.scalar element)), numberLeaves, List.foldlM_cons, ← handleScalar_eq]
    rfl

open Classical in
mutual
theorem handleAggregateZero_eq : (type : LType) → (base : Nat) → (s : InitState) →
    handleAggregateZero layout handled mo type s =
      if ZeroCounted type then (zeroLeaves layout type base).foldlM (visit handled mo) s else none
  | .scalar type, base, s => by
    rw [handleAggregateZero, zeroLeaves, ZeroCounted, if_pos trivial, foldlM_singleton, handleScalar_eq _ base]
  | .vector element num, base, s => by
    have hloop : (List.range num).foldlM (fun s _ => handleScalar layout handled mo (nullValue element) s) s =
        if num ≠ 0 → True then
          ((List.range num).flatMap fun i => [scalarLeaf layout (base + i * layout.scalarSizeInBits element / 8) (nullValue element)]).foldlM
            (visit handled mo) s
        else none :=
      foldlM_leaves (fun s i => by rw [if_pos trivial, foldlM_singleton, ← handleScalar_eq]) num s
    rw [handleAggregateZero, zeroLeaves, ZeroCounted, if_pos trivial, hloop, if_pos fun _ => trivial, List.map_eq_flatMap]
  | .array element num, base, s => by
    rw [handleAggregateZero, zeroLeaves, ZeroCounted,
      foldlM_leaves (fun s i => handleAggregateZero_eq element (base + i * layout.getTypeAllocSize element) s) num s]
    by_cases hnum : num < 2 ^ 32
    · simp only [hnum, if_true, true_and]
    · rw [if_neg hnum, if_neg fun h => hnum h.1]
  | .struct name elements, base, s => by
    rw [handleAggregateZero, zeroLeaves, ZeroCounted]
    rcases Bool.eq_false_or_eq_true (specialOf name).isSome with hspecial | hspecial
    · rw [if_pos hspecial, if_pos hspecial, if_pos fun h => absurd (hspecial.symm.trans h) (by decide), foldlM_singleton, passSpecial_eq]
    · simp only [hspecial, Bool.false_eq_true, if_false, forall_const]
      exact handleAggregateZeros_eq elements base 0 s

theorem handleAggregateZeros_eq : (elements : List LType) → (base offset : Nat) → (s : InitState) →
    handleAggregateZeros layout handled mo elements s =
      if ZerosCounted elements then (zeroFieldLeaves layout elements base offset).foldlM (visit handled mo) s else none
  | [], base, offset, s => by
    rw [ZerosCounted, if_pos trivial]
    rfl
  | element :: elements, base, offset, s => by
    rw [handleAggregateZeros, zeroFieldLeaves, ZerosCounted, handleAggregateZero_eq element (base + layout.elementOffset element offset),
      List.foldlM_append, ← bind_ite]
    exact congrArg _ (funext fun s => handleAggregateZeros_eq elements base _ s)
end

open Classical in
mutual
theorem handleInitializer_eq : (constant : Constant) → (base : Nat) → (s : InitState) →
    handleInitializer layout handled mo constant s =
      if Counted constant then (leaves layout constant base).foldlM (visit handled mo) s else none
  | .scalar constant, base, s => by
    rw [handleInitializer, leaves, Counted, if_pos trivial, foldlM_singleton, handleScalar_eq _ base]
  | .dataArray element elements, base, s => by
    rw [handleInitializer, leaves, Counted, foldl_numberLeaves element elements base]
    congr
  | .aggregateZero type, base, s => by
    rw [handleInitializer, leaves, Counted, handleAggregateZero_eq type base]
  | .array element elements, base, s => by
    rw [handleInitializer, leaves, Counted]
    exact handleElements_eq element elements base s
  | .struct name fields, base, s => by
    rw [handleInitializer, leaves, Counted]
    rcases Bool.eq_false_or_eq_true (specialOf name).isSome with hspecial | hspecial
    · rw [if_pos hspecial, if_pos hspecial, if_pos fun h => absurd (hspecial.symm.trans h) (by decide), foldlM_singleton, passSpecial_eq]
    · simp only [hspecial, Bool.false_eq_true, if_false, forall_const]
      exact handleFields_eq fields base 0 s

theorem handleElements_eq (type : LType) : (elements : List Constant) → (base : Nat) → (s : InitState) →
    handleInitializers layout handled mo elements s =
      if AllCounted elements then (elementLeaves layout type elements base).foldlM (visit handled mo) s else none
  | [], base, s => by
    rw [AllCounted, if_pos trivial]
    rfl
  | element :: elements, base, s => by
    rw [handleInitializers, elementLeaves, AllCounted, handleInitializer_eq element base, List.foldlM_append, ← bind_ite]
    exact congrArg _ (funext fun s => handleElements_eq type elements _ s)

theorem handleFields_eq : (fields : List Constant) → (base offset : Nat) → (s : InitState) →
    handleInitializers layout handled mo fields s =
      if AllCounted fields then (fieldLeaves layout fields base offset).foldlM (visit handled mo) s else none
  | [], base, offset, s => by
    rw [AllCounted, if_pos trivial]
    rfl
  | field :: fields, base, offset, s => by
    rw [handleInitializers, fieldLeaves, AllCounted, handleInitializer_eq field (base + layout.elementOffset field.type offset),
      List.foldlM_append, ← bind_ite]
    exact congrArg _ (funext fun s => handleFields_eq fields base _ s)
end

variable {items : List (Item Leaf)} {globals : Nat → Option GlobalVariable} {fuel fuel' global : Nat}

/-- All leaves let the traversal go on. -/
def AllReturn (handled : Nat → Option (List (String × Number))) (items : List (Item Leaf)) : Prop :=
  ∀ item ∈ items, item.mark.returns handled = true

theorem foldlM_visit (h : AllReturn handled items) (s : InitState) : items.foldlM (visit handled mo) s =
    some ⟨s.initialized ++ (passes (note handled mo) s.startAddress items).1, (passes (note handled mo) s.startAddress items).2⟩ := by
  induction items generalizing s with
  | nil => exact congrArg some (congrArg₂ InitState.mk (List.append_nil _).symm rfl)
  | cons item items ih =>
    obtain ⟨hitem, hitems⟩ := List.forall_mem_cons.mp h
    rw [List.foldlM_cons, visit, if_pos hitem]
    show items.foldlM (visit handled mo) _ = _
    rw [ih hitems, passes]
    dsimp only
    rw [List.append_assoc]

theorem allReturn_of_foldlM {s s' : InitState} (h : items.foldlM (visit handled mo) s = some s') : AllReturn handled items := by
  induction items generalizing s with
  | nil => nofun
  | cons item items ih =>
    rw [List.foldlM_cons, visit] at h
    by_cases hitem : item.mark.returns handled = true
    · rw [if_pos hitem] at h
      exact List.forall_mem_cons.mpr ⟨hitem, ih h⟩
    · rw [if_neg hitem] at h
      cases h

/-- The call returns when its loops and the calls for other variables do, and then it is a run of the cursor. -/
theorem handleInitializer_eq_some (constant : Constant) (s s' : InitState) :
    handleInitializer layout handled mo constant s = some s' ↔
      Counted constant ∧ AllReturn handled (leaves layout constant s.startAddress) ∧
        s' = ⟨s.initialized ++ (passes (note handled mo) s.startAddress (leaves layout constant s.startAddress)).1,
          (passes (note handled mo) s.startAddress (leaves layout constant s.startAddress)).2⟩ := by
  classical
  rw [handleInitializer_eq constant s.startAddress s]
  constructor
  · intro h
    by_cases hcounted : Counted constant
    · rw [if_pos hcounted] at h
      have hreturn := allReturn_of_foldlM h
      rw [foldlM_visit hreturn] at h
      exact ⟨hcounted, hreturn, (Option.some.inj h).symm⟩
    · rw [if_neg hcounted] at h
      cases h
  · rintro ⟨hcounted, hreturn, rfl⟩
    rw [if_pos hcounted, foldlM_visit hreturn]

/-! ### Variables that refer to each other -/

/-- The initializer of the variable is there, its loops come to an end, and the pointers in it lead to such variables: they
    never lead back. -/
inductive Ends (layout : DataLayout) (globals : Nat → Option GlobalVariable) : Nat → Prop
  | intro {global : Nat} (definition : GlobalVariable) (found : globals global = some definition)
      (counted : Counted definition.initializer)
      (pointees : ∀ item ∈ leaves layout definition.initializer definition.memory.address, ∀ pointee,
        item.mark = .constant (.gep pointee) → Ends layout globals pointee) : Ends layout globals global

theorem returns_iff {leaf : Leaf} : leaf.returns handled = true ↔ ∀ pointee, leaf = .constant (.gep pointee) → (handled pointee).isSome := by
  rcases leaf with (number | _ | pointee) | _
  · exact iff_of_true rfl nofun
  · exact iff_of_true rfl nofun
  · exact ⟨fun h _ heq => by cases heq; exact h, fun h => h pointee rfl⟩
  · exact iff_of_true rfl nofun

theorem handleGlobal_isSome_iff : (handleGlobal layout globals (fuel + 1) global).isSome ↔
    ∃ definition, globals global = some definition ∧ Counted definition.initializer ∧
      AllReturn (handleGlobal layout globals fuel) (leaves layout definition.initializer definition.memory.address) := by
  rw [handleGlobal]
  constructor
  · intro h
    obtain ⟨inserted, hinserted⟩ := Option.isSome_iff_exists.mp h
    obtain ⟨definition, hfound, hmap⟩ := Option.bind_eq_some_iff.mp hinserted
    obtain ⟨s, hs, -⟩ := Option.map_eq_some_iff.mp hmap
    obtain ⟨hcounted, hreturn, -⟩ := (handleInitializer_eq_some _ _ _).mp hs
    exact ⟨definition, hfound, hcounted, hreturn⟩
  · rintro ⟨definition, hfound, hcounted, hreturn⟩
    rw [hfound, Option.bind_some, Option.isSome_map,
      (handleInitializer_eq_some definition.initializer _ _).mpr ⟨hcounted, hreturn, rfl⟩]
    rfl

theorem handleGlobal_isSome_succ (h : (handleGlobal layout globals fuel global).isSome) :
    (handleGlobal layout globals (fuel + 1) global).isSome := by
  induction fuel generalizing global with
  | zero => cases h
  | succ fuel ih =>
    obtain ⟨definition, hfound, hcounted, hreturn⟩ := handleGlobal_isSome_iff.mp h
    refine handleGlobal_isSome_iff.mpr ⟨definition, hfound, hcounted, fun item hitem => returns_iff.mpr fun pointee hmark => ?_⟩
    exact ih (returns_iff.mp (hreturn item hitem) pointee hmark)

theorem handleGlobal_isSome_mono (hle : fuel ≤ fuel') (h : (handleGlobal layout globals fuel global).isSome) :
    (handleGlobal layout globals fuel' global).isSome :=
  Nat.le_induction h (fun _ _ ih => handleGlobal_isSome_succ ih) fuel' hle

/-- One bound does for all leaves. -/
theorem exists_allReturn (h : ∀ item ∈ items, ∃ fuel, item.mark.returns (handleGlobal layout globals fuel) = true) :
    ∃ fuel, AllReturn (handleGlobal layout globals fuel) items := by
  induction items with
  | nil => exact ⟨0, nofun⟩
  | cons item items ih =>
    obtain ⟨⟨fuel, hitem⟩, hitems⟩ := List.forall_mem_cons.mp h
    obtain ⟨fuel', hrest⟩ := ih hitems
    have hmono : ∀ {leaf : Leaf} {n}, n ≤ max fuel fuel' → leaf.returns (handleGlobal layout globals n) = true →
        leaf.returns (handleGlobal layout globals (max fuel fuel')) = true := fun hle hreturns =>
      returns_iff.mpr fun pointee hmark => handleGlobal_isSome_mono hle (returns_iff.mp hreturns pointee hmark)
    exact ⟨max fuel fuel', List.forall_mem_cons.mpr ⟨hmono (le_max_left _ _) hitem, fun other hother =>
      hmono (le_max_right _ _) (hrest other hother)⟩⟩

theorem exists_returns {leaf : Leaf}
    (h : ∀ pointee, leaf = .constant (.gep pointee) → ∃ fuel, (handleGlobal layout globals fuel pointee).isSome) :
    ∃ fuel, leaf.returns (handleGlobal layout globals fuel) = true := by
  rcases leaf with (number | _ | pointee) | _
  exacts [⟨0, rfl⟩, ⟨0, rfl⟩, h pointee rfl, ⟨0, rfl⟩]

theorem exists_isSome_iff_ends : (∃ fuel, (handleGlobal layout globals fuel global).isSome) ↔ Ends layout globals global := by
  constructor
  · rintro ⟨fuel, h⟩
    induction fuel generalizing global with
    | zero => cases h
    | succ fuel ih =>
      obtain ⟨definition, hfound, hcounted, hreturn⟩ := handleGlobal_isSome_iff.mp h
      exact .intro definition hfound hcounted fun item hitem pointee hmark =>
        ih (returns_iff.mp (hreturn item hitem) pointee hmark)
  · intro h
    induction h with
    | intro definition hfound hcounted _ ih =>
      have hbound : ∃ fuel, AllReturn (handleGlobal layout globals fuel) (leaves layout definition.initializer definition.memory.address) :=
        exists_allReturn fun item hitem => exists_returns fun pointee hmark => ih item hitem pointee hmark
      obtain ⟨fuel, hreturn⟩ := hbound
      exact ⟨fuel + 1, handleGlobal_isSome_iff.mpr ⟨definition, hfound, hcounted, hreturn⟩⟩

/-! ### The leaves -/

theorem createVarName_injective (mo : Location) : Function.Injective fun address => createVarName { mo with address } := by
  intro a b hab
  exact Nat.repr_injective (String.append_right_inj _ |>.mp hab)

theorem telling_note (handled : Nat → Option (List (String × Number))) (mo : Location) :
    Telling (fun leaf : Leaf => leaf.isNumber = true) (note handled mo) where
  length leaf _ _ := by rcases leaf with (number | _ | pointee) | _ <;> rfl
  injective leaf h a b hab := by
    rcases leaf with (number | _ | pointee) | _
    · exact createVarName_injective mo (Prod.mk.inj (List.singleton_inj.mp hab)).1
    all_goals cases h
  constant leaf h _ _ := by
    rcases leaf with (number | _ | pointee) | _
    · exact absurd rfl h
    all_goals rfl

theorem scalarLeaf_align_pos (layout : DataLayout) (place : Nat) (constant : ScalarConstant) : 0 < (scalarLeaf layout place constant).align := by
  rcases constant with number | _ | pointee
  exacts [layout.abiAlignment_pos _, layout.abiAlignment_pos _, Nat.one_pos]

theorem numberLeaves_align_pos (layout : DataLayout) (element : ScalarType) (numbers : List Number) (base : Nat) :
    ∀ item ∈ numberLeaves layout element numbers base, 0 < item.align := by
  induction numbers generalizing base with
  | nil => nofun
  | cons number numbers ih => exact List.forall_mem_cons.mpr ⟨scalarLeaf_align_pos layout _ _, ih _⟩

mutual
theorem zeroLeaves_align_pos (layout : DataLayout) : (type : LType) → (base : Nat) → ∀ item ∈ zeroLeaves layout type base, 0 < item.align
  | .scalar type, base => by
    rw [zeroLeaves, List.forall_mem_singleton]
    exact scalarLeaf_align_pos layout _ _
  | .vector element num, base => by
    rw [zeroLeaves, List.forall_mem_map]
    exact fun _ _ => scalarLeaf_align_pos layout _ _
  | .array element num, base => by
    intro item hitem
    obtain ⟨i, -, hitem⟩ := List.mem_flatMap.mp hitem
    exact zeroLeaves_align_pos layout element _ item hitem
  | .struct name elements, base => by
    rw [zeroLeaves]
    split
    · exact List.forall_mem_singleton.mpr (layout.getABITypeAlignment_pos _)
    · exact zeroFieldLeaves_align_pos layout elements base 0

theorem zeroFieldLeaves_align_pos (layout : DataLayout) : (elements : List LType) → (base offset : Nat) →
    ∀ item ∈ zeroFieldLeaves layout elements base offset, 0 < item.align
  | [], _, _ => nofun
  | element :: elements, base, offset => by
    rw [zeroFieldLeaves, List.forall_mem_append]
    exact ⟨zeroLeaves_align_pos layout element _, zeroFieldLeaves_align_pos layout elements base _⟩
end

mutual
theorem leaves_align_pos (layout : DataLayout) : (constant : Constant) → (base : Nat) → ∀ item ∈ leaves layout constant base, 0 < item.align
  | .scalar constant, base => by
    rw [leaves, List.forall_mem_singleton]
    exact scalarLeaf_align_pos layout _ _
  | .dataArray element elements, base => numberLeaves_align_pos layout element elements base
  | .aggregateZero type, base => zeroLeaves_align_pos layout type base
  | .array element elements, base => elementLeaves_align_pos layout element elements base
  | .struct name fields, base => by
    rw [leaves]
    split
    · exact List.forall_mem_singleton.mpr (layout.getABITypeAlignment_pos _)
    · exact fieldLeaves_align_pos layout fields base 0

theorem elementLeaves_align_pos (layout : DataLayout) (type : LType) : (elements : List Constant) → (base : Nat) →
    ∀ item ∈ elementLeaves layout type elements base, 0 < item.align
  | [], _ => nofun
  | element :: elements, base => by
    rw [elementLeaves, List.forall_mem_append]
    exact ⟨leaves_align_pos layout element _, elementLeaves_align_pos layout type elements _⟩

theorem fieldLeaves_align_pos (layout : DataLayout) : (fields : List Constant) → (base offset : Nat) →
    ∀ item ∈ fieldLeaves layout fields base offset, 0 < item.align
  | [], _, _ => nofun
  | field :: fields, base, offset => by
    rw [fieldLeaves, List.forall_mem_append]
    exact ⟨leaves_align_pos layout field _, fieldLeaves_align_pos layout fields base _⟩
end

/-! ### Where the numbers are registered -/

/-- A null pointer or a `getelementptr` expression. -/
def Leaf.isPointer : Leaf → Bool
  | .constant .null | .constant (.gep _) => true
  | _ => false

/-- What a leaf would put into a table of all constants without parts, the pointers among them. -/
def fullNote (handled : Nat → Option (List (String × Number))) (mo : Location) : Leaf → Nat → List (String × ScalarConstant)
  | .constant (.gep global), address =>
    (createVarName { mo with address }, .gep global) :: ((handled global).getD []).map (Prod.map id .number)
  | .constant constant, address => [(createVarName { mo with address }, constant)]
  | .special, _ => []

section
variable (layout : DataLayout) (globals : Nat → Option GlobalVariable) (mo : Location) (constant : Constant) (startAddress : Nat)

/-- The call returns. The numbers of the initializer are in the table under the names of their addresses by the layout, with the
    entries for the variables it points to between them, and the running address is the end of the value. -/
def RegistersNumbers : Prop :=
  ∃ fuel, handleInitializer layout (handleGlobal layout globals fuel) mo constant { startAddress } =
    some ⟨wanted (note (handleGlobal layout globals fuel) mo) (leaves layout constant startAddress),
      startAddress + layout.getTypeAllocSize constant.type⟩

/-- The same with an entry for each constant without parts, pointers included. -/
def RegistersScalars : Prop :=
  ∃ fuel s, handleInitializer layout (handleGlobal layout globals fuel) mo constant { startAddress } = some s ∧
    s.initialized.map (Prod.map id .number) = wanted (fullNote (handleGlobal layout globals fuel) mo) (leaves layout constant startAddress) ∧
    s.startAddress = startAddress + layout.getTypeAllocSize constant.type

/-- The loops and the calls for other variables come to an end, and no padding is lost before a number and before the end. -/
structure KeepsLayout : Prop where
  counted : Counted constant
  ends : ∀ item ∈ leaves layout constant startAddress, ∀ pointee, item.mark = .constant (.gep pointee) → Ends layout globals pointee
  kept : Kept (fun leaf => leaf.isNumber = true) startAddress 0 (leaves layout constant startAddress)
  last : lostUpTo ((startAddress + layout.getTypeAllocSize constant.type : Nat) : ℤ) startAddress 0
    (leaves layout constant startAddress) = 0

variable {layout globals mo constant startAddress}

theorem exists_allReturn_iff : (∃ fuel, AllReturn (handleGlobal layout globals fuel) items) ↔
    ∀ item ∈ items, ∀ pointee, item.mark = .constant (.gep pointee) → Ends layout globals pointee := by
  constructor
  · rintro ⟨fuel, h⟩ item hitem pointee hmark
    exact exists_isSome_iff_ends.mp ⟨fuel, returns_iff.mp (h item hitem) pointee hmark⟩
  · exact fun h => exists_allReturn fun item hitem => exists_returns fun pointee hmark =>
      exists_isSome_iff_ends.mpr (h item hitem pointee hmark)

theorem passes_eq_iff : passes (note handled mo) startAddress (leaves layout constant startAddress) =
      (wanted (note handled mo) (leaves layout constant startAddress), startAddress + layout.getTypeAllocSize constant.type) ↔
    Kept (fun leaf => leaf.isNumber = true) startAddress 0 (leaves layout constant startAddress) ∧
      lostUpTo ((startAddress + layout.getTypeAllocSize constant.type : Nat) : ℤ) startAddress 0
        (leaves layout constant startAddress) = 0 := by
  have hpos := leaves_align_pos layout constant startAddress
  have hzero : (startAddress : ℤ) = (startAddress : ℤ) - 0 := (sub_zero _).symm
  have hlast : ((startAddress + layout.getTypeAllocSize constant.type : Nat) -
      (passes (note handled mo) startAddress (leaves layout constant startAddress)).2 : ℤ) = _ := Cursor.passes_snd hpos hzero
  rw [Prod.ext_iff, Cursor.passes_fst_iff (telling_note handled mo) hpos hzero, ← hlast, sub_eq_zero, Nat.cast_inj]
  exact and_congr_right fun _ => eq_comm

theorem registersNumbers_iff : RegistersNumbers layout globals mo constant startAddress ↔
    KeepsLayout layout globals constant startAddress := by
  constructor
  · rintro ⟨fuel, h⟩
    obtain ⟨hcounted, hreturn, hs⟩ := (handleInitializer_eq_some _ _ _).mp h
    obtain ⟨hentries, haddress⟩ := InitState.mk.inj hs
    obtain ⟨hkept, hlast⟩ := passes_eq_iff.mp (Prod.ext hentries.symm haddress.symm)
    exact ⟨hcounted, exists_allReturn_iff.mp ⟨fuel, hreturn⟩, hkept, hlast⟩
  · rintro ⟨hcounted, hends, hkept, hlast⟩
    obtain ⟨fuel, hreturn⟩ := exists_allReturn_iff.mpr hends
    refine ⟨fuel, (handleInitializer_eq_some _ _ _).mpr ⟨hcounted, hreturn, ?_⟩⟩
    dsimp only
    rw [passes_eq_iff.mpr ⟨hkept, hlast⟩]
    rfl

/-! ### The table with the pointers -/

theorem length_fullNote (leaf : Leaf) (address : Nat) :
    (fullNote handled mo leaf address).length = (note handled mo leaf address).length + if leaf.isPointer then 1 else 0 := by
  rcases leaf with (number | _ | pointee) | _
  · rfl
  · rfl
  · exact congrArg (· + 1) (List.length_map _)
  · rfl

theorem fullNote_eq {leaf : Leaf} (h : leaf.isPointer = false) (address : Nat) :
    fullNote handled mo leaf address = (note handled mo leaf address).map (Prod.map id .number) := by
  rcases leaf with (number | _ | pointee) | _
  · rfl
  · cases h
  · cases h
  · rfl

theorem length_wanted_fullNote (items : List (Item Leaf)) : (wanted (fullNote handled mo) items).length =
    (wanted (note handled mo) items).length + items.countP (·.mark.isPointer) := by
  induction items with
  | nil => rfl
  | cons item items ih =>
    rw [wanted, wanted, List.flatMap_cons, List.flatMap_cons, List.length_append, List.length_append, List.countP_cons, length_fullNote]
    rw [wanted, wanted] at ih
    rw [ih]
    ring

theorem wanted_fullNote (h : ∀ item ∈ items, item.mark.isPointer = false) :
    wanted (fullNote handled mo) items = (wanted (note handled mo) items).map (Prod.map id .number) := by
  rw [wanted, wanted, List.map_flatMap]
  exact List.flatMap_congr fun item hitem => fullNote_eq (h item hitem) _

/-- The numbers are registered at their addresses exactly when no padding is lost. No pointer is ever registered. -/
theorem handleInitializer_iff :
    (RegistersNumbers layout globals mo constant startAddress ↔ KeepsLayout layout globals constant startAddress) ∧
      (RegistersScalars layout globals mo constant startAddress ↔ KeepsLayout layout globals constant startAddress ∧
        ∀ item ∈ leaves layout constant startAddress, item.mark.isPointer = false) := by
  refine ⟨registersNumbers_iff, ?_⟩
  rw [← @registersNumbers_iff layout globals mo]
  constructor
  · rintro ⟨fuel, s, hrun, hentries, haddress⟩
    obtain ⟨-, -, rfl⟩ := (handleInitializer_eq_some _ _ _).mp hrun
    have hlength := congrArg List.length hentries
    rw [List.length_map, length_wanted_fullNote] at hlength
    dsimp only at hlength
    rw [List.nil_append, Cursor.length_passes (telling_note _ _), left_eq_add, List.countP_eq_zero] at hlength
    have hnone : ∀ item ∈ leaves layout constant startAddress, item.mark.isPointer = false := fun item hitem =>
      eq_false_of_ne_true (hlength item hitem)
    rw [wanted_fullNote hnone] at hentries
    have hinj : Function.Injective (Prod.map id ScalarConstant.number : String × Number → String × ScalarConstant) :=
      Function.injective_id.prodMap fun _ _ h => ScalarConstant.number.inj h
    exact ⟨⟨fuel, hrun.trans (congrArg some (congrArg₂ InitState.mk (List.map_injective_iff.mpr hinj hentries) haddress))⟩, hnone⟩
  · rintro ⟨⟨fuel, hrun⟩, hnone⟩
    exact ⟨fuel, _, hrun, (wanted_fullNote hnone).symm, rfl⟩

end

/-- Two numbers in a struct that ends in padding. -/
def padded : Constant := .struct "padded" [.scalar (.number (.int 64 1)), .scalar (.number (.int 8 2))]

theorem not_registersNumbers_padded : ¬RegistersNumbers .x86_64 (fun _ => none) ⟨0, 4096, true⟩ padded 4096 := by
  rintro ⟨fuel, h⟩
  have hrun : handleInitializer .x86_64 (handleGlobal .x86_64 (fun _ => none) fuel) ⟨0, 4096, true⟩ padded { startAddress := 4096 } =
    some ⟨[(createVarName ⟨0, 4096, true⟩, .int 64 1), (createVarName ⟨0, 4104, true⟩, .int 8 2)], 4105⟩ := rfl
  have hsize : DataLayout.x86_64.getTypeAllocSize padded.type = 16 := rfl
  rw [hrun, hsize, Option.some.injEq] at h
  exact absurd (InitState.mk.inj h).2 (by decide)

end CapTaint.PSOListener
