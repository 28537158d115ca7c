import CapTaint.SpecialElement
import CapTaint.Lib.OptionLoop

/-! # Synchronisation objects at their addresses

The traversal of a type is a cursor over what it visits. An object is registered where the layout has it when no padding
is lost before it. -/

namespace CapTaint.SpecialElement

open OptionLoop
open Cursor (Item roundUp passes wanted Kept Telling)

variable (layout : DataLayout)

/-! ### The layout -/

mutual
/-- The structs of the thread library in a value of the type, where the layout places them. -/
def specials : LType → Nat → List (Special × Nat)
  | .scalar _, _ | .vector _ _, _ => []
  | .array element num, base => (List.range num).flatMap fun i => specials element (base + i * layout.getTypeAllocSize element)
  | .struct name elements, base => (specialOf name).elim (elementSpecials elements base 0) fun special => [(special, base)]

/-- Those in the elements of a struct, the first of them placed from `offset` on. -/
def elementSpecials : List LType → Nat → Nat → List (Special × Nat)
  | [], _, _ => []
  | element :: elements, base, offset =>
    specials element (base + layout.elementOffset element offset) ++
      elementSpecials elements base (layout.elementOffset element offset + layout.getTypeAllocSize element)
end

/-- The kinds that are not supported. -/
def supported : ScalarType → Bool
  | .floating .half | .floating .x86_fp80 | .floating .fp128 | .floating .ppc_fp128 => false
  | _ => true

/-- What the traversal does with a value without parts. -/
def scalarItem (type : ScalarType) (place : Nat) : Item (Option Special) :=
  ⟨layout.abiAlignment type, layout.scalarSizeInBits type / 8, place, none⟩

mutual
/-- Every value without parts that is visited is of a supported kind. -/
def Supported : LType → Prop
  | .scalar type => supported type
  | .vector element num => num ≠ 0 → supported element
  | .array element num => num % 2 ^ 32 ≠ 0 → Supported element
  | .struct name elements => specialOf name = none → ElementsSupported elements

def ElementsSupported : List LType → Prop
  | [] => True
  | element :: elements => Supported element ∧ ElementsSupported elements
end

mutual
/-- What is visited, with the places of the layout. -/
def visited : LType → Nat → List (Item (Option Special))
  | .scalar type, base => [scalarItem layout type base]
  | .vector element num, base =>
    (List.range num).map fun i => scalarItem layout element (base + i * layout.scalarSizeInBits element / 8)
  | .array element num, base =>
    (List.range (num % 2 ^ 32)).flatMap fun i => visited element (base + i * layout.getTypeAllocSize element)
  | .struct name elements, base =>
    (specialOf name).elim
      (⟨layout.getABITypeAlignment (.struct name elements), 0, base, none⟩ :: visitedElements elements base 0)
      fun special => [⟨layout.getABITypeAlignment (.struct name elements),
        layout.getTypeSizeInBits (.struct name elements) / 8, base, some special⟩]

def visitedElements : List LType → Nat → Nat → List (Item (Option Special))
  | [], _, _ => []
  | element :: elements, base, offset =>
    visited element (base + layout.elementOffset element offset) ++
      visitedElements elements base (layout.elementOffset element offset + layout.getTypeAllocSize element)
end

/-- What the managers get at an address. -/
def note (mark : Option Special) (address : Nat) : List (Special × Nat) := (mark.map (·, address)).toList

theorem telling_note : Telling (fun mark : Option Special => mark ≠ none) note where
  length mark _ _ := by cases mark <;> rfl
  injective mark h a b hab := by
    cases mark with
    | none => exact absurd rfl h
    | some special =>
      rw [note, note, Option.map_some, Option.map_some, Option.toList_some, Option.toList_some, List.singleton_inj] at hab
      exact (Prod.mk.inj hab).2
  constant mark h _ _ := by
    rw [not_not.mp h]
    rfl

/-! ### The traversal is a cursor -/

variable {layout}

/-- The state behind the items. -/
def SpecialState.pass (s : SpecialState) (items : List (Item (Option Special))) : SpecialState :=
  ⟨s.registered ++ (passes note s.startAddress items).1, (passes note s.startAddress items).2⟩

theorem pass_nil (s : SpecialState) : s.pass [] = s := by
  rw [SpecialState.pass, passes, List.append_nil]

theorem pass_append (s : SpecialState) (items items' : List (Item (Option Special))) :
    s.pass (items ++ items') = (s.pass items).pass items' := by
  rw [SpecialState.pass, Cursor.passes_append, ← List.append_assoc]
  rfl

theorem pass_cons (s : SpecialState) (item : Item (Option Special)) (items : List (Item (Option Special))) :
    s.pass (item :: items) = (s.pass [item]).pass items := pass_append s [item] items

theorem createScalar_eq (type : ScalarType) (place : Nat) (s : SpecialState) :
    createScalar layout type s = if supported type then some (s.pass [scalarItem layout type place]) else none := by
  have hpass : s.pass [scalarItem layout type place] =
      (s.align (layout.abiAlignment type)).advance (layout.scalarSizeInBits type / 8) := by
    rw [SpecialState.pass, passes, passes]
    exact congrArg₂ SpecialState.mk (List.append_nil _) rfl
  rw [hpass]
  cases type with
  | integer | pointer => rfl
  | floating kind => cases kind <;> rfl

/-- A loop whose body passes the items of one element. -/
theorem foldlM_pass {f : SpecialState → Option SpecialState} {P : Prop} [Decidable P]
    {items : Nat → List (Item (Option Special))}
    (hf : ∀ s i, f s = if P then some (s.pass (items i)) else none) (n : Nat) (s : SpecialState) :
    (List.range n).foldlM (fun s _ => f s) s = if n ≠ 0 → P then some (s.pass ((List.range n).flatMap items)) else none :=
  foldlM_range_flatMap (g := fun items s => some (s.pass items)) (fun s => congrArg some (pass_nil s))
    (fun xs ys s => congrArg some (pass_append s xs ys)) hf n s

open Classical in
mutual
theorem createSpecialElement_eq : (type : LType) → (base : Nat) → (s : SpecialState) →
    createSpecialElement layout type s = if Supported type then some (s.pass (visited layout type base)) else none
  | .scalar type, base, s => by
    rw [createSpecialElement, createScalar_eq type base, visited, Supported]
    congr
  | .vector element num, base, s => by
    rw [createSpecialElement, visited, Supported, List.map_eq_flatMap,
      foldlM_pass (fun s i => createScalar_eq element (base + i * layout.scalarSizeInBits element / 8) s) num s]
    congr
  | .array element num, base, s => by
    rw [createSpecialElement, visited, Supported,
      foldlM_pass (fun s i => createSpecialElement_eq element (base + i * layout.getTypeAllocSize element) s) _ s]
    congr
  | .struct name elements, base, s => by
    rw [createSpecialElement, visited, Supported]
    rcases hspecial : specialOf name with _ | special
    · dsimp only [Option.elim_none]
      rw [createSpecialElements_eq elements base 0, pass_cons]
      have halign : s.pass [⟨layout.getABITypeAlignment (.struct name elements), 0, base, none⟩] =
          s.align (layout.getABITypeAlignment (.struct name elements)) := by
        rw [SpecialState.pass, passes, passes]
        exact congrArg₂ SpecialState.mk (List.append_nil _) rfl
      rw [halign]
      simp only [forall_const]
    · dsimp only [Option.elim_some]
      rw [if_pos nofun]
      rfl

theorem createSpecialElements_eq : (elements : List LType) → (base offset : Nat) → (s : SpecialState) →
    createSpecialElements layout elements s =
      if ElementsSupported elements then some (s.pass (visitedElements layout elements base offset)) else none
  | [], base, offset, s => by
    rw [createSpecialElements, visitedElements, ElementsSupported, if_pos trivial, pass_nil]
  | element :: elements, base, offset, s => by
    rw [createSpecialElements, visitedElements, ElementsSupported,
      createSpecialElement_eq element (base + layout.elementOffset element offset), pass_append]
    by_cases helement : Supported element
    · rw [if_pos helement]
      show createSpecialElements layout elements _ = _
      rw [createSpecialElements_eq elements base (layout.elementOffset element offset + layout.getTypeAllocSize element)]
      simp only [helement, true_and]
    · rw [if_neg helement, if_neg fun h => helement h.1]
      rfl
end

/-! ### What is visited -/

theorem wanted_flatMap {κ β : Type*} (note : κ → Nat → List β) (f : Nat → List (Item κ)) (l : List Nat) :
    wanted note (l.flatMap f) = l.flatMap fun i => wanted note (f i) := List.flatMap_assoc

mutual
/-- The traversal visits no other object than those of the layout. -/
theorem wanted_sublist : (type : LType) → (base : Nat) →
    (wanted note (visited layout type base)).Sublist (specials layout type base)
  | .scalar type, base => List.Sublist.slnil
  | .vector element num, base => by
    rw [visited, List.map_eq_flatMap, wanted_flatMap, specials]
    exact List.sublist_nil.mpr (List.flatMap_eq_nil_iff.mpr fun _ _ => rfl)
  | .array element num, base => by
    rw [visited, wanted_flatMap, specials]
    refine (List.Sublist.flatMap_right _ fun i _ => wanted_sublist element _).trans ?_
    exact (List.range_sublist.mpr (Nat.mod_le _ _)).flatMap _
  | .struct name elements, base => by
    rw [visited, specials]
    rcases specialOf name with _ | special
    · exact elements_sublist elements base 0
    · exact List.Sublist.refl _

theorem elements_sublist : (elements : List LType) → (base offset : Nat) →
    (wanted note (visitedElements layout elements base offset)).Sublist (elementSpecials layout elements base offset)
  | [], _, _ => List.Sublist.slnil
  | element :: elements, base, offset => by
    rw [visitedElements, elementSpecials, Cursor.wanted_append]
    exact (wanted_sublist element _).append (elements_sublist elements base _)
end

mutual
theorem visited_align_pos : (type : LType) → (base : Nat) → ∀ item ∈ visited layout type base, 0 < item.align
  | .scalar type, base => by
    rw [visited, List.forall_mem_singleton]
    exact layout.abiAlignment_pos type
  | .vector element num, base => by
    rw [visited, List.forall_mem_map]
    exact fun _ _ => layout.abiAlignment_pos element
  | .array element num, base => by
    intro item hitem
    obtain ⟨i, -, hitem⟩ := List.mem_flatMap.mp hitem
    exact visited_align_pos element _ item hitem
  | .struct name elements, base => by
    rw [visited]
    rcases specialOf name with _ | special
    · exact List.forall_mem_cons.mpr ⟨layout.getABITypeAlignment_pos _, visitedElements_align_pos elements base 0⟩
    · exact List.forall_mem_singleton.mpr (layout.getABITypeAlignment_pos _)

theorem visitedElements_align_pos : (elements : List LType) → (base offset : Nat) →
    ∀ item ∈ visitedElements layout elements base offset, 0 < item.align
  | [], _, _ => nofun
  | element :: elements, base, offset => by
    rw [visitedElements, List.forall_mem_append]
    exact ⟨visited_align_pos element _, visitedElements_align_pos elements base _⟩
end

/-! ### Where the objects are registered -/

variable (layout)

/-- The objects are registered where the layout has them, in order. -/
def RegistersSpecials (type : LType) (startAddress : Nat) : Prop :=
  ∃ s, createSpecialElement layout type { startAddress } = some s ∧ s.registered = specials layout type startAddress

/-- No kind stops the traversal, it visits as many objects as there are, and no padding is lost before one of them. -/
structure Reaches (type : LType) (startAddress : Nat) : Prop where
  supported : Supported type
  count : (wanted note (visited layout type startAddress)).length = (specials layout type startAddress).length
  kept : Kept (fun mark => mark ≠ none) startAddress 0 (visited layout type startAddress)

/-- The objects are registered at their addresses exactly when no padding is lost before one of them. -/
theorem registersSpecials_iff (type : LType) (startAddress : Nat) :
    RegistersSpecials layout type startAddress ↔ Reaches layout type startAddress := by
  have hzero : (startAddress : ℤ) = (startAddress : ℤ) - 0 := (sub_zero _).symm
  have hiff := Cursor.passes_fst_iff telling_note (@visited_align_pos layout type startAddress) hzero
  have hrun := @createSpecialElement_eq layout type startAddress { startAddress }
  have hsub := @wanted_sublist layout type startAddress
  constructor
  · rintro ⟨s, hs, hregistered⟩
    by_cases hsupported : Supported type
    · rw [if_pos hsupported, hs] at hrun
      obtain rfl := Option.some.inj hrun
      have hpasses : (passes note startAddress (visited layout type startAddress)).1 = specials layout type startAddress :=
        hregistered
      have hcount := (Cursor.length_passes telling_note _ startAddress).symm.trans (congrArg List.length hpasses)
      exact ⟨hsupported, hcount, hiff.mp (hpasses.trans (hsub.eq_of_length hcount).symm)⟩
    · rw [if_neg hsupported, hs] at hrun
      cases hrun
  · rintro ⟨hsupported, hcount, hkept⟩
    rw [if_pos hsupported] at hrun
    exact ⟨_, hrun, (hiff.mpr hkept).trans (hsub.eq_of_length hcount)⟩

/-- A mutex behind a struct that ends in padding and a byte. -/
def paddedMutex : LType :=
  .struct "holder" [.struct "padded" [.scalar (.integer 64), .scalar (.integer 8)], .scalar (.integer 8),
    .struct "union.pthread_mutex_t" [.scalar (.integer 64)]]

theorem not_registersSpecials_padded : ¬RegistersSpecials .x86_64 paddedMutex 4096 := by
  rintro ⟨s, hs, hregistered⟩
  have hrun : createSpecialElement .x86_64 paddedMutex { startAddress := 4096 } = some ⟨[(.mutex, 4112)], 4120⟩ := rfl
  have hplaced : specials .x86_64 paddedMutex 4096 = [(.mutex, 4120)] := rfl
  rw [hrun, Option.some.injEq] at hs
  rw [← hs, hplaced] at hregistered
  exact absurd hregistered (by decide)

end CapTaint.SpecialElement
