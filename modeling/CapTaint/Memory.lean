import Mathlib.Data.List.Forall2

/-! # Memory objects

The bytes of an object live in three places: the concrete cache, the cache of known symbolic values, and the list of
updates that a read at a symbolic offset goes through. An expression is the value that it has under each valuation `V` of
the symbolic bytes. The memory of the process, which external calls see, is a function from addresses to bytes. -/

namespace CapTaint.Memory

/-- The array below an update list and the updates, the latest one first. The constant array that `getUpdates` builds for
    an object without an array is zero where the updates say nothing. -/
structure UpdateList (V : Type) where
  root : V → Nat → UInt8
  updates : List ((V → Nat) × (V → UInt8)) := []

namespace UpdateList

variable {V : Type}

def extend (u : UpdateList V) (index : V → Nat) (value : V → UInt8) : UpdateList V :=
  { u with updates := (index, value) :: u.updates }

/-- The value of a `ReadExpr`. -/
def read (u : UpdateList V) (index : V → Nat) (v : V) : UInt8 :=
  match u.updates.find? fun update => update.1 v == index v with
  | some update => update.2 v
  | none => u.root v (index v)

end UpdateList

/-- An object's bytes with the cache invariants of the source. A missing mask stands for one in which every byte is
    concrete, or none is flushed. -/
structure ObjectState (V : Type) where
  size : Nat
  concreteStore : Nat → UInt8
  isByteConcrete : Nat → Bool
  isByteFlushed : Nat → Bool
  knownSymbolics : Nat → Option (V → UInt8)
  updates : UpdateList V
  readOnly : Bool
  /-- A byte with a known symbolic value is not concrete. -/
  known : ∀ offset, (knownSymbolics offset).isSome = true → isByteConcrete offset = false
  /-- A byte that is not flushed has a value in one of the caches. -/
  cached : ∀ offset, isByteFlushed offset = false → isByteConcrete offset = true ∨ (knownSymbolics offset).isSome = true

namespace ObjectState

variable {V : Type}

/-- `ObjectState(mo)`: all bytes concrete and zero. -/
def concrete (size : Nat) : ObjectState V where
  size := size
  concreteStore := fun _ => 0
  isByteConcrete := fun _ => true
  isByteFlushed := fun _ => false
  knownSymbolics := fun _ => none
  updates := { root := fun _ _ => 0 }
  readOnly := false
  known := by simp
  cached := by simp

/-- `read8` at a constant offset. -/
def read8 (os : ObjectState V) (offset : Nat) : V → UInt8 :=
  if os.isByteConcrete offset then fun _ => os.concreteStore offset
  else
    match os.knownSymbolics offset with
    | some value => value
    | none => os.updates.read fun _ => offset

/-- The value that the caches have for a byte that is not flushed. -/
def cachedValue (os : ObjectState V) (offset : Nat) (unflushed : os.isByteFlushed offset = false) : V → UInt8 :=
  if concrete : os.isByteConcrete offset = true then fun _ => os.concreteStore offset
  else (os.knownSymbolics offset).get ((os.cached offset unflushed).resolve_left concrete)

/-- One turn of `flushRangeForRead`: a byte that is not flushed becomes an update and keeps its cache. -/
def flushForRead (os : ObjectState V) (offset : Nat) : ObjectState V :=
  if unflushed : os.isByteFlushed offset = false then
    { os with
      updates := os.updates.extend (fun _ => offset) (os.cachedValue offset unflushed)
      isByteFlushed := fun i => i == offset || os.isByteFlushed i
      cached := by
        intro i hi
        rw [Bool.or_eq_false_iff] at hi
        exact os.cached i hi.2 }
  else os

def flushRangeForRead (os : ObjectState V) (rangeBase rangeSize : Nat) : ObjectState V :=
  (List.range' rangeBase rangeSize).foldl flushForRead os

/-- `read8` at a symbolic offset. The range of the offset is the whole object, which is flushed first. -/
def read8At (os : ObjectState V) (offset : V → Nat) : (V → UInt8) × ObjectState V :=
  let os := os.flushRangeForRead 0 os.size
  (os.updates.read offset, os)

end ObjectState

structure MemoryObject where
  address : Nat
  size : Nat
  /-- The address is one that the user chose; no memory of the process stands behind it. -/
  isUserSpecified : Bool
  deriving DecidableEq

/-- The memory of the process. -/
abbrev Native := Nat → UInt8

def memcpy (memory : Native) (address : Nat) (bytes : Nat → UInt8) (n : Nat) : Native :=
  fun a => if address ≤ a ∧ a < address + n then bytes (a - address) else memory a

/-- The objects in the order of their addresses. They do not overlap. -/
structure AddressSpace (V : Type) where
  objects : List (MemoryObject × ObjectState V)
  sizes : ∀ entry ∈ objects, entry.2.size = entry.1.size
  disjoint : (objects.map Prod.fst).Pairwise fun a b => a.address < b.address ∧ a.address + a.size ≤ b.address

namespace AddressSpace

variable {V : Type}

/-- One object of `copyOutConcretes`. -/
def copyOut (memory : Native) (entry : MemoryObject × ObjectState V) : Native :=
  if entry.1.isUserSpecified || entry.2.readOnly then memory
  else memcpy memory entry.1.address entry.2.concreteStore entry.1.size

def copyOutConcretes (space : AddressSpace V) (memory : Native) : Native := space.objects.foldl copyOut memory

/-- `memcmp` of the object's memory and its concrete cache. -/
def isChanged (memory : Native) (entry : MemoryObject × ObjectState V) : Bool :=
  (List.range entry.1.size).any fun i => memory (entry.1.address + i) != entry.2.concreteStore i

/-- The writeable object with the memory of the process copied over its concrete cache. -/
def copyIn (memory : Native) (entry : MemoryObject × ObjectState V) : ObjectState V :=
  { entry.2 with
    concreteStore := fun i => if i < entry.1.size then memory (entry.1.address + i) else entry.2.concreteStore i }

/-- The loop of `copyInConcretes`: whether it comes to the end, and the objects then. -/
def copyInObjects (memory : Native) : List (MemoryObject × ObjectState V) → Bool × List (MemoryObject × ObjectState V)
  | [] => (true, [])
  | entry :: rest =>
    if entry.1.isUserSpecified || !isChanged memory entry then
      let (completed, rest) := copyInObjects memory rest
      (completed, entry :: rest)
    else if entry.2.readOnly then (false, entry :: rest)
    else
      let (completed, rest) := copyInObjects memory rest
      (completed, (entry.1, copyIn memory entry) :: rest)

/-- The objects stay where they are and keep their sizes. -/
theorem copyInObjects_forall₂ (memory : Native) (objects : List (MemoryObject × ObjectState V)) :
    List.Forall₂ (fun entry entry' => entry'.1 = entry.1 ∧ entry'.2.size = entry.2.size) objects
      (copyInObjects memory objects).2 := by
  have hrefl (entries : List (MemoryObject × ObjectState V)) :
      List.Forall₂ (fun entry entry' => entry'.1 = entry.1 ∧ entry'.2.size = entry.2.size) entries entries :=
    List.forall₂_same.mpr fun _ _ => ⟨rfl, rfl⟩
  induction objects with
  | nil => exact .nil
  | cons entry rest ih =>
    rw [copyInObjects]
    split
    · exact .cons ⟨rfl, rfl⟩ ih
    · split
      · exact hrefl _
      · exact .cons ⟨rfl, rfl⟩ ih

theorem copyInObjects_map_fst (memory : Native) (objects : List (MemoryObject × ObjectState V)) :
    (copyInObjects memory objects).2.map Prod.fst = objects.map Prod.fst := by
  have hall := (copyInObjects_forall₂ memory objects).flip
  rw [← List.forall₂_eq_eq_eq, List.forall₂_map_left_iff, List.forall₂_map_right_iff]
  exact hall.imp fun _ _ h => h.1

/-- `copyInConcretes`: what it returns and the address space that it leaves. -/
def copyInConcretes (space : AddressSpace V) (memory : Native) : Bool × AddressSpace V :=
  ((copyInObjects memory space.objects).1,
    { objects := (copyInObjects memory space.objects).2
      sizes := by
        intro entry' hentry'
        obtain ⟨i, hi, rfl⟩ := List.getElem_of_mem hentry'
        have hall := copyInObjects_forall₂ memory space.objects
        obtain ⟨hfst, hsize⟩ := hall.get (by rw [hall.length_eq]; exact hi) hi
        have := space.sizes _ (List.getElem_mem (by rw [hall.length_eq]; exact hi))
        exact (hsize.trans this).trans (congrArg MemoryObject.size hfst.symm)
      disjoint := by
        rw [copyInObjects_map_fst]
        exact space.disjoint })

end AddressSpace

end CapTaint.Memory
