import CapTaint.Klee.ObjectState
import CapTaint.Lib.SortedList

/-! # Address spaces

A map from memory objects, in the order of their addresses, to object states that address spaces share until one of them
writes. A pointer to an object state is a number. -/

namespace CapTaint.Klee

structure MemoryObject where
  address : Nat
  size : Nat
  deriving DecidableEq

/-- `ConstantExpr::create`. -/
def ConstantExpr.create (v w : Nat) : Created := if v < 2 ^ w then .ok (.constant w (BitVec.ofNat w v)) else .error .assertion

namespace MemoryObject

variable (mo : MemoryObject) (opt : Bool) (pointerWidth : Nat)

def getBaseExpr : Created := ConstantExpr.create mo.address pointerWidth

def getSizeExpr : Created := ConstantExpr.create mo.size pointerWidth

def getOffsetExpr (pointer : Expr) : Created := do
  SubExpr.create opt pointer (← mo.getBaseExpr pointerWidth)

def getBoundsCheckOffset (offset : Expr) : Created := do
  if mo.size = 0 then createComparison opt offset (.constant pointerWidth 0) .eq
  else createComparison opt offset (← mo.getSizeExpr pointerWidth) .ult

def getBoundsCheckPointer (pointer : Expr) : Created := do
  mo.getBoundsCheckOffset opt pointerWidth (← mo.getOffsetExpr opt pointerWidth pointer)

end MemoryObject

/-! ### The object states -/

/-- An `ObjectState` with its member for the address spaces. -/
structure OwnedState where
  copyOnWriteOwner : BitVec 32 := 0
  state : ObjectState

/-- The copy constructor of `ObjectState`. -/
def OwnedState.copy (os : OwnedState) : Except Fault OwnedState :=
  if os.state.readOnly then .error .assertion else .ok { copyOnWriteOwner := 0, state := { os.state with readOnly := false } }

/-- The pointers below `next` have been given out. -/
structure Heap where
  next : Nat
  cells : Nat → OwnedState

namespace Heap

def set (heap : Heap) (os : Nat) (value : OwnedState) : Heap := { heap with cells := Function.update heap.cells os value }

/-- `new ObjectState` gives the pointer `heap.next`. -/
def new (heap : Heap) (value : OwnedState) : Heap := { heap.set heap.next value with next := heap.next + 1 }

/-- A write through a pointer. -/
def modify (heap : Heap) (os : Nat) (write : ObjectState → ObjectState) : Heap :=
  heap.set os { heap.cells os with state := write (heap.cells os).state }

end Heap

/-! ### The address space -/

structure AddressSpace where
  cowKey : BitVec 32 := 1
  objects : SortedList (fun entry : MemoryObject × Nat => entry.1.address) := .empty

namespace AddressSpace

variable (space : AddressSpace) (heap : Heap)

/-- The copy constructor, which changes the original too: the original and the copy. -/
def copy : AddressSpace × AddressSpace :=
  let cowKey := space.cowKey + 1
  ({ space with cowKey }, { cowKey, objects := space.objects })

def bindObject (mo : MemoryObject) (os : Nat) : Except Fault (AddressSpace × Heap) :=
  if (heap.cells os).copyOnWriteOwner = 0 then
    .ok ({ space with objects := space.objects.replace (mo, os) },
      heap.set os { heap.cells os with copyOnWriteOwner := space.cowKey })
  else .error .assertion

def unbindObject (mo : MemoryObject) : AddressSpace := { space with objects := space.objects.remove mo.address }

def findObject (mo : MemoryObject) : Option Nat := (space.objects.lookup mo.address).map Prod.snd

def getWriteable (mo : MemoryObject) (os : Nat) : Except Fault (Nat × AddressSpace × Heap) :=
  if (heap.cells os).state.readOnly then .error .assertion
  else if space.cowKey = (heap.cells os).copyOnWriteOwner then .ok (os, space, heap)
  else do
    let n ← (heap.cells os).copy
    return (heap.next, { space with objects := space.objects.replace (mo, heap.next) },
      heap.new { n with copyOnWriteOwner := space.cowKey })

end AddressSpace

/-! ### Resolution of pointers -/

/-- The answers of the `TimingSolver` for the constraints of a state, none where it fails. -/
structure TimingSolver where
  mustBeTrue : Expr → Option Bool
  /-- The value of the constant. -/
  getValue : Expr → Option Nat

namespace TimingSolver

variable (opt : Bool) (solver : TimingSolver)

def mustBeFalse (e : Expr) : Except Abort (Option Bool) := do
  return solver.mustBeTrue (← e.createIsZero opt)

def mayBeTrue (e : Expr) : Except Abort (Option Bool) := do
  return (← solver.mustBeFalse opt e).map not

end TimingSolver

namespace AddressSpace

abbrev Entry := MemoryObject × Nat

/-- How a loop of a search ends: the function returns this, or it goes on behind the loop. -/
inductive Search (α : Type) where
  | done (result : α)
  | goOn

variable (space : AddressSpace) (opt : Bool) (pointerWidth : Nat) (solver : TimingSolver)

/-- `resolveOne` for a constant address. -/
def resolveOneConstant (address : Nat) : Option Entry :=
  match space.objects.lookupPrevious address with
  | some entry =>
    let mo := entry.1
    if (mo.size = 0 ∧ address = mo.address) ∨ address - mo.address < mo.size then some entry else none
  | none => none

/-- The backward loop of `resolveOne`: no result if the solver fails. -/
def resolveOneBackwards (address : Expr) : List Entry → Except Abort (Search (Option (Option Entry)))
  | [] => return .goOn
  | entry :: entries => do
    match ← solver.mayBeTrue opt (← entry.1.getBoundsCheckPointer opt pointerWidth address) with
    | none => return .done none
    | some true => return .done (some (some entry))
    | some false =>
      match solver.mustBeTrue (← createComparison opt address (← entry.1.getBaseExpr pointerWidth) .uge) with
      | none => return .done none
      | some true => return .goOn
      | some false => resolveOneBackwards address entries

/-- The forward loop of `resolveOne`. -/
def resolveOneForwards (address : Expr) : List Entry → Except Abort (Search (Option (Option Entry)))
  | [] => return .goOn
  | entry :: entries => do
    match solver.mustBeTrue (← createComparison opt address (← entry.1.getBaseExpr pointerWidth) .ult) with
    | none => return .done none
    | some true => return .goOn
    | some false =>
      match ← solver.mayBeTrue opt (← entry.1.getBoundsCheckPointer opt pointerWidth address) with
      | none => return .done none
      | some true => return .done (some (some entry))
      | some false => resolveOneForwards address entries

/-- Both loops of `resolveOne`, from the example on. -/
def searchOne (cex : Nat) (address : Expr) : Except Abort (Option (Option Entry)) := do
  match ← resolveOneBackwards opt pointerWidth solver address (space.objects.upTo cex).reverse with
  | .done result => return result
  | .goOn =>
    match ← resolveOneForwards opt pointerWidth solver address (space.objects.behind cex) with
    | .done result => return result
    | .goOn => return some none

/-- `resolveOne` with an example of the address: first the cheap search. -/
def resolveOneFrom (cex : Nat) (address : Expr) : Except Abort (Option (Option Entry)) :=
  match (space.objects.lookupPrevious cex).filter fun entry => cex - entry.1.address < entry.1.size with
  | some entry => return some (some entry)
  | none => space.searchOne opt pointerWidth solver cex address

/-- `resolveOne`: nothing if the solver fails, and otherwise what is found. -/
def resolveOne (address : Expr) : Except Abort (Option (Option Entry)) :=
  match address with
  | .constant _ c => return some (space.resolveOneConstant c.toNat)
  | address =>
    match solver.getValue address with
    | none => return none
    | some cex => space.resolveOneFrom opt pointerWidth solver cex address

/-- The check after an object has been added to the resolution list. -/
def resolveAdded (maxResolutions : Nat) (inBounds : Expr) (rl : List Entry) : Search Bool :=
  if rl.length = 1 then
    match solver.mustBeTrue inBounds with
    | none => .done true
    | some true => .done false
    | some false => .goOn
  else if rl.length = maxResolutions then .done true
  else .goOn

variable (maxResolutions : Nat) (expired : MemoryObject → Bool)

/-- The backward loop of `resolve`, with the resolution list. The time may have expired when the loop comes to an
    object. -/
def resolveBackwards (p : Expr) : List Entry → List Entry → Except Abort (Search Bool × List Entry)
  | [], rl => return (.goOn, rl)
  | entry :: entries, rl => do
    if expired entry.1 then return (.done true, rl)
    let inBounds ← entry.1.getBoundsCheckPointer opt pointerWidth p
    match ← solver.mayBeTrue opt inBounds with
    | none => return (.done true, rl)
    | some mayBeTrue =>
      let rl := if mayBeTrue then rl ++ [entry] else rl
      match if mayBeTrue then resolveAdded solver maxResolutions inBounds rl else .goOn with
      | .done result => return (.done result, rl)
      | .goOn =>
        match solver.mustBeTrue (← createComparison opt p (← entry.1.getBaseExpr pointerWidth) .uge) with
        | none => return (.done true, rl)
        | some true => return (.goOn, rl)
        | some false => resolveBackwards p entries rl

/-- The forward loop of `resolve`. -/
def resolveForwards (p : Expr) : List Entry → List Entry → Except Abort (Search Bool × List Entry)
  | [], rl => return (.goOn, rl)
  | entry :: entries, rl => do
    if expired entry.1 then return (.done true, rl)
    match solver.mustBeTrue (← createComparison opt p (← entry.1.getBaseExpr pointerWidth) .ult) with
    | none => return (.done true, rl)
    | some true => return (.goOn, rl)
    | some false =>
      let inBounds ← entry.1.getBoundsCheckPointer opt pointerWidth p
      match ← solver.mayBeTrue opt inBounds with
      | none => return (.done true, rl)
      | some mayBeTrue =>
        let rl := if mayBeTrue then rl ++ [entry] else rl
        match if mayBeTrue then resolveAdded solver maxResolutions inBounds rl else .goOn with
        | .done result => return (.done result, rl)
        | .goOn => resolveForwards p entries rl

/-- Both loops of `resolve`, from the example on. -/
def resolveFrom (cex : Nat) (p : Expr) : Except Abort (Bool × List Entry) := do
  match ← resolveBackwards opt pointerWidth solver maxResolutions expired p (space.objects.upTo cex).reverse [] with
  | (.done result, rl) => return (result, rl)
  | (.goOn, rl) =>
    match ← resolveForwards opt pointerWidth solver maxResolutions expired p (space.objects.behind cex) rl with
    | (.done result, rl) => return (result, rl)
    | (.goOn, rl) => return (false, rl)

/-- `resolve`: whether the resolution is incomplete, and the resolution list. -/
def resolve (p : Expr) : Except Abort (Bool × List Entry) :=
  match p with
  | .constant _ c => return (false, (space.resolveOneConstant c.toNat).toList)
  | p =>
    match solver.getValue p with
    | none => return (true, [])
    | some cex => space.resolveFrom opt pointerWidth solver maxResolutions expired cex p

end AddressSpace

end CapTaint.Klee
