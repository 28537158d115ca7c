import Mathlib
import CapTaint.Branching

/-! # Allocation of a symbolic size

`Executor::executeAlloc` on pointers of 64 bits. A size is the value that it has under each valuation, and the results are
states with what becomes of them. -/

namespace CapTaint.ExecuteAlloc

/-- `MemoryObject`. Its size is an `unsigned`. -/
structure MemoryObject where
  address : Nat
  size : Nat
  isLocal : Bool
  deriving DecidableEq

/-- `ObjectState`: an expression of `β` for each byte. -/
structure ObjectState (β : Type) where
  mo : MemoryObject
  contents : List β

/-- The arguments of `executeAlloc`, with `malloc` and the expressions of concrete bytes. -/
structure Request (β : Type) where
  isLocal : Bool
  zeroMemory : Bool
  reallocFrom : Option (ObjectState β)
  malloc : Nat → Nat
  concrete : Nat → β

/-- What becomes of a state: the target is bound to a pointer, with a new object and an old one that is unbound, or the
    state is terminated with an error. -/
inductive Outcome (β : Type)
  | bound (pointer : Nat) (os : Option (ObjectState β)) (unbound : Option MemoryObject)
  | terminated (message suffix : String)

section
variable {β : Type} (request : Request β)

/-- `MemoryManager::allocate` -/
def allocate (size : Nat) : Option MemoryObject :=
  let address := request.malloc (size % 2 ^ 32)
  if address = 0 then none else some ⟨address, size % 2 ^ 32, request.isLocal⟩

/-- `initializeToZero` and `initializeToRandom`. -/
def initialContents (mo : MemoryObject) : List β := List.replicate mo.size (request.concrete (if request.zeroMemory then 0 else 0xAB))

/-- `executeAlloc` of a constant size. -/
def allocateConstant (size : Nat) : Outcome β :=
  match allocate request size with
  | none => .bound 0 none none
  | some mo =>
    match request.reallocFrom with
    | none => .bound mo.address (some ⟨mo, initialContents request mo⟩) none
    | some old =>
      let count := min old.mo.size mo.size
      .bound mo.address (some ⟨mo, old.contents.take count ++ (initialContents request mo).drop count⟩) (some old.mo)

/-- The huge sizes are above this one: `1 << 31` is an `int`. -/
def hugeThreshold : Nat := ((1#32 <<< 31).signExtend 64).toNat

variable {V : Type} (solver : TimingSolver V)

/-- The loop for a small example. -/
def smallExample (state : PathState V) (size : V → Nat) (example' : Nat) : Nat :=
  if 128 < example' then
    let tmp := example' >>> 1
    if solver.mayBeTrue state fun v => tmp == size v then smallExample state size tmp else example'
  else example'
termination_by example'
decreasing_by
  rw [Nat.shiftRight_eq_div_pow]
  omega

/-- The other sizes: two values, or a huge one and the rest. The draws are those of the second fork. -/
def executeOthers (draws : Draws) (state : PathState V) (size : V → Nat) : List (PathState V × Outcome β) :=
  let tmp := solver.getValue state size
  if solver.mustBeTrue state fun v => tmp == size v then [(state, allocateConstant request tmp)]
  else
    let hugeSize := solver.fork draws state fun v => decide (hugeThreshold < size v)
    hugeSize.1.toList.map (·, .bound 0 none none) ++
      hugeSize.2.toList.map (·, .terminated "concretized symbolic size" "model.err")

/-- `Executor::executeAlloc`. A call with a constant size does not fork. -/
def executeAlloc (draws draws' : Draws) (state : PathState V) (size : V → Nat) : List (PathState V × Outcome β) :=
  match solver.toUnique state size with
  | some value => [(state, allocateConstant request value)]
  | none =>
    let example' := smallExample solver state size (solver.getValue state size)
    let fixedSize := solver.fork draws state fun v => example' == size v
    fixedSize.2.toList.flatMap (executeOthers request solver draws' · size) ++
      fixedSize.1.toList.map (·, allocateConstant request example')

end

end CapTaint.ExecuteAlloc
