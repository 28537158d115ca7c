import CapTaint.DataLayout

/-! # Synchronisation objects in memory

`Executor::createSpecialElement`: one running address goes through a type, and the structs of the thread library are
registered where it finds them. -/

namespace CapTaint

open Cursor (roundUp)

namespace SpecialElement

/-- What the managers get to register, by address, and the running address. -/
structure SpecialState where
  registered : List (Special × Nat) := []
  startAddress : Nat
  deriving DecidableEq, Repr

namespace SpecialState

variable (s : SpecialState)

def align (alignment : Nat) : SpecialState := { s with startAddress := roundUp alignment s.startAddress }

def advance (size : Nat) : SpecialState := { s with startAddress := s.startAddress + size }

/-- `addMutex`, `addCondition` or `addBarrier` under the running address. -/
def register (special : Special) : SpecialState := { s with registered := s.registered ++ [(special, s.startAddress)] }

end SpecialState

variable (layout : DataLayout)

/-- The types without parts. The assertion `unsupport initializer type` stops the others. -/
def createScalar : ScalarType → SpecialState → Option SpecialState
  | .floating .half, _ | .floating .x86_fp80, _ | .floating .fp128, _ | .floating .ppc_fp128, _ => none
  | type, s => some ((s.align (layout.abiAlignment type)).advance (layout.scalarSizeInBits type / 8))

mutual
/-- The objects that it finds are what `Executor.createSpecialElement` registers. -/
def createSpecialElement : LType → SpecialState → Option SpecialState
  | .scalar type, s => createScalar layout type s
  | .vector element num, s => (List.range num).foldlM (fun s _ => createScalar layout element s) s
  -- the number of elements is kept in an `unsigned`
  | .array element num, s => (List.range (num % 2 ^ 32)).foldlM (fun s _ => createSpecialElement element s) s
  | .struct name elements, s =>
    match specialOf name with
    | some special =>
      some (((s.align (layout.getABITypeAlignment (.struct name elements))).register special).advance
        (layout.getTypeSizeInBits (.struct name elements) / 8))
    | none => createSpecialElements elements (s.align (layout.getABITypeAlignment (.struct name elements)))

def createSpecialElements : List LType → SpecialState → Option SpecialState
  | [], s => some s
  | element :: elements, s => do createSpecialElements elements (← createSpecialElement element s)
end

end SpecialElement
end CapTaint
