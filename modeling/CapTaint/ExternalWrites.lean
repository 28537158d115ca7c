import CapTaint.PSOListener

/-! # The writes of external calls

After a call of one of four library functions, `PSOListener::handleExternalFunction` completes the event of the call with
the variables that the function has written through its pointer argument: the bytes of a copied string, or the primitive
fields of a structure. -/

namespace CapTaint
open Std

/-- A memory object with the bytes that it holds after the call. -/
structure FilledObject where
  id : Nat
  address : Nat
  isGlobal : Bool
  contents : List UInt8
  deriving Repr, DecidableEq

def FilledObject.size (object : FilledObject) : Nat := object.contents.length

/-- The byte of the object at an address, as `createVarName` names it. -/
def FilledObject.location (object : FilledObject) (address : Nat) : Location := ⟨object.id, address, object.isGlobal⟩

/-- The types of the source's `switch`: what has a size and an alignment of its own, and what is made of elements. -/
inductive InputType
  | primitive (sizeInBits alignment : Nat) (positive : 0 < alignment)
  | struct (elements : List InputType)
  | array (numElements : Nat) (elementType : InputType)
  | vector (numElements : Nat) (elementType : InputType)

/-- The calls that `handleExternalFunction` looks at, with the object that the pointer argument points into. -/
inductive ExternalCall
  | strcpy (object : FilledObject) (destaddress : Nat)
  | getrlimit (object : FilledObject) (start : Nat) (type : InputType)
  | lstat (object : FilledObject) (start : Nat) (type : InputType)
  | time (object : FilledObject) (start : Nat) (type : InputType)

namespace PSOListener

/-- The loop of the `strcpy` branch from the index `i` on: the offsets that it reads, each with the address that it
    records. `destos->read(i, 8)` counts from the start of the object, the recorded address from the destination. -/
def strcpyLoop (object : FilledObject) (destaddress : Nat) : (rounds i : Nat) → List (Nat × Nat)
  | 0, _ => []
  | rounds + 1, i =>
    if object.contents.getD i 0 = 0 then [(i, destaddress + i)]
    else (i, destaddress + i) :: strcpyLoop object destaddress rounds (i + 1)

/-- The reads and the writes of the `strcpy` branch; the loop ends at the end of the object. -/
def strcpyBytes (object : FilledObject) (destaddress : Nat) : List (Nat × Nat) :=
  strcpyLoop object destaddress (object.size + object.address - destaddress) 0

def alignTo (address alignment : Nat) : Nat :=
  if address % alignment ≠ 0 then (address / alignment + 1) * alignment else address

/-- A loop over elements of one type, which hands the address on. -/
def repeatInput (analyze : Nat → List Nat × Nat) : Nat → Nat → List Nat × Nat
  | 0, address => ([], address)
  | n + 1, address =>
    let (first, address) := analyze address
    let (rest, address) := repeatInput analyze n address
    (first ++ rest, address)

mutual

/-- `PSOListener::analyzeInputValue`: the addresses of the primitive fields, and the address behind them. -/
def analyzeInputValue : InputType → Nat → List Nat × Nat
  | .primitive sizeInBits alignment _, address =>
    let address := alignTo address alignment
    ([address], address + sizeInBits / 8)
  | .struct elements, address => analyzeElements elements address
  | .array numElements elementType, address =>
    repeatInput (fun address => analyzeInputValue elementType address) numElements address
  | .vector numElements elementType, address =>
    repeatInput (fun address => analyzeInputValue elementType address) numElements address

def analyzeElements : List InputType → Nat → List Nat × Nat
  | [], address => ([], address)
  | element :: rest, address =>
    let (first, address) := analyzeInputValue element address
    let (rest, address) := analyzeElements rest address
    (first ++ rest, address)

end

/-- The function of a call and what it wrote, as the listener sees them. -/
def externalFunction : ExternalCall → Function
  | .strcpy object destaddress => .strcpy (object.location destaddress) (strcpyBytes object destaddress).length
  | .getrlimit object start type => .fillBuffer "getrlimit" ((analyzeInputValue type start).1.map object.location)
  | .lstat object start type => .fillBuffer "lstat" ((analyzeInputValue type start).1.map object.location)
  | .time object start type => .fillBuffer "time" ((analyzeInputValue type start).1.map object.location)

/-- The locations that a call writes, in the order in which they are recorded. -/
def writtenLocations : ExternalCall → List Location
  | .strcpy object destaddress => (strcpyBytes object destaddress).map fun entry => object.location entry.2
  | .getrlimit object start type | .lstat object start type | .time object start type =>
    (analyzeInputValue type start).1.map object.location

/-- `PSOListener::handleExternalFunction` on `item`, the event that was written last. Only `strcpy` makes it global; only
    `analyzeInputValue` counts stores of memory that is not. -/
def handleExternalFunction (l : PSOListener) (item : Event) (call : ExternalCall) : Event × PSOListener :=
  match call with
  | .strcpy object _ =>
    let (names, l) := l.nameWrites false (writtenLocations call)
    let item := { item with
      isGlobal := item.isGlobal || (object.isGlobal && !names.isEmpty)
      implicitGlobalVar := item.implicitGlobalVar ++ names.map (·.2) }
    (item, l.insertImplicitWrites item names)
  | .getrlimit .. | .lstat .. | .time .. =>
    let (names, l) := l.nameWrites true (writtenLocations call)
    let item := { item with implicitGlobalVar := item.implicitGlobalVar ++ names.map (·.2) }
    (item, l.insertImplicitWrites item names)

end PSOListener
end CapTaint
