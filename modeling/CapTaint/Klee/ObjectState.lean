import CapTaint.Klee.Create

/-! # Objects of the memory

The bytes of an object: a concrete cache, a cache of symbolic values and an update list, with a mask for the bytes that
are concrete and one for the bytes that are not flushed to the update list. `opt` is the option `ConstArrayOpt`,
`littleEndian` the byte order of the target and `id` the address that the next array gets. -/

namespace CapTaint.Klee

/-- How an access ends without a result. -/
inductive Fault where
  | assertion
  /-- A `create` function does not end well. -/
  | create (abort : Abort)
  /-- A vector is made of a range that does not lead from its beginning to its end. -/
  | lengthError
  deriving DecidableEq

instance : MonadLift (Except Abort) (Except Fault) := ⟨Except.mapError .create⟩

/-! ### Arrays and update lists -/

/-- `const ref<ConstantExpr> *`: null or the address of an element of a vector of bytes, perhaps of the one behind the
    last. -/
inductive ConstantPointer where
  | null
  | element (values : List (BitVec 8)) (i : Nat)
  deriving DecidableEq

/-- `&values[0] + i`. The data of an empty vector is null. -/
def addressOf (values : List (BitVec 8)) (i : Nat) : ConstantPointer := if values = [] then .null else .element values i

/-- The conversion to `bool`. -/
def ConstantPointer.toBool (pointer : ConstantPointer) : Bool := pointer ≠ .null

/-- `std::vector(first, last)`. -/
def vectorOfRange : ConstantPointer → ConstantPointer → Except Fault (List (BitVec 8))
  | .null, .null => .ok []
  | .element values i, .element values' j =>
    if values = values' ∧ i ≤ j ∧ j ≤ values.length then .ok ((values.take j).drop i) else .error .lengthError
  | _, _ => .error .lengthError

/-- The constructor of `Array` for bytes. The mark for floats, which its third argument gives, is not kept. -/
def Array.new (id size : Nat) (_isFloat : Bool := false) (constantValuesBegin : ConstantPointer := .null)
    (constantValuesEnd : ConstantPointer := .null) : Except Fault Array := do
  let constantValues ← vectorOfRange constantValuesBegin constantValuesEnd
  if constantValues = [] ∨ constantValues.length = size then return { id, size, constantValues }
  else throw .assertion

/-- An update list, which may be without an array. -/
structure Updates where
  root : Option Array
  /-- The most recent update first. -/
  nodes : List (Expr × Expr) := []

namespace Updates

def extend (updates : Updates) (index value : Expr) : Except Fault Updates :=
  if ∀ array ∈ updates.root, array.domain = index.getWidth ∧ array.range = value.getWidth then
    .ok { updates with nodes := (index, value) :: updates.nodes }
  else .error .assertion

def toUpdateList (array : Array) (nodes : List (Expr × Expr)) : UpdateList :=
  nodes.foldr (fun node next => .extend next node.1 node.2) (.root array)

end Updates

/-- A `BitArray`. -/
abbrev BitArray := Nat → Bool

/-! ### The object and its caches -/

structure ObjectState where
  size : Nat
  concreteStore : Nat → BitVec 8
  concreteMask : Option BitArray := none
  flushMask : Option BitArray := none
  knownSymbolics : Option (Nat → Option Expr) := none
  updates : Updates
  readOnly : Bool := false

namespace ObjectState

variable (os : ObjectState)

def isByteConcrete (offset : Nat) : Bool := os.concreteMask.all fun mask => mask offset

def isByteFlushed (offset : Nat) : Bool := os.flushMask.any fun mask => !mask offset

/-- The known symbolic value of a byte, if there is one. -/
def knownSymbolic (offset : Nat) : Option Expr := os.knownSymbolics.bind fun values => values offset

def isByteKnownSymbolic (offset : Nat) : Bool := (os.knownSymbolic offset).isSome

def markByteConcrete (offset : Nat) : ObjectState :=
  { os with concreteMask := os.concreteMask.map fun mask => Function.update mask offset true }

def markByteSymbolic (offset : Nat) : ObjectState :=
  { os with concreteMask := some (Function.update (os.concreteMask.getD fun _ => true) offset false) }

def markByteUnflushed (offset : Nat) : ObjectState :=
  { os with flushMask := os.flushMask.map fun mask => Function.update mask offset true }

/-- Without a mask all bytes are marked. -/
def markByteFlushed (offset : Nat) : ObjectState :=
  { os with
    flushMask :=
      match os.flushMask with
      | none => some fun _ => false
      | some mask => some (Function.update mask offset false) }

/-- The value may be null. -/
def setKnownSymbolic (offset : Nat) (value : Option Expr) : ObjectState :=
  { os with
    knownSymbolics :=
      match os.knownSymbolics, value with
      | some values, value => some (Function.update values offset value)
      | none, some value => some (Function.update (fun _ => none) offset (some value))
      | none, none => none }

/-- `ObjectState(mo)`, with the concrete bytes zero. With `UseConstantArrays` there is no array. -/
def concrete (size : Nat) (root : Option Array) : ObjectState := { size, concreteStore := fun _ => 0, updates := { root } }

/-- `makeSymbolic` for an object without updates. -/
def makeSymbolic : Except Fault ObjectState :=
  if os.updates.nodes = [] then
    .ok ((List.range os.size).foldl (fun os i => ((os.markByteSymbolic i).setKnownSymbolic i none).markByteFlushed i) os)
  else .error .assertion

/-- `ObjectState(mo, array)`. -/
def symbolic (size : Nat) (array : Array) : Except Fault ObjectState := (concrete size (some array)).makeSymbolic

/-! ### Flushing -/

/-- The range of offsets that an offset may have: the whole object. -/
def fastRangeCheckOffset (_offset : Expr) : Nat × Nat := (0, os.size)

/-- The value of a byte in the caches, which a byte that is not flushed has. -/
def cached (offset : Nat) : Except Fault Expr :=
  if os.isByteConcrete offset then .ok (.constant 8 (os.concreteStore offset))
  else
    match os.knownSymbolic offset with
    | some value => .ok value
    | none => .error .assertion

/-- Both loops make the mask first. -/
def makeFlushMask : ObjectState := { os with flushMask := some (os.flushMask.getD fun _ => true) }

/-- The update for a byte that is not flushed. -/
def flushByte (offset : Nat) : Except Fault ObjectState := do
  let value ← os.cached offset
  let updates ← os.updates.extend (.constant 32 (BitVec.ofNat 32 offset)) value
  return { os with updates }

/-- `flushMask->unset(offset)`. -/
def unsetFlushMask (offset : Nat) : ObjectState :=
  { os with flushMask := os.flushMask.map fun mask => Function.update mask offset false }

def flushByteForRead (offset : Nat) : Except Fault ObjectState :=
  if os.isByteFlushed offset then .ok os
  else do
    let os ← os.flushByte offset
    return os.unsetFlushMask offset

def flushRangeForRead (rangeBase rangeSize : Nat) : Except Fault ObjectState :=
  (List.range' rangeBase rangeSize).foldlM flushByteForRead os.makeFlushMask

/-- The byte loses the cache that it has. -/
def dropCache (offset : Nat) : ObjectState :=
  if os.isByteConcrete offset then os.markByteSymbolic offset
  else if os.isByteKnownSymbolic offset then os.setKnownSymbolic offset none
  else os

def flushByteForWrite (offset : Nat) : Except Fault ObjectState :=
  if os.isByteFlushed offset then .ok (os.dropCache offset)
  else do
    let os ← os.flushByte offset
    return (os.dropCache offset).unsetFlushMask offset

def flushRangeForWrite (rangeBase rangeSize : Nat) : Except Fault ObjectState :=
  (List.range' rangeBase rangeSize).foldlM flushByteForWrite os.makeFlushMask

/-! ### The update list of a read -/

/-- The loop that pulls off the concrete writes, from the oldest one on: the contents and the writes that are left. -/
def pullOff : List (BitVec 8) → List (Expr × Expr) → List (BitVec 8) × List (Expr × Expr)
  | contents, (.constant _ index, .constant _ value) :: writes =>
    pullOff (contents.set index.toNat (value.setWidth 8)) writes
  | contents, writes => (contents, writes)

/-- `getUpdates`. An object without an array gets one for its oldest writes. The third argument of the constructor is the
    mark for floats, so the beginning of the contents goes there and their end is taken for the beginning. -/
def getUpdates (id : Nat) : Except Fault (UpdateList × ObjectState) :=
  match os.updates.root with
  | some array => .ok (Updates.toUpdateList array os.updates.nodes, os)
  | none => do
    let (contents, writes) := pullOff (List.replicate os.size 0) os.updates.nodes.reverse
    let array ← Array.new id os.size (addressOf contents 0).toBool (addressOf contents contents.length)
    let updates ← writes.foldlM (fun updates write => updates.extend write.1 write.2) { root := some array }
    return (Updates.toUpdateList array updates.nodes, { os with updates })

/-! ### Single bytes -/

variable (opt littleEndian : Bool) (id : Nat)

/-- `read8(unsigned)`. -/
def read8 (offset : Nat) : Except Fault (Expr × ObjectState) :=
  if os.isByteConcrete offset then .ok (.constant 8 (os.concreteStore offset), os)
  else
    match os.knownSymbolic offset with
    | some value => .ok (value, os)
    | none =>
      if os.isByteFlushed offset then do
        let (updates, os) ← os.getUpdates id
        let e ← ReadExpr.create opt updates (.constant 32 (BitVec.ofNat 32 offset))
        return (e, os)
      else throw .assertion

/-- `read8(ref<Expr>)`. -/
def read8At (offset : Expr) : Except Fault (Expr × ObjectState) :=
  if offset.isConstant then throw .assertion
  else do
    let (base, size) := os.fastRangeCheckOffset offset
    let os ← os.flushRangeForRead base size
    let (updates, os) ← os.getUpdates id
    let index ← ZExtExpr.create offset 32
    let e ← ReadExpr.create opt updates index
    return (e, os)

/-- `write8(unsigned, uint8_t)`. -/
def write8 (offset : Nat) (value : BitVec 8) : ObjectState :=
  let os := { os with concreteStore := Function.update os.concreteStore offset value }
  let os := os.setKnownSymbolic offset none
  (os.markByteConcrete offset).markByteUnflushed offset

/-- `write8(unsigned, ref<Expr>)`. -/
def write8Expr (offset : Nat) (value : Expr) : Except Fault ObjectState :=
  match value with
  | .constant w c => if w ≤ 8 then .ok (os.write8 offset (c.setWidth 8)) else .error .assertion
  | value => .ok (((os.setKnownSymbolic offset (some value)).markByteSymbolic offset).markByteUnflushed offset)

/-- `write8(ref<Expr>, ref<Expr>)`. -/
def write8At (offset value : Expr) : Except Fault ObjectState :=
  if offset.isConstant then throw .assertion
  else do
    let (base, size) := os.fastRangeCheckOffset offset
    let os ← os.flushRangeForWrite base size
    let index ← ZExtExpr.create offset 32
    let updates ← os.updates.extend index value
    return { os with updates }

/-! ### Reads and writes of any width -/

def byteIndex (numBytes i : Nat) : Nat := if littleEndian then i else numBytes - i - 1

/-- A turn of the loop below: the bytes so far get another one. -/
def readByte (read : ObjectState → Nat → Except Fault (Expr × ObjectState)) (numBytes : Nat)
    (state : Option Expr × ObjectState) (i : Nat) : Except Fault (Option Expr × ObjectState) := do
  let (byte, os) ← read state.2 (byteIndex littleEndian numBytes i)
  match state.1 with
  | none => return (some byte, os)
  | some res =>
    let res ← ConcatExpr.create byte res
    return (some res, os)

/-- The loop of both `read` functions; `read` reads the byte at an index. -/
def readBytes (read : ObjectState → Nat → Except Fault (Expr × ObjectState)) (width : Nat) :
    Except Fault (Expr × ObjectState) := do
  let numBytes := width / 8
  if width ≠ numBytes * 8 then throw .assertion
  let (res, os) ← (List.range numBytes).foldlM (readByte littleEndian read numBytes) (none, os)
  match res with
  | some res => return (res, os)
  | none => throw .assertion

/-- `read(unsigned, width)`. -/
def read (offset width : Nat) : Except Fault (Expr × ObjectState) :=
  if width = 1 then do
    let (byte, os) ← os.read8 opt id offset
    let e ← ExtractExpr.create byte 0 1
    return (e, os)
  else os.readBytes littleEndian (fun os idx => os.read8 opt id (offset + idx)) width

/-- `read(ref<Expr>, width)`. -/
def readAt (offset : Expr) (width : Nat) : Except Fault (Expr × ObjectState) := do
  let offset ← ZExtExpr.create offset 32
  match offset with
  | .constant _ c => os.read opt littleEndian id c.toNat width
  | offset =>
    if width = 1 then do
      let (byte, os) ← os.read8At opt id offset
      let e ← ExtractExpr.create byte 0 1
      return (e, os)
    else
      os.readBytes littleEndian (fun os idx => do
        let offset ← AddExpr.create opt offset (.constant 32 (BitVec.ofNat 32 idx))
        os.read8At opt id offset) width

/-- The loop of both `write` functions; `write` writes the byte at an index. -/
def writeBytes (write : ObjectState → Nat → Expr → Except Fault ObjectState) (value : Expr) : Except Fault ObjectState := do
  let numBytes := value.getWidth / 8
  if value.getWidth ≠ numBytes * 8 then throw .assertion
  (List.range numBytes).foldlM (fun os i => do
    let byte ← ExtractExpr.create value (8 * i) 8
    write os (byteIndex littleEndian numBytes i) byte) os

/-- The loop of `write16`, `write32` and `write64`. -/
def writeWord (numBytes offset : Nat) {w : Nat} (value : BitVec w) : ObjectState :=
  (List.range numBytes).foldl
    (fun os i => os.write8 (offset + byteIndex littleEndian numBytes i) ((value >>> (8 * i)).setWidth 8)) os

def write16 (offset : Nat) (value : BitVec 16) : ObjectState := os.writeWord littleEndian 2 offset value

def write32 (offset : Nat) (value : BitVec 32) : ObjectState := os.writeWord littleEndian 4 offset value

def write64 (offset : Nat) (value : BitVec 64) : ObjectState := os.writeWord littleEndian 8 offset value

/-- `write(unsigned, ref<Expr>)`. A constant of at most 64 bits has the width of an integer type. -/
def write (offset : Nat) (value : Expr) : Except Fault ObjectState :=
  match value with
  | .constant w c =>
    if w ≤ 64 then
      match w with
      | 1 => .ok (os.write8 offset (c.setWidth 8))
      | 8 => .ok (os.write8 offset (c.setWidth 8))
      | 16 => .ok (os.write16 littleEndian offset (c.setWidth 16))
      | 32 => .ok (os.write32 littleEndian offset (c.setWidth 32))
      | 64 => .ok (os.write64 littleEndian offset (c.setWidth 64))
      | _ => .error .assertion
    else os.writeBytes littleEndian (fun os idx byte => os.write8Expr (offset + idx) byte) value
  | value =>
    if value.getWidth = 1 then do
      let byte ← ZExtExpr.create value 8
      os.write8Expr offset byte
    else os.writeBytes littleEndian (fun os idx byte => os.write8Expr (offset + idx) byte) value

/-- `write(ref<Expr>, ref<Expr>)`. -/
def writeAt (offset value : Expr) : Except Fault ObjectState := do
  let offset ← ZExtExpr.create offset 32
  match offset with
  | .constant _ c => os.write littleEndian c.toNat value
  | offset =>
    if value.getWidth = 1 then do
      let byte ← ZExtExpr.create value 8
      os.write8At offset byte
    else
      os.writeBytes littleEndian (fun os idx byte => do
        let offset ← AddExpr.create opt offset (.constant 32 (BitVec.ofNat 32 idx))
        os.write8At offset byte) value

end ObjectState

end CapTaint.Klee
