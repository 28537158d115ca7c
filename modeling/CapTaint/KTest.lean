import CapTaint.Lib.Codec
import Mathlib.Data.List.TakeWhile

/-! # Test files

The `.ktest` format: the magic, the version, and the fields of a test case in a row, numbers as four bytes with the most
significant one first, strings and contents behind their lengths. Opening a file and every allocation succeed, also one
of no bytes. -/

namespace CapTaint

/-- The bytes of a C string, without the NUL that ends it. -/
abbrev CString := { bytes : List UInt8 // 0 ∉ bytes }

structure KTestObject where
  name : CString
  bytes : List UInt8
  numBytes_lt : bytes.length < 2 ^ 32

structure KTest where
  version : UInt32
  args : List CString
  numArgs_lt : args.length < 2 ^ 32
  symArgvs : UInt32
  symArgvLen : UInt32
  objects : List KTestObject
  numObjects_lt : objects.length < 2 ^ 32

def KTestObject.numBytes (o : KTestObject) : UInt32 := .ofNat o.bytes.length

namespace KTest
open Codec

abbrev File := List UInt8

def KTEST_VERSION : UInt32 := 3
/-- `"KTEST"`. -/
def KTEST_MAGIC : List UInt8 := [75, 84, 69, 83, 84]
/-- `"BOUT\n"`. -/
def BOUT_MAGIC : List UInt8 := [66, 79, 85, 84, 10]

/-! ### Writing -/

/-- Code that appends to the file. One that fails leaves there what it has written. -/
abbrev Writer := EStateM Unit File Unit

/-- `fwrite(data, size, 1, f)`, where `size` is the length of the data. It gives 0, and not 1, if the size is 0. -/
def fwrite (data : List UInt8) : Writer := fun f => if data = [] then .error () f else .ok () (f ++ data)

def writeUint32 (value : UInt32) : Writer :=
  fwrite [(value >>> 24).toUInt8, (value >>> 16).toUInt8, (value >>> 8).toUInt8, value.toUInt8]

/-- The length of the string is cut to an `unsigned`. -/
def writeString (value : CString) : Writer := do
  let len := UInt32.ofNat value.val.length
  writeUint32 len
  fwrite (value.val.take len.toNat)

def writeObject (o : KTestObject) : Writer := do
  writeString o.name
  writeUint32 o.numBytes
  fwrite o.bytes

def writeKTest (bo : KTest) : Writer := do
  fwrite KTEST_MAGIC
  writeUint32 KTEST_VERSION
  writeUint32 (.ofNat bo.args.length)
  bo.args.forM writeString
  writeUint32 bo.symArgvs
  writeUint32 bo.symArgvLen
  writeUint32 (.ofNat bo.objects.length)
  bo.objects.forM writeObject

/-- `kTest_toFile` on a new file. It gives 1 or 0 and leaves the file behind. -/
def toFile (bo : KTest) : EStateM.Result Unit File Unit :=
  writeKTest bo []

/-! ### Reading -/

/-- How reading ends without a test case: the file is rejected, or a read goes past the end of its buffer. -/
inductive Failure where
  | rejected
  | overflow
  deriving DecidableEq

/-- Code that reads from the rest of the file. -/
abbrev Reader (α : Type) := EStateM Failure File α

/-- `fread(_, size, 1, f)`. It gives 0, and not 1, if the size is 0. -/
def fread (size : Nat) : Reader (List.Vector UInt8 size) := fun f =>
  if h : size ≠ 0 ∧ size ≤ f.length then .ok ⟨f.take size, by simp [h.2]⟩ (f.drop size) else .error .rejected []

def readUint32 : Reader UInt32 := do
  let data ← fread 4
  let byte (i : Fin 4) : UInt32 := (data.get i).toUInt32
  return (((((byte 0 <<< 8) + byte 1) <<< 8) + byte 2) <<< 8) + byte 3

/-- The C string in a buffer ends at its first NUL. -/
def ofBuffer (buffer : List UInt8) : CString :=
  ⟨buffer.takeWhile (· ≠ 0), fun h => by simpa using List.mem_takeWhile_imp h⟩

/-- The buffer has `len + 1` bytes, as an `unsigned`, which is none for the largest length. -/
def readString : Reader CString := do
  let len ← readUint32
  if len + 1 = 0 then throw .overflow
  let value ← fread len.toNat
  return ofBuffer value.val

def readObject : Reader KTestObject := do
  let name ← readString
  let numBytes ← readUint32
  let bytes ← fread numBytes.toNat
  return { name, bytes := bytes.val, numBytes_lt := by rw [bytes.2]; exact numBytes.toNat_lt }

def checkHeader : Reader Unit := do
  let header ← fread 5
  if header.val ≠ KTEST_MAGIC ∧ header.val ≠ BOUT_MAGIC then throw .rejected

/-- The part of the format from its second version on. Before it the numbers keep the zeros of `calloc`. -/
def readSymArgvs (version : UInt32) : Reader (UInt32 × UInt32) :=
  if version ≥ 2 then do
    let symArgvs ← readUint32
    let symArgvLen ← readUint32
    return (symArgvs, symArgvLen)
  else return (0, 0)

def readKTest : Reader KTest := do
  checkHeader
  let version ← readUint32
  if version > KTEST_VERSION then throw .rejected
  let numArgs ← readUint32
  let args ← many readString numArgs.toNat
  let (symArgvs, symArgvLen) ← readSymArgvs version
  let numObjects ← readUint32
  let objects ← many readObject numObjects.toNat
  return { version, args := args.val, numArgs_lt := by rw [args.2]; exact numArgs.toNat_lt, symArgvs, symArgvLen,
           objects := objects.val, numObjects_lt := by rw [objects.2]; exact numObjects.toNat_lt }

/-- `kTest_fromFile`. It gives NULL where the file is rejected. -/
def fromFile (f : File) : Except Failure KTest :=
  match readKTest f with
  | .ok res _ => .ok res
  | .error e _ => .error e

/-- `kTest_isKTestFile`. -/
def isKTestFile (f : File) : Bool :=
  match checkHeader f with
  | .ok _ _ => true
  | .error _ _ => false

end CapTaint.KTest
