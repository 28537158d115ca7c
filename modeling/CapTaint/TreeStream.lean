import Mathlib.Data.Vector.Basic

/-! # Tree streams

All streams of a writer share one file. A record begins with the identifier of a stream and a tag: with the top bit it is
a fork and the tag names the new stream, without it the tag is the number of bytes that follow. Numbers are four bytes
with the least significant one first. The file can be written and read. -/

namespace CapTaint.TreeStream

/-- What stops a call: a failed assertion, a `memcpy` or a write past the end of the buffer, a file that ends where a
    record is expected, a loop along parents that come back to each other. -/
inductive Fault where
  | assertion
  | overflow
  | endOfFile
  | diverges
  deriving DecidableEq

def bufferSize : Nat := 4 * 4096

/-- `1 << 31`. -/
def forkBit : UInt32 := 0x80000000

structure TreeStreamWriter where
  buffer : List.Vector UInt8 bufferSize
  lastID : UInt32
  bufferCount : Nat
  bufferCount_le : bufferCount ≤ bufferSize
  /-- The contents of the file. -/
  output : List UInt8
  ids : UInt32

/-- The bytes of a number in memory. -/
def bytes (value : UInt32) : List UInt8 :=
  [value.toUInt8, (value >>> 8).toUInt8, (value >>> 16).toUInt8, (value >>> 24).toUInt8]

def ofBytes (b0 b1 b2 b3 : UInt8) : UInt32 :=
  b0.toUInt32 + (b1.toUInt32 <<< 8) + (b2.toUInt32 <<< 16) + (b3.toUInt32 <<< 24)

namespace TreeStreamWriter

/-- The constructor. The memory of the buffer holds what it held before. -/
def new (buffer : List.Vector UInt8 bufferSize) : TreeStreamWriter where
  buffer := buffer
  lastID := 0
  bufferCount := 0
  bufferCount_le := Nat.zero_le _
  output := []
  ids := 1

def flushBuffer (w : TreeStreamWriter) : TreeStreamWriter :=
  if w.bufferCount ≠ 0 then
    { w with
      output := w.output ++ bytes w.lastID ++ bytes (.ofNat w.bufferCount) ++ w.buffer.val.take w.bufferCount
      bufferCount := 0
      bufferCount_le := Nat.zero_le _ }
  else w

def flush (w : TreeStreamWriter) : TreeStreamWriter := w.flushBuffer

/-- `open(os)`, with the identifier of the stream. The new stream has the identifier `w.ids`. -/
def openFrom (w : TreeStreamWriter) (os : UInt32) : TreeStreamWriter :=
  let w := w.flushBuffer
  { w with ids := w.ids + 1, output := w.output ++ bytes os ++ bytes (w.ids ||| forkBit) }

/-- `open()`. -/
def openNew (w : TreeStreamWriter) : TreeStreamWriter := w.openFrom 0

/-- `memcpy(&buffer[bufferCount], s, size)` and the new count. -/
def append (w : TreeStreamWriter) (s : List UInt8) : Except Fault TreeStreamWriter :=
  if h : w.bufferCount + s.length ≤ bufferSize then
    .ok { w with
          buffer := ⟨w.buffer.val.take w.bufferCount ++ s ++ w.buffer.val.drop (w.bufferCount + s.length), by
            simp only [List.length_append, List.length_take, List.length_drop, w.buffer.2]
            omega⟩
          bufferCount := w.bufferCount + s.length
          bufferCount_le := h }
  else .error .overflow

/-- The flush at the beginning of `write`. The sum is one of `unsigned`s. -/
def makeRoom (w : TreeStreamWriter) (os : UInt32) (size : Nat) : TreeStreamWriter :=
  if w.bufferCount ≠ 0 ∧ (os ≠ w.lastID ∨ (size + w.bufferCount) % 2 ^ 32 > bufferSize) then w.flushBuffer else w

/-- `write(os, s, size)`. The size of what `<<` writes is cut to an `unsigned`. Bytes that do not fit the buffer are not
    taken from `s` but from the buffer. -/
def write (w : TreeStreamWriter) (os : UInt32) (s : List UInt8) : Except Fault TreeStreamWriter :=
  let size := (UInt32.ofNat s.length).toNat
  let s := s.take size
  let w := w.makeRoom os size
  if w.bufferCount ≠ 0 then w.append s
  else if size < bufferSize then { w with lastID := os }.append s
  else if size ≤ bufferSize then
    .ok { w with output := w.output ++ bytes os ++ bytes (.ofNat size) ++ w.buffer.val.take size }
  else .error .overflow

/-! ### Reading a stream -/

/-- The loop over `parents`, from the parent of a stream up. The last element of `roots` stands first. After as many
    rounds as there are parents the loop has come back to a stream. -/
def findRoots (parents : List (UInt32 × UInt32)) : Nat → UInt32 → List UInt32 → Except Fault (List UInt32)
  | 0, id, roots => if id = 0 then .ok roots else .error .diverges
  | fuel + 1, id, roots =>
    if id = 0 then .ok roots
    else
      match parents.lookup id with
      | none => .error .assertion
      | some parent => findRoots parents fuel parent (id :: roots)

/-- The loop to the fork that made the stream. -/
def findChain (streamID : UInt32) : List UInt8 → List (UInt32 × UInt32) → Except Fault (List UInt32)
  | i0 :: i1 :: i2 :: i3 :: t0 :: t1 :: t2 :: t3 :: is, parents =>
    let id := ofBytes i0 i1 i2 i3
    let tag := ofBytes t0 t1 t2 t3
    if tag &&& forkBit ≠ 0 then
      let child := tag ^^^ forkBit
      if child = streamID then findRoots parents (parents.length + 1) id [child]
      else findChain streamID is (parents ++ [(child, id)])
    else findChain streamID (is.drop tag.toNat) parents
  | _, _ => .error .endOfFile
termination_by is => is.length

/-- The loop that collects the bytes of the streams of `roots`. Behind the end of the file `get` gives -1. -/
def collect : List UInt8 → List UInt32 → List UInt8 → List UInt8
  | i0 :: i1 :: i2 :: i3 :: t0 :: t1 :: t2 :: t3 :: is, roots, out =>
    let id := ofBytes i0 i1 i2 i3
    let tag := ofBytes t0 t1 t2 t3
    if tag &&& forkBit ≠ 0 then
      let child := tag ^^^ forkBit
      match roots with
      | back :: next :: roots =>
        collect is (if id = back ∧ child = next then next :: roots else back :: next :: roots) out
      | roots => collect is roots out
    else
      let size := tag.toNat
      if roots.head? = some id then
        collect (is.drop size) roots (out ++ is.take size ++ List.replicate (size - is.length) 255)
      else collect (is.drop size) roots out
  | _, _, out => out
termination_by is => is.length

/-- `readStream`, which appends to `out`. -/
def readStream (w : TreeStreamWriter) (streamID : UInt32) (out : List UInt8) : Except Fault (List UInt8) := do
  if ¬(0 < streamID ∧ streamID < w.ids) then throw .assertion
  let w := w.flush
  let roots ← findChain streamID w.output []
  return collect w.output roots out

end TreeStreamWriter

end CapTaint.TreeStream
