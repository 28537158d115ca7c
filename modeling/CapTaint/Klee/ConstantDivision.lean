import Mathlib

/-! # Constants for divisions and multiplications

The functions of `ConstantDivision.cpp`, and those of `Bits.h` that they use. Numbers of the types `uint32_t`, `int32_t` and
`uint64_t` are vectors; there is no result where the source divides by zero or an assertion fails. -/

namespace CapTaint.Klee

namespace Bits

def isolateRightmostBit {w : Nat} (x : BitVec w) : BitVec w := x &&& -x

/-- `bits32::indexOfSingleBit` -/
def indexOfSingleBit32 (x : BitVec 32) : Nat :=
  (if x &&& 0xFFFF0000#32 ≠ 0 then 16 else 0) + (if x &&& 0xFF00FF00#32 ≠ 0 then 8 else 0) +
    (if x &&& 0xF0F0F0F0#32 ≠ 0 then 4 else 0) + (if x &&& 0xCCCCCCCC#32 ≠ 0 then 2 else 0) +
    (if x &&& 0xAAAAAAAA#32 ≠ 0 then 1 else 0)

/-- `bits64::indexOfSingleBit` -/
def indexOfSingleBit (x : BitVec 64) : Nat :=
  indexOfSingleBit32 ((x ||| (x >>> 32)).setWidth 32) + if x &&& (0xFFFFFFFF#64 <<< 32) ≠ 0 then 32 else 0

def indexOfRightmostBit (x : BitVec 64) : Nat := indexOfSingleBit (isolateRightmostBit x)

/-- `bits64::truncateToNBits` -/
def truncateToNBits (x : BitVec 64) (n : Nat) : BitVec 64 := x &&& (BitVec.allOnes 64 >>> (64 - n))

end Bits

namespace ConstantDivision

/-- The number of bits that are 1. -/
def ones (x : BitVec 32) : BitVec 32 :=
  let x := x - ((x >>> 1) &&& 0x55555555#32)
  let x := ((x >>> 2) &&& 0x33333333#32) + (x &&& 0x33333333#32)
  let x := ((x >>> 4) + x) &&& 0x0f0f0f0f#32
  let x := x + (x >>> 8)
  let x := x + (x >>> 16)
  x &&& 0x3f#32

/-- One assignment of `ldz`. -/
def smear (n : Nat) (x : BitVec 32) : BitVec 32 := x ||| (x >>> n)

/-- The number of leading zeroes. -/
def ldz (x : BitVec 32) : BitVec 32 := 32#32 - ones (smear 16 (smear 8 (smear 4 (smear 2 (smear 1 x)))))

/-- `LOG2_CEIL` -/
def log2Ceil (x : BitVec 32) : BitVec 32 := 32#32 - ldz (x - 1#32)

/-- `exp_base_2` -/
def expBase2 (n : BitVec 32) : BitVec 32 := ((~~~n &&& (n - 32#32)) >>> 31) <<< n.toNat

/-! ### Multiplication -/

structure MultConstants where
  add : BitVec 64
  sub : BitVec 64
  deriving DecidableEq

/-- The lower end of a region is subtracted. -/
def MultConstants.subLow (c : MultConstants) (low : Nat) : MultConstants :=
  -- optimize +(1<<x) - (1<<(x+1)) to -(1<<x)
  if low ≠ 0 ∧ c.add &&& ((1#64 <<< low) >>> 1) ≠ 0 then
    { add := c.add ^^^ ((1#64 <<< low) >>> 1), sub := c.sub ^^^ ((1#64 <<< low) >>> 1) }
  else { c with sub := c.sub ||| (1#64 <<< low) }

/-- One contiguous region of ones, from `low` up to `high`. -/
def MultConstants.region (c : MultConstants) (low high : Nat) : MultConstants :=
  if high = low + 1 then { c with add := c.add ||| (1#64 <<< low) }
  else if high ≠ 64 then { c.subLow low with add := (c.subLow low).add ||| (1#64 <<< high) }
  else c.subLow low

/-- The loop of `ComputeMultConstants64`. Each round removes the lowest region, and there are at most 32. -/
def multLoop : Nat → BitVec 64 → MultConstants → Option MultConstants
  | 0, x, c => if x = 0 then some c else none
  | fuel + 1, x, c =>
    if x = 0 then some c
    else
      let low := Bits.indexOfRightmostBit x
      let p := x + (1#64 <<< low)
      let q := Bits.isolateRightmostBit p
      let high := if q ≠ 0 then Bits.indexOfSingleBit q else 64
      multLoop fuel (p ^^^ q) (c.region low high)

def computeMultConstants64 (multiplicand : BitVec 64) : Option MultConstants := do
  let c ← multLoop 32 multiplicand ⟨0, 0⟩
  if multiplicand = c.add - c.sub then some c else none

/-! ### Division -/

structure UDivConstants where
  mprime : BitVec 32
  sh1 : BitVec 32
  sh2 : BitVec 32
  deriving DecidableEq

def computeUDivConstants32 (d : BitVec 32) : Option UDivConstants :=
  if d = 0 then none
  else
    let l := log2Ceil d
    let mid := expBase2 l - d
    some
      { mprime := ((1#64 <<< 32) * mid.setWidth 64 / d.setWidth 64 + 1#64).setWidth 32
        sh1 := if l.slt 1#32 then l else 1#32
        sh2 := if (l - 1#32).slt 0#32 then 0#32 else l - 1#32 }

structure SDivConstants where
  mprime : BitVec 32
  dsign : BitVec 32
  shpost : BitVec 32
  deriving DecidableEq

def computeSDivConstants32 (d : BitVec 32) : Option SDivConstants :=
  if d = 0 then none
  else
    -- 64 bits in case d is INT32_MIN
    let wide := d.signExtend 64
    let absD := if BitVec.slt 0#64 wide then wide else -wide
    let log := log2Ceil (absD.setWidth 32)
    let l := if absD = 1#64 <<< 31 then 31#32 else if log.ult 1#32 then 1#32 else log
    let mid := expBase2 (l - 1#32)
    let m := (1#64 <<< 32) * mid.setWidth 64 / absD + 1#64
    some { mprime := (m - (1#64 <<< 32)).setWidth 32, dsign := d.sshiftRight 31, shpost := l - 1#32 }

end ConstantDivision
end CapTaint.Klee
