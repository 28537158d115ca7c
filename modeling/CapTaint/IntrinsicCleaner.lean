import Mathlib

/-! # Lowering of intrinsics

`IntrinsicCleanerPass::runOnBasicBlock`, and the meaning of the instructions that it lowers and of those that it puts in
their place. `ω` are the other instructions and intrinsics. -/

namespace CapTaint.IntrinsicCleaner

/-- `getPointerSizeInBits() / 8`. An assertion excludes other sizes. -/
inductive WordSize
  | four | eight

def WordSize.bits : WordSize → Nat
  | .four => 32
  | .eight => 64

/-- The size of a `va_list`: a pointer on x86-32, a struct of 24 bytes on x86-64. -/
def WordSize.vaListBytes : WordSize → Nat
  | .four => 4
  | .eight => 24

/-! ### Instructions -/

/-- The value of an instruction of the block as it was, or of the `k`-th one that is put in the place of instruction `n`. -/
inductive Register
  | original (n : Nat)
  | inserted (n k : Nat)
  deriving DecidableEq

def Register.place : Register → Nat
  | .original n => n
  | .inserted n _ => n

/-- The struct of a pair is what the intrinsics with overflow return. -/
inductive Value (size : WordSize)
  | undef
  | int (width : Nat) (value : BitVec width)
  | pointer (address : BitVec size.bits)
  | pair (first second : Value size)

inductive Operand (size : WordSize)
  | constant (value : Value size)
  | register (r : Register)

inductive IntrinsicID (ω : Type)
  | vastart | vaend | vacopy
  | uadd_with_overflow | umul_with_overflow
  | dbg_value | dbg_declare
  | trap
  | other (o : ω)

inductive Opcode (ω : Type)
  | intrinsic (id : IntrinsicID ω)
  | pointerCast | loadInt64 | loadPointer | store | getElementPtr
  | add | mul | icmpULT | insertValue (index : Nat)
  | callAbort | unreachable
  | other (o : ω)

structure Instruction (size : WordSize) (ω : Type) where
  register : Register
  opcode : Opcode ω
  operands : List (Operand size)

variable {size : WordSize} {ω : Type}

def Instruction.mapOperands (f : Operand size → Operand size) (ii : Instruction size ω) : Instruction size ω :=
  { ii with operands := ii.operands.map f }

def Instruction.getArgOperand (ii : Instruction size ω) (i : Nat) : Operand size := ii.operands.getD i (.constant .undef)

/-! ### Values -/

/-- An operation on two integers of one width. -/
def binary (f : (w : Nat) → BitVec w → BitVec w → Value size) : List (Value size) → Option (Value size)
  | [.int w a, .int w' b] => if w = w' then some (f w a (b.setWidth w)) else none
  | _ => none

def bool (b : Bool) : Value size := .int 1 (BitVec.ofBool b)

def addInt (w : Nat) (a b : BitVec w) : Value size := .int w (a + b)

def mulInt (w : Nat) (a b : BitVec w) : Value size := .int w (a * b)

def ultInt (w : Nat) (a b : BitVec w) : Value size := bool (a.ult b)

def insertValue : Nat → List (Value size) → Option (Value size)
  | 0, [.pair _ second, value] => some (.pair value second)
  | 1, [.pair first _, value] => some (.pair first value)
  | _, _ => none

/-- The opcodes whose constants `IRBuilder` folds. -/
def pureValue : Opcode ω → List (Value size) → Option (Value size)
  | .add, args => binary addInt args
  | .mul, args => binary mulInt args
  | .icmpULT, args => binary ultInt args
  | .insertValue index, args => insertValue index args
  | _, _ => none

/-- `llvm.uadd.with.overflow`: the sum, and whether it does not fit. -/
def uaddWithOverflow (w : Nat) (a b : BitVec w) : Value size :=
  .pair (.int w (BitVec.ofNat w (a.toNat + b.toNat))) (bool (2 ^ w ≤ a.toNat + b.toNat))

/-- `llvm.umul.with.overflow` -/
def umulWithOverflow (w : Nat) (a b : BitVec w) : Value size :=
  .pair (.int w (BitVec.ofNat w (a.toNat * b.toNat))) (bool (2 ^ w ≤ a.toNat * b.toNat))

/-! ### Memory -/

section
variable {bits : Nat}

/-- The little-endian number in the bytes from `p` on. -/
def readBytes (m : BitVec bits → BitVec 8) (p : BitVec bits) : Nat → Nat
  | 0 => 0
  | n + 1 => (m p).toNat + 256 * readBytes m (p + 1) n

def writeBytes (m : BitVec bits → BitVec 8) (p : BitVec bits) (n v : Nat) : BitVec bits → BitVec 8 :=
  fun x => if (x - p).toNat < n then BitVec.ofNat 8 (v / 256 ^ (x - p).toNat) else m x

def copyBytes (m : BitVec bits → BitVec 8) (dst src : BitVec bits) (n : Nat) : BitVec bits → BitVec 8 :=
  fun x => if (x - dst).toNat < n then m (src + (x - dst)) else m x

/-- The two objects are one, or do not overlap: an assignment between objects that overlap in part is undefined in C. -/
def Separate (dst src : BitVec bits) (n : Nat) : Prop := dst = src ∨ n ≤ (dst - src).toNat ∧ n ≤ (src - dst).toNat

instance decidableSeparate (dst src : BitVec bits) (n : Nat) : Decidable (Separate dst src n) :=
  inferInstanceAs (Decidable (dst = src ∨ n ≤ (dst - src).toNat ∧ n ≤ (src - dst).toNat))

end

abbrev Memory (size : WordSize) : Type := BitVec size.bits → BitVec 8

/-- What an instruction does: its value, the memory behind it, and whether the program ends there. -/
structure Effect (size : WordSize) where
  result : Option (Value size)
  memory : Memory size
  stops : Bool := false

/-- `llvm.va_copy` of the destination and the source. -/
def vaCopy : List (Value size) → Memory size → Option (Effect size)
  | [.pointer dst, .pointer src], m =>
    if Separate dst src size.vaListBytes then some { result := none, memory := copyBytes m dst src size.vaListBytes } else none
  | _, _ => none

def pointerCast : List (Value size) → Option (Value size)
  | [.pointer p] => some (.pointer p)
  | _ => none

def loadInt64 : List (Value size) → Memory size → Option (Value size)
  | [.pointer p], m => some (.int 64 (BitVec.ofNat 64 (readBytes m p 8)))
  | _, _ => none

def loadPointer : List (Value size) → Memory size → Option (Value size)
  | [.pointer p], m => some (.pointer (BitVec.ofNat _ (readBytes m p (size.bits / 8))))
  | _, _ => none

/-- The value, then the address. -/
def store : List (Value size) → Memory size → Option (Effect size)
  | [.int 64 v, .pointer p], m => some { result := none, memory := writeBytes m p 8 v.toNat }
  | [.pointer v, .pointer p], m => some { result := none, memory := writeBytes m p (size.bits / 8) v.toNat }
  | _, _ => none

/-- From an `i64 *`. -/
def getElementPtr : List (Value size) → Option (Value size)
  | [.pointer p, .int 64 off] => some (.pointer (p + off.signExtend _ * 8))
  | _ => none

/-- The meaning of the instructions and the intrinsics that the pass does not lower itself. -/
abbrev Meaning (size : WordSize) (ω : Type) : Type := Opcode ω → List (Value size) → Memory size → Option (Effect size)

def valueEffect (m : Memory size) (v : Option (Value size)) : Option (Effect size) :=
  v.map fun v => { result := some v, memory := m }

def intrinsicEffect (meaning : Meaning size ω) : IntrinsicID ω → List (Value size) → Memory size → Option (Effect size)
  | .vastart, args, m => meaning (.intrinsic .vastart) args m
  | .vaend, args, m => meaning (.intrinsic .vaend) args m
  | .vacopy, args, m => vaCopy args m
  | .uadd_with_overflow, args, m => valueEffect m (binary uaddWithOverflow args)
  | .umul_with_overflow, args, m => valueEffect m (binary umulWithOverflow args)
  | .dbg_value, _, m => some { result := none, memory := m }
  | .dbg_declare, _, m => some { result := none, memory := m }
  | .trap, _, m => some { result := none, memory := m, stops := true }
  | .other o, args, m => meaning (.intrinsic (.other o)) args m

def effect (meaning : Meaning size ω) : Opcode ω → List (Value size) → Memory size → Option (Effect size)
  | .intrinsic id, args, m => intrinsicEffect meaning id args m
  | .pointerCast, args, m => valueEffect m (pointerCast args)
  | .loadInt64, args, m => valueEffect m (loadInt64 args m)
  | .loadPointer, args, m => valueEffect m (loadPointer args m)
  | .store, args, m => store args m
  | .getElementPtr, args, m => valueEffect m (getElementPtr args)
  | .add, args, m => valueEffect m (binary addInt args)
  | .mul, args, m => valueEffect m (binary mulInt args)
  | .icmpULT, args, m => valueEffect m (binary ultInt args)
  | .insertValue index, args, m => valueEffect m (insertValue index args)
  | .callAbort, _, m => some { result := none, memory := m, stops := true }
  | .unreachable, _, _ => none
  | .other o, args, m => meaning (.other o) args m

/-! ### Runs -/

structure State (size : WordSize) where
  env : Register → Option (Value size)
  memory : Memory size

structure Outcome (size : WordSize) where
  stopped : Bool
  state : State size

def Operand.eval (env : Register → Option (Value size)) : Operand size → Option (Value size)
  | .constant value => some value
  | .register r => env r

/-- The state after an instruction, which keeps its old value when it has no new one. -/
def Effect.outcome (e : Effect size) (r : Register) (s : State size) : Outcome size :=
  ⟨e.stops, fun r' => if r' = r then e.result.or (s.env r) else s.env r', e.memory⟩

def step (meaning : Meaning size ω) (ii : Instruction size ω) (s : State size) : Option (Outcome size) := do
  let args ← ii.operands.mapM (Operand.eval s.env)
  let e ← effect meaning ii.opcode args s.memory
  return e.outcome ii.register s

def run (meaning : Meaning size ω) : List (Instruction size ω) → State size → Option (Outcome size)
  | [], s => some ⟨false, s⟩
  | ii :: rest, s => do
    let o ← step meaning ii s
    if o.stopped then return o else run meaning rest o.state

/-! ### The pass -/

/-- The instructions in the place of an intrinsic, and what its uses are replaced by. -/
structure Lowering (size : WordSize) (ω : Type) where
  code : List (Instruction size ω)
  result : Option (Operand size)

def Operand.asConstant : Operand size → Option (Value size)
  | .constant value => some value
  | .register _ => none

/-- `IRBuilder`: a constant, or an instruction behind the ones created so far. -/
def create (r : Register) (opcode : Opcode ω) (operands : List (Operand size)) (code : List (Instruction size ω)) :
    Operand size × List (Instruction size ω) :=
  ((operands.mapM Operand.asConstant).bind (pureValue opcode)).elim (.register r, code ++ [⟨r, opcode, operands⟩])
    fun value => (.constant value, code)

/-- The common case of the additions and the multiplications. -/
def lowerOverflow (opcode : Opcode ω) (n : Nat) (op1 op2 : Operand size) : Lowering size ω :=
  let result := create (.inserted n 0) opcode [op1, op2] []
  let overflow := create (.inserted n 1) .icmpULT [result.1, op1] result.2
  let resultStruct := create (.inserted n 2) (.insertValue 0) [.constant (.pair .undef .undef), result.1] overflow.2
  let resultStruct := create (.inserted n 3) (.insertValue 1) [resultStruct.1, overflow.1] resultStruct.2
  ⟨resultStruct.2, some resultStruct.1⟩

/-- A load and a store of 64 bits. -/
def copyInt64 (n k : Nat) (pDst pSrc : Operand size) : List (Instruction size ω) :=
  [⟨.inserted n k, .loadInt64, [pSrc]⟩, ⟨.inserted n (k + 1), .store, [.register (.inserted n k), pDst]⟩]

/-- The next 64 bits of the destination and of the source. -/
def advance (n k : Nat) (pDst pSrc : Operand size) : List (Instruction size ω) :=
  let off := Operand.constant (.int 64 1)
  [⟨.inserted n k, .getElementPtr, [pDst, off]⟩, ⟨.inserted n (k + 1), .getElementPtr, [pSrc, off]⟩]

def lowerVaCopy : (size : WordSize) → Nat → Operand size → Operand size → List (Instruction size ω)
  | .four, n, dst, src =>
    [⟨.inserted n 0, .pointerCast, [dst]⟩, ⟨.inserted n 1, .pointerCast, [src]⟩,
      ⟨.inserted n 2, .loadPointer, [.register (.inserted n 1)]⟩,
      ⟨.inserted n 3, .store, [.register (.inserted n 2), .register (.inserted n 0)]⟩]
  | .eight, n, dst, src =>
    [⟨.inserted n 0, .pointerCast, [dst]⟩, ⟨.inserted n 1, .pointerCast, [src]⟩] ++
      copyInt64 n 2 (.register (.inserted n 0)) (.register (.inserted n 1)) ++
      advance n 4 (.register (.inserted n 0)) (.register (.inserted n 1)) ++
      copyInt64 n 6 (.register (.inserted n 4)) (.register (.inserted n 5)) ++
      advance n 8 (.register (.inserted n 4)) (.register (.inserted n 5)) ++
      copyInt64 n 10 (.register (.inserted n 8)) (.register (.inserted n 9))

/-- The pass: a flag, and `IntrinsicLowering::LowerIntrinsicCall` of LLVM. -/
structure IntrinsicCleanerPass (size : WordSize) (ω : Type) where
  lowerIntrinsics : Bool
  lowerIntrinsicCall : Instruction size ω → Lowering size ω

namespace IntrinsicCleanerPass

variable (pass : IntrinsicCleanerPass size ω)

/-- The switch on the intrinsic. -/
def lowerIntrinsic (ii : Instruction size ω) : IntrinsicID ω → Lowering size ω
  | .vastart => ⟨[ii], none⟩
  | .vaend => ⟨[ii], none⟩
  | .vacopy => ⟨lowerVaCopy size ii.register.place (ii.getArgOperand 0) (ii.getArgOperand 1), none⟩
  | .uadd_with_overflow => lowerOverflow .add ii.register.place (ii.getArgOperand 0) (ii.getArgOperand 1)
  | .umul_with_overflow => lowerOverflow .mul ii.register.place (ii.getArgOperand 0) (ii.getArgOperand 1)
  | .dbg_value => ⟨[], none⟩
  | .dbg_declare => ⟨[], none⟩
  | .trap => ⟨[⟨.inserted ii.register.place 0, .callAbort, []⟩, ⟨.inserted ii.register.place 1, .unreachable, []⟩], none⟩
  | .other _ => if pass.lowerIntrinsics then pass.lowerIntrinsicCall ii else ⟨[ii], none⟩

def lower (ii : Instruction size ω) : Lowering size ω :=
  match ii.opcode with
  | .intrinsic id => pass.lowerIntrinsic ii id
  | _ => ⟨[ii], none⟩

end IntrinsicCleanerPass

/-- `replaceAllUsesWith` -/
def Lowering.replaceUses (l : Lowering size ω) (r : Register) : Operand size → Operand size
  | .constant value => .constant value
  | .register r' => if r' = r then l.result.getD (.register r') else .register r'

namespace IntrinsicCleanerPass

variable (pass : IntrinsicCleanerPass size ω)

/-- The loop over the block. `uses` is what the uses are replaced by so far, also in the instructions that are left; `done`
    are the instructions before the iterator. -/
def loop (uses : Operand size → Operand size) (done : List (Instruction size ω)) :
    List (Instruction size ω) → List (Instruction size ω)
  | [] => done
  | ii :: rest =>
    let ii := ii.mapOperands uses
    let l := pass.lower ii
    loop (l.replaceUses ii.register ∘ uses) ((done ++ l.code).map (Instruction.mapOperands (l.replaceUses ii.register))) rest

def runOnBasicBlock (b : List (Instruction size ω)) : List (Instruction size ω) := pass.loop id [] b

/-- What the uses are replaced by in the end. -/
def finalUses (uses : Operand size → Operand size) : List (Instruction size ω) → Operand size → Operand size
  | [] => uses
  | ii :: rest =>
    let ii := ii.mapOperands uses
    finalUses ((pass.lower ii).replaceUses ii.register ∘ uses) rest

end IntrinsicCleanerPass

end CapTaint.IntrinsicCleaner
