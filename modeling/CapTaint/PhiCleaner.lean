import CapTaint.LowerSwitch
import CapTaint.Lib.ParallelCopy

/-! # PHI nodes, one by one

`PhiCleanerPass` and the way the executor enters blocks. There is no result where an assertion fails. -/

namespace CapTaint.PhiCleaner

open Ssa LowerSwitch ParallelCopy

variable {K O M : Type}

/-! ### Functions with registers -/

/-- The operand of an instruction: the result of another one or an argument, or a constant. -/
abbrev Value (K : Type) := Operand Nat K

structure Phi (K : Type) where
  result : Nat
  node : PHINode (Value K)
  deriving DecidableEq

/-- What an instruction computes depends on its opcode, its operands and the memory. One without a result has a register
that is not used. -/
inductive Instruction (K O : Type)
  | bitCast (result : Nat) (operand : Value K)
  | other (opcode : O) (result : Nat) (operands : List (Value K))
  deriving DecidableEq

/-- An `invoke` has a result too. -/
structure Terminator (K O : Type) where
  opcode : O
  result : Nat
  operands : List (Value K)
  successors : List Nat
  deriving DecidableEq

structure BasicBlock (K O : Type) where
  phis : List (Phi K)
  instructions : List (Instruction K O)
  terminator : Terminator K O
  deriving DecidableEq

/-- Blocks are known by their places. The registers from `next` on are not in use. -/
structure Function (K O : Type) where
  blocks : List (BasicBlock K O)
  next : Nat
  deriving DecidableEq

/-! ### The pass -/

/-- The entries of `pi` in the order of `reference`. -/
def reorder (reference pi : PHINode (Value K)) : Option (PHINode (Value K)) :=
  if pi.incoming.length ≠ reference.incoming.length then none
  else if pi.incoming.map (·.2) = reference.incoming.map (·.2) then some pi
  else (reference.incoming.mapM fun entry => (pi.valueFor entry.2).map fun value => (value, entry.2)).map PHINode.mk

/-- A bitcast at the end of a block. -/
structure Move (K : Type) where
  block : Nat
  tmp : Nat
  operand : Value K

def isResult (phis : List Nat) : Value K → Bool
  | .register r => r ∈ phis
  | .constant _ => false

/-- The loop over the incoming values of a node. The results of the nodes before it are `phis`. -/
def moveValues (phis : List Nat) : Nat → List (Value K × Nat) → List (Value K × Nat) × List (Move K) × Nat
  | next, [] => ([], [], next)
  | next, (value, block) :: rest =>
    if isResult phis value then
      let (incoming, moves, next') := moveValues phis (next + 1) rest
      ((.register next, block) :: incoming, ⟨block, next, value⟩ :: moves, next')
    else
      let (incoming, moves, next') := moveValues phis next rest
      ((value, block) :: incoming, moves, next')

/-- The loop over the nodes of a block behind its first one, `reference`. -/
def cleanPhis (reference : PHINode (Value K)) : List Nat → Nat → List (Phi K) → Option (List (Phi K) × List (Move K) × Nat)
  | _, next, [] => some ([], [], next)
  | phis, next, pi :: rest => do
    let node ← reorder reference pi.node
    let (incoming, moves, next) := moveValues phis next node.incoming
    let (rest, moves', next) ← cleanPhis reference (pi.result :: phis) next rest
    return (⟨pi.result, ⟨incoming⟩⟩ :: rest, moves ++ moves', next)

/-- The bitcast gets its place before the terminator. -/
def insertMove (blocks : List (BasicBlock K O)) (move : Move K) : Option (List (BasicBlock K O)) := do
  let bb ← blocks[move.block]?
  return blocks.set move.block { bb with instructions := bb.instructions ++ [.bitCast move.tmp move.operand] }

/-- A turn of the loop in `runOnFunction`. -/
def cleanBlock (f : Function K O) (b : Nat) : Option (Function K O) := do
  let bb ← f.blocks[b]?
  match bb.phis with
  | [] => return f
  | reference :: rest =>
    let (phis, moves, next) ← cleanPhis reference.node [reference.result] f.next rest
    let blocks ← moves.foldlM insertMove (f.blocks.set b { bb with phis := reference :: phis })
    return ⟨blocks, next⟩

def runOnFunction (f : Function K O) : Option (Function K O) := (List.range f.blocks.length).foldlM cleanBlock f

/-! ### Runs -/

/-- What the opcodes do with the values of the operands and with the memory, where `M` is all of the state but the registers of
the frame. A terminator selects one of its successors by its number. -/
structure Semantics (K O M : Type) where
  exec : O → List K → M → K → M → Prop
  goes : O → List K → M → K → Nat → M → Prop

/-- The instructions of a block from one on, its terminator left out. -/
inductive Executes (sem : Semantics K O M) : List (Instruction K O) → (Nat → K) → M → (Nat → K) → M → Prop
  | nil {ρ : Nat → K} {m : M} : Executes sem [] ρ m ρ m
  | bitCast {result : Nat} {operand : Value K} {rest : List (Instruction K O)} {ρ ρ' : Nat → K} {m m' : M}
      (hrest : Executes sem rest (Function.update ρ result (operand.eval ρ)) m ρ' m') :
      Executes sem (.bitCast result operand :: rest) ρ m ρ' m'
  | other {opcode : O} {result : Nat} {operands : List (Value K)} {rest : List (Instruction K O)} {ρ ρ' : Nat → K}
      {m m' m'' : M} {k : K} (hexec : sem.exec opcode (operands.map (·.eval ρ)) m k m')
      (hrest : Executes sem rest (Function.update ρ result k) m' ρ' m'') :
      Executes sem (.other opcode result operands :: rest) ρ m ρ' m''

/-- `transferToBasicBlock`. The index of the first node serves for all of them; it is -1 if there is no entry. -/
def transferToBasicBlock (f : Function K O) (dst src : Nat) (incomingBBIndex : Option Nat) : Option Nat :=
  match f.blocks[dst]?.bind (·.phis.head?) with
  | some first => getBasicBlockIndex first.node src
  | none => incomingBBIndex

/-- `executeInstruction` at a PHI node. -/
def executePhi (incomingBBIndex : Option Nat) (ρ : Nat → K) (phi : Phi K) : Option (Nat → K) := do
  let index ← incomingBBIndex
  let entry ← phi.node.incoming[index]?
  return Function.update ρ phi.result (entry.1.eval ρ)

def executePhis (incomingBBIndex : Option Nat) (phis : List (Phi K)) (ρ : Nat → K) : Option (Nat → K) :=
  phis.foldlM (executePhi incomingBBIndex) ρ

/-- The runs of the executor: control has just come to a block from another one. -/
inductive Enters (f : Function K O) (sem : Semantics K O M) (ρ₀ : Nat → K) (m₀ : M) :
    Option Nat → Nat → Option Nat → (Nat → K) → M → Prop
  | start : Enters f sem ρ₀ m₀ none 0 (some 0) ρ₀ m₀
  | next {src index : Option Nat} {b s dst : Nat} {ρ ρ₁ ρ₂ : Nat → K} {m m₁ m₂ : M} {k : K} {bb : BasicBlock K O}
      (h : Enters f sem ρ₀ m₀ src b index ρ m) (hbb : f.blocks[b]? = some bb) (hphis : executePhis index bb.phis ρ = some ρ₁)
      (hexec : Executes sem bb.instructions ρ₁ m ρ₂ m₁)
      (hgoes : sem.goes bb.terminator.opcode (bb.terminator.operands.map (·.eval ρ₂)) m₁ k s m₂)
      (hdst : bb.terminator.successors[s]? = some dst) :
      Enters f sem ρ₀ m₀ (some b) dst (transferToBasicBlock f dst b index) (Function.update ρ₂ bb.terminator.result k) m₂

/-! ### What the PHI nodes mean -/

/-- The values that PHI nodes have when control comes from `src`. -/
def incomingMoves (phis : List (Phi K)) (src : Option Nat) : Option (List (Nat × Value K)) :=
  phis.mapM fun phi => (src.bind phi.node.valueFor).map fun value => (phi.result, value)

/-- The runs that are prescribed: the PHI nodes of a block get their values all at once. -/
inductive Arrives (f : Function K O) (sem : Semantics K O M) (ρ₀ : Nat → K) (m₀ : M) : Option Nat → Nat → (Nat → K) → M → Prop
  | start : Arrives f sem ρ₀ m₀ none 0 ρ₀ m₀
  | next {src : Option Nat} {b s dst : Nat} {ρ ρ₂ : Nat → K} {m m₁ m₂ : M} {k : K} {bb : BasicBlock K O}
      {moves : List (Nat × Value K)} (h : Arrives f sem ρ₀ m₀ src b ρ m) (hbb : f.blocks[b]? = some bb)
      (hphis : incomingMoves bb.phis src = some moves) (hexec : Executes sem bb.instructions (parallel moves ρ) m ρ₂ m₁)
      (hgoes : sem.goes bb.terminator.opcode (bb.terminator.operands.map (·.eval ρ₂)) m₁ k s m₂)
      (hdst : bb.terminator.successors[s]? = some dst) :
      Arrives f sem ρ₀ m₀ (some b) dst (Function.update ρ₂ bb.terminator.result k) m₂

/-! ### Well-formed functions -/

def Instruction.result : Instruction K O → Nat
  | bitCast result _ => result
  | other _ result _ => result

def Instruction.operands : Instruction K O → List (Value K)
  | bitCast _ operand => [operand]
  | other _ _ operands => operands

namespace BasicBlock

def results (bb : BasicBlock K O) : List Nat :=
  bb.phis.map (·.result) ++ bb.instructions.map (·.result) ++ [bb.terminator.result]

def operands (bb : BasicBlock K O) : List (Value K) :=
  bb.phis.flatMap (·.node.incoming.map (·.1)) ++ bb.instructions.flatMap (·.operands) ++ bb.terminator.operands

end BasicBlock

/-- The edges out of a block. -/
def Function.succ (f : Function K O) (p : Nat) : List Nat := f.blocks[p]?.elim [] fun bb => bb.terminator.successors

/-- Each register has one definition, and each PHI node has an entry for each edge into its block, with one value for each
predecessor. -/
structure Function.WellFormed (f : Function K O) : Prop where
  distinct : (f.blocks.flatMap (·.results)).Nodup
  results : ∀ bb ∈ f.blocks, ∀ r ∈ bb.results, r < f.next
  operands : ∀ bb ∈ f.blocks, ∀ r, .register r ∈ bb.operands → r < f.next
  entry : ∃ bb, f.blocks[0]? = some bb ∧ bb.phis = []
  targets : ∀ bb ∈ f.blocks, ∀ b ∈ bb.terminator.successors, b < f.blocks.length
  entries : ∀ b bb, f.blocks[b]? = some bb → ∀ phi ∈ bb.phis, ∀ p, phi.node.entries p = (f.succ p).count b
  agree : ∀ bb ∈ f.blocks, ∀ phi ∈ bb.phis, phi.node.Agree

end CapTaint.PhiCleaner
