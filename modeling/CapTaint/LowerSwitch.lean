import CapTaint.Lib.Ssa
import Mathlib.Logic.Function.Basic

/-! # Lowering of switches

`LowerSwitchPass`. There is no result where an assertion fails. -/

namespace CapTaint.LowerSwitch

open Ssa

variable {V K I : Type}

/-! ### PHI nodes -/

def getBasicBlockIndex (phi : PHINode V) (block : Nat) : Option Nat := phi.incoming.findIdx? (·.2 = block)

def setIncomingBlock (phi : PHINode V) (i block : Nat) : PHINode V := ⟨phi.incoming.modify i fun entry => (entry.1, block)⟩

/-- One entry from `origBlock` is rewritten to come from `newBlock`. -/
def rewriteEntry (origBlock newBlock : Nat) (phi : PHINode V) : Option (PHINode V) :=
  (getBasicBlockIndex phi origBlock).map fun blockIndex => setIncomingBlock phi blockIndex newBlock

/-- The loop over the PHI nodes of a block. -/
def rewritePhis (f : Ssa.Function V K I) (block origBlock newBlock : Nat) : Option (Ssa.Function V K I) := do
  let bb ← f.body block
  let phis ← bb.phis.mapM (rewriteEntry origBlock newBlock)
  return { f with body := Function.update f.body block (some { bb with phis }) }

/-! ### Blocks -/

/-- `insert` before a block of the list. -/
def insertBefore (block newBlock : Nat) (blocks : List Nat) : List Nat :=
  blocks.flatMap fun b => if b = block then [newBlock, b] else [b]

/-- `insert` behind a block of the list. -/
def insertBehind (block newBlock : Nat) (blocks : List Nat) : List Nat :=
  blocks.flatMap fun b => if b = block then [b, newBlock] else [b]

/-- `BasicBlock::Create`. The block `f.next` gets its place in the list and its terminator. -/
def create (f : Ssa.Function V K I) (blocks : List Nat) (terminator : Terminator V K) : Ssa.Function V K I where
  blocks := blocks
  body := Function.update f.body f.next (some ⟨[], [], terminator⟩)
  next := f.next + 1

/-- The terminator of a block is replaced. -/
def setTerminator (f : Ssa.Function V K I) (block : Nat) (terminator : Terminator V K) : Option (Ssa.Function V K I) := do
  let bb ← f.body block
  return { f with body := Function.update f.body block (some { bb with terminator }) }

/-! ### The pass -/

/-- A turn of the loop in `switchConvert`, with the head of the chain so far. -/
def convertCase (value : V) (origBlock : Nat) (state : Ssa.Function V K I × Nat) (case : K × Nat) :
    Option (Ssa.Function V K I × Nat) := do
  let newBlock := state.1.next
  let f := create state.1 (insertBehind origBlock newBlock state.1.blocks) (.condBr (.equal value case.1) case.2 state.2)
  let f ← rewritePhis f case.2 origBlock newBlock
  return (f, newBlock)

/-- `switchConvert`. The branch to the head of the chain takes the place of the switch. -/
def switchConvert (f : Ssa.Function V K I) (cases : List (K × Nat)) (value : V) (origBlock defaultBlock : Nat) :
    Option (Ssa.Function V K I) := do
  let (f, curHead) ← cases.foldlM (convertCase value origBlock) (f, defaultBlock)
  setTerminator f origBlock (.br curHead)

/-- `processSwitchInst`. The chain is built from its end. -/
def processSwitchInst (f : Ssa.Function V K I) (origBlock : Nat) (switchValue : V) (defaultBlock : Nat) (cases : List (K × Nat)) :
    Option (Ssa.Function V K I) := do
  let newDefault := f.next
  let f := create f (insertBefore defaultBlock newDefault f.blocks) (.br defaultBlock)
  let f ← rewritePhis f defaultBlock origBlock newDefault
  switchConvert f cases.reverse switchValue origBlock newDefault

/-- A turn of the loop in `runOnFunction`. -/
def processBlock (f : Ssa.Function V K I) (cur : Nat) : Option (Ssa.Function V K I) :=
  match f.body cur with
  | some ⟨_, _, .switch switchValue defaultBlock cases⟩ => processSwitchInst f cur switchValue defaultBlock cases
  | _ => some f

/-- `runOnFunction`. The loop comes to some of the blocks that it makes too, but these have no switches. -/
def runOnFunction (f : Ssa.Function V K I) : Option (Ssa.Function V K I) := f.blocks.foldlM processBlock f

end CapTaint.LowerSwitch
