import CapTaint.Lib.Distance

/-! # Distances of the instructions

`StatsTracker::computeReachableUncovered`: how far it is from an instruction to a return of its function, and to an
instruction that is not covered yet. The distances of the frames follow from those of the instructions. -/

namespace CapTaint.StatsTracker

open Distance

/-- What a call site calls: inline assembly, a function that `getDirectCallTarget` finds, or a pointer. -/
inductive CalledValue
  | inlineAsm
  | direct (f : Nat)
  | indirect

inductive Instruction
  | ret
  /-- A `CallInst` or an `InvokeInst`. -/
  | call (calledValue : CalledValue)
  | other

def Instruction.isCall : Instruction → Bool
  | call _ => true
  | _ => false

def Instruction.isRet : Instruction → Bool
  | ret => true
  | _ => false

/-- The last instruction is the terminator. -/
structure BasicBlock where
  instructions : List Instruction
  successors : List Nat

structure Function where
  blocks : List BasicBlock
  doesNotReturn : Bool

def Function.isDeclaration (f : Function) : Bool := f.blocks.isEmpty

structure Module where
  functions : List Function
  escapingFunctions : List Nat

/-- The place of an instruction, for its `InstructionInfo::id`. -/
structure InstId where
  function : Nat
  block : Nat
  place : Nat
  deriving DecidableEq

/-- `f->begin()->begin()`, whose info is that of the function. -/
def begin (f : Nat) : InstId := ⟨f, 0, 0⟩

namespace Module

variable (m : Module)

def block (id : InstId) : Option BasicBlock := m.functions[id.function]?.bind fun f => f.blocks[id.block]?

def inst (id : InstId) : Option Instruction := (m.block id).bind fun bb => bb.instructions[id.place]?

def isDeclaration (f : Nat) : Bool := m.functions[f]?.elim true Function.isDeclaration

/-- `callTargets` -/
def callTargets : Instruction → List Nat
  | .call .inlineAsm => []
  | .call (.direct f) => [f]
  | .call .indirect => m.escapingFunctions
  | _ => []

/-- The instructions in the order in which they are swept: last ones first. -/
def instructions : List (InstId × Instruction) :=
  (m.functions.zipIdx.flatMap fun f => f.1.blocks.zipIdx.flatMap fun bb =>
    bb.1.instructions.zipIdx.map fun i => (⟨f.2, bb.2, i.2⟩, i.1)).reverse

def getSuccs (id : InstId) : List InstId :=
  (m.block id).elim [] fun bb =>
    if id.place + 1 = bb.instructions.length then bb.successors.map fun succ => ⟨id.function, succ, 0⟩
    else [{ id with place := id.place + 1 }]

/-- The instruction after it in the array of the function's instructions. -/
def next (id : InstId) : InstId :=
  if (m.block id).elim false fun bb => id.place + 1 = bb.instructions.length then ⟨id.function, id.block + 1, 0⟩
  else { id with place := id.place + 1 }

end Module

/-! ### The sweeps -/

/-- `if (best==0 || val<best) best = val` -/
def lower (best val : Nat) : Nat := if best = 0 ∨ val < best then val else best

variable (m : Module)

/-- The loop over the callees. `bestThrough` is an `unsigned`. -/
def bestCallee (functionShortestPath : Nat → Nat) (targets : List Nat) (bestThrough : Nat) : Nat :=
  targets.foldl (fun bestThrough f =>
    if functionShortestPath f = 0 then bestThrough
    -- count instruction itself
    else lower bestThrough (1 + functionShortestPath f) % 2 ^ 32) bestThrough

def bestThrough (functionShortestPath : Nat → Nat) (inst : Instruction) : Nat :=
  if inst.isCall then bestCallee functionShortestPath (m.callTargets inst) 0 else 1

/-- The loop over the successors. -/
def bestOver (dist : InstId → Nat) (through best : Nat) (succs : List InstId) : Nat :=
  succs.foldl (fun best succ => if dist succ = 0 then best else lower best ((through + dist succ) % 2 ^ 64)) best

structure Returns where
  minDistToReturn : InstId → Nat
  functionShortestPath : Nat → Nat

/-- The update of an instruction, and of its function when it is the first one. -/
def Returns.record (s : Returns) (id : InstId) (best : Nat) : Returns where
  minDistToReturn := Function.update s.minDistToReturn id best
  functionShortestPath :=
    if id = begin id.function then Function.update s.functionShortestPath id.function (best % 2 ^ 32)
    else s.functionShortestPath

def returnStart : Returns where
  minDistToReturn id := (m.inst id).elim 0 fun inst => inst.isRet.toNat
  functionShortestPath f := m.functions[f]?.elim 0 fun f => (f.isDeclaration && !f.doesNotReturn).toNat

def returnStep (s : Returns) (node : InstId × Instruction) : Returns × Bool :=
  let through := bestThrough m s.functionShortestPath node.2
  let cur := s.minDistToReturn node.1
  let best := bestOver s.minDistToReturn through cur (m.getSuccs node.1)
  if through ≠ 0 ∧ (best ≠ cur ∨ node.1 = begin node.1.function ∧ s.functionShortestPath node.1.function ≠ best) then
    (s.record node.1 best, true)
  else (s, false)

/-- The part that runs once, for `minDistToReturn`. -/
def computeReturns (fuel : Nat) : Option Returns := doWhile (returnStep m) m.instructions fuel (returnStart m)

/-- The callees of a call, of which the last instructions need not be reached. -/
def bestInto (dist : InstId → Nat) (best : Nat) (inst : Instruction) : Nat :=
  (m.callTargets inst).foldl (fun best f =>
    if m.isDeclaration f || dist (begin f) = 0 then best else lower best ((1 + dist (begin f)) % 2 ^ 64)) best

def uncoveredStart (uncoveredInstructions : InstId → Bool) (id : InstId) : Nat :=
  ((m.inst id).isSome && uncoveredInstructions id).toNat

def uncoveredStep (functionShortestPath : Nat → Nat) (dist : InstId → Nat) (node : InstId × Instruction) :
    (InstId → Nat) × Bool :=
  let cur := dist node.1
  let through := bestThrough m functionShortestPath node.2
  let into := bestInto m dist cur node.2
  let best := if through ≠ 0 then bestOver dist through into (m.getSuccs node.1) else into
  if best ≠ cur then (Function.update dist node.1 best, true) else (dist, false)

/-- The part that runs each time, for `minDistToUncovered`. -/
def computeUncovered (functionShortestPath : Nat → Nat) (uncoveredInstructions : InstId → Bool) (fuel : Nat) :
    Option (InstId → Nat) :=
  doWhile (uncoveredStep m functionShortestPath) m.instructions fuel (uncoveredStart m uncoveredInstructions)

/-- What the statistics say about the instructions. -/
structure Statistics where
  minDistToUncovered : InstId → Nat
  minDistToReturn : InstId → Nat

/-- Both loops, with the rounds that they may take. -/
def computeReachableUncovered (uncoveredInstructions : InstId → Bool) (fuel fuel' : Nat) : Option Statistics :=
  (computeReturns m fuel).bind fun s =>
    (computeUncovered m s.functionShortestPath uncoveredInstructions fuel').map fun dist => ⟨dist, s.minDistToReturn⟩

/-! ### The frames -/

structure StackFrame where
  caller : InstId
  /-- An `unsigned`. -/
  minDistToUncoveredOnReturn : Nat

/-- The frame at the bottom is the first one. -/
structure Thread where
  stack : List StackFrame
  pc : InstId

def computeMinDistToUncovered (sm : Statistics) (ki : InstId) (minDistAtRA : Nat) : Nat :=
  if minDistAtRA = 0 then sm.minDistToUncovered ki
  else if sm.minDistToReturn ki = 0 then sm.minDistToUncovered ki
  else if sm.minDistToUncovered ki = 0 then (sm.minDistToReturn ki + minDistAtRA) % 2 ^ 64
  else min (sm.minDistToUncovered ki) ((sm.minDistToReturn ki + minDistAtRA) % 2 ^ 64)

variable (sm : Statistics)

/-- The loop over the frames, with `currentFrameMinDist` before and after it. -/
def computeFrames (pc : InstId) : List StackFrame → Nat → List StackFrame × Nat
  | [], currentFrameMinDist => ([], currentFrameMinDist)
  | sf :: rest, currentFrameMinDist =>
    let kii := rest.head?.elim pc fun above => m.next above.caller
    let above := computeFrames pc rest (computeMinDistToUncovered sm kii currentFrameMinDist)
    ({ sf with minDistToUncoveredOnReturn := currentFrameMinDist % 2 ^ 32 } :: above.1, above.2)

/-- The loop over the threads. -/
def computeThreads : List Thread → Nat → List Thread
  | [], _ => []
  | thread :: rest, currentFrameMinDist =>
    let frames := computeFrames m sm thread.pc thread.stack currentFrameMinDist
    { thread with stack := frames.1 } :: computeThreads rest frames.2

/-- What is done for each state. -/
def computeState (threadList : List Thread) : List Thread := computeThreads m sm threadList 0

end CapTaint.StatsTracker
