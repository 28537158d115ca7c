import Mathlib.Data.List.Basic
import Std.Data.TreeMap.Lemmas

/-! # Branch instructions

How a conditional `br` and a `switch` turn one state into several. An expression is the value that it has under each
valuation `V` of the symbolic bytes; the solver answers for a list of constraints. There are no seeds and no replay, no
limit on forks and no timeout. -/

namespace CapTaint
open Std

/-- The part of an `ExecutionState` that a branch instruction changes: its constraints and the block at which the current
    thread goes on. -/
structure PathState (V : Type) where
  constraints : List (V → Bool)
  block : Nat

namespace PathState

variable {V : Type}

def satisfies (state : PathState V) (v : V) : Bool := state.constraints.all fun c => c v

/-- Some valuation satisfies the constraints. -/
def Feasible (state : PathState V) : Prop := ∃ v, state.satisfies v = true

/-- `Executor::addConstraint`. A constant condition, which is true where the code adds one, constrains nothing. -/
def addConstraint (state : PathState V) (condition : V → Bool) : PathState V :=
  { state with constraints := state.constraints ++ [condition] }

/-- `ExecutionState::branch`. The copy has the constraints and the stacks of the state. -/
def branch (state : PathState V) : PathState V := state

def transferToBasicBlock (dst : Nat) (state : PathState V) : PathState V := { state with block := dst }

end PathState

/-- `Solver::Validity`. -/
inductive Validity
  | True
  | False
  | Unknown
  deriving DecidableEq

/-- The queries of the solver that the executor makes about a state. -/
structure TimingSolver (V : Type) where
  evaluate : PathState V → (V → Bool) → Validity
  mustBeTrue : PathState V → (V → Bool) → Bool
  getValue : PathState V → (V → Nat) → Nat

/-- What the generator of random numbers yields to a branch instruction: whether a fork swaps its two states, and which
    state each new one is copied from. -/
structure Draws where
  swaps : Bool
  picks : Nat → Nat

/-- The cases of a switch with their successors. No value has two cases. -/
structure SwitchInst where
  cases : List (Nat × Nat)
  defaultDest : Nat
  distinct : (cases.map Prod.fst).Nodup

/-- The successor of the case that `findCaseValue` finds; without one it is the default. -/
def SwitchInst.findCaseValue (si : SwitchInst) (value : Nat) : Nat :=
  match si.cases.find? fun case => case.1 == value with
  | some case => case.2
  | none => si.defaultDest

/-- A conditional `br` with its two successors, or a `switch`, with the value of the condition. -/
inductive BranchingInst (V : Type)
  | br (cond : V → Bool) (successor₀ successor₁ : Nat)
  | switch (cond : V → Nat) (si : SwitchInst)

/-- The successor that the instruction selects when its condition is evaluated under the valuation. -/
def BranchingInst.selects {V : Type} : BranchingInst V → V → Nat
  | .br cond successor₀ successor₁, v => if cond v then successor₀ else successor₁
  | .switch cond si, v => si.findCaseValue (cond v)

namespace TimingSolver

variable {V : Type} (solver : TimingSolver V)

def mustBeFalse (state : PathState V) (expr : V → Bool) : Bool := solver.mustBeTrue state fun v => !expr v

def mayBeTrue (state : PathState V) (expr : V → Bool) : Bool := !solver.mustBeFalse state expr

/-- `Executor::toUnique`, as far as it finds a constant. -/
def toUnique (state : PathState V) (e : V → Nat) : Option Nat :=
  let value := solver.getValue state e
  if solver.mustBeTrue state fun v => e v == value then some value else none

/-- `Executor::fork`: the states in which the condition is true and false. -/
def fork (draws : Draws) (current : PathState V) (condition : V → Bool) : Option (PathState V) × Option (PathState V) :=
  match solver.evaluate current condition with
  | .True => (some current, none)
  | .False => (none, some current)
  | .Unknown =>
    let copied := current.branch
    let (trueState, falseState) := if draws.swaps then (copied, current) else (current, copied)
    (some (trueState.addConstraint condition), some (falseState.addConstraint fun v => !condition v))

/-- The states of `Executor::branch` before their conditions are added: the given one, then copies of ones before. -/
def copies (draws : Draws) (state : PathState V) : Nat → List (PathState V)
  | 0 => [state]
  | i + 1 =>
    let result := copies draws state i
    result ++ [(result.getD (draws.picks i % (i + 1)) state).branch]

/-- `Executor::branch`; without a condition its assertion fails. -/
def branch (draws : Draws) (state : PathState V) (conditions : List (V → Bool)) : Option (List (PathState V)) :=
  match conditions with
  | [] => none
  | _ :: rest => some (List.zipWith PathState.addConstraint (copies draws state rest.length) conditions)

/-- What the loop over the cases of a switch accumulates. -/
structure Targets (V : Type) where
  targets : TreeMap Nat (V → Bool) := ∅
  isDefault : V → Bool := fun _ => true

/-- One case: its block is entered if the case may match. -/
def addCase (state : PathState V) (cond : V → Nat) (t : Targets V) (case : Nat × Nat) : Targets V :=
  let isMatch := fun v => cond v == case.1
  { targets :=
      if solver.mayBeTrue state isMatch then
        let entry := t.targets.getD case.2 fun _ => false
        t.targets.insert case.2 fun v => isMatch v || entry v
      else t.targets
    isDefault := fun v => t.isDefault v && !isMatch v }

/-- The blocks that a switch may go to, each with its condition. The default is inserted like `std::map::insert` does it:
    an entry that is there already stays. -/
def targets (state : PathState V) (cond : V → Nat) (si : SwitchInst) : TreeMap Nat (V → Bool) :=
  let t := si.cases.foldl (solver.addCase state cond) {}
  if solver.mayBeTrue state t.isDefault then t.targets.insertIfNew si.defaultDest t.isDefault else t.targets

/-- `executeInstruction` for `Br` and `Switch`: the states that result. -/
def executeInstruction (draws : Draws) (state : PathState V) : BranchingInst V → Option (List (PathState V))
  | .br cond successor₀ successor₁ =>
    let (trueState, falseState) := solver.fork draws state cond
    some ((trueState.map (·.transferToBasicBlock successor₀)).toList ++
      (falseState.map (·.transferToBasicBlock successor₁)).toList)
  | .switch cond si =>
    match solver.toUnique state cond with
    | some value => some [state.transferToBasicBlock (si.findCaseValue value)]
    | none =>
      let entries := (solver.targets state cond si).toList
      (branch draws state (entries.map Prod.snd)).map fun branches =>
        List.zipWith (fun entry es => es.transferToBasicBlock entry.1) entries branches

end TimingSolver

end CapTaint
