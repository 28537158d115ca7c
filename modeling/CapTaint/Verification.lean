import CapTaint.Managers
import CapTaint.ListenerService

/-! # The sequence of runs

What `Executor::run` does to the sets of states, how it leaves its main loop, and what `runVerification` cleans up before
the next run. A state is known by a number that no other one has. -/

namespace CapTaint
open Std

/-- The members of the executor that a run leaves to the next one. -/
structure ExecutorData where
  states : Finset Nat := ∅
  addedStates : Finset Nat := ∅
  removedStates : Finset Nat := ∅
  haltExecution : Bool := false
  execStatus : ExecStatus := .SUCCESS
  mutexManager : MutexManager := {}
  nextMutexId : Nat := 1
  condManager : CondManager := {}
  nextConditionId : Nat := 1
  barrierManager : BarrierManager := {}
  joinRecord : TreeMap Nat (List Nat) := ∅
  /-- `Thread::nextThreadId`. -/
  nextThreadId : Nat := 1
  /-- The number of the state that is allocated next. -/
  nextState : Nat := 0

/-- What an instruction does to the managers and their counters, with the status that it sets. -/
structure ManagerEffect where
  execStatus : ExecStatus := .SUCCESS
  mutexManager : MutexManager := {}
  nextMutexId : Nat := 1
  condManager : CondManager := {}
  nextConditionId : Nat := 1
  barrierManager : BarrierManager := {}
  joinRecord : TreeMap Nat (List Nat) := ∅
  nextThreadId : Nat := 2

/-- One round of the main loop for the state that the searcher selects. -/
inductive Round
  /-- The selected thread is not able to run. -/
  | unable (state : Nat)
  /-- The instruction is not that of the prefix. -/
  | unmatched (state : Nat)
  /-- An instruction: how many states it forks, the states that it terminates, what it does to the managers, whether it is
      the last one before the halt, and whether its time is over. When no thread is left to schedule, `finished` tells
      whether all of them have ended. -/
  | executed (state forks : Nat) (terminated : List Nat) (effect : ManagerEffect) (halts timedOut : Bool)
      (finished : Option Bool)

namespace ExecutorData

/-- A state that has not reached the searcher is deleted at once. -/
def terminateState (x : ExecutorData) (state : Nat) : ExecutorData :=
  if state ∈ x.addedStates then { x with addedStates := x.addedStates.erase state }
  else { x with removedStates := insert state x.removedStates }

/-- `none` when the assertion fails that a removed state is one of the states. -/
def updateStates (x : ExecutorData) : Option ExecutorData :=
  let states := x.states ∪ x.addedStates
  if x.removedStates ⊆ states then
    some { x with states := states \ x.removedStates, addedStates := ∅, removedStates := ∅ }
  else none

/-- `branch`, with the insertion into `addedStates`. -/
def fork (x : ExecutorData) : ExecutorData :=
  { x with addedStates := insert x.nextState x.addedStates, nextState := x.nextState + 1 }

/-- An instruction terminates its own state or one that it has forked. -/
def terminate (current : Nat) (x : ExecutorData) (state : Nat) : Option ExecutorData :=
  if state = current ∨ state ∈ x.addedStates then some (x.terminateState state) else none

def apply (x : ExecutorData) (effect : ManagerEffect) : ExecutorData :=
  { x with
    execStatus := effect.execStatus
    mutexManager := effect.mutexManager, nextMutexId := effect.nextMutexId
    condManager := effect.condManager, nextConditionId := effect.nextConditionId
    barrierManager := effect.barrierManager
    joinRecord := effect.joinRecord, nextThreadId := effect.nextThreadId }

/-- One round; `true` when it leaves the loop through a `break`. -/
def round (x : ExecutorData) : Round → Option (Bool × ExecutorData)
  | .unable state =>
    if state ∈ x.states then some (true, { x with execStatus := .RUNTIMEERROR }.terminateState state) else none
  | .unmatched state =>
    if state ∈ x.states then some (true, { x with execStatus := .IGNOREDERROR }.terminateState state) else none
  | .executed state forks terminated effect halts timedOut finished =>
    if state ∈ x.states then do
      let x := { x with haltExecution := x.haltExecution || halts }
      let x := fork^[forks] x
      let x ← terminated.foldlM (terminate state) x
      let x := x.apply effect
      if x.execStatus ≠ .SUCCESS then
        let x ← x.updateStates
        some (true, x)
      else
        let x := if timedOut then x.terminateState state else x
        let x := match finished with
          | none => x
          | some isAllThreadFinished =>
            { x with execStatus := if isAllThreadFinished then .SUCCESS else .RUNTIMEERROR }.terminateState state
        let x ← x.updateStates
        some (false, x)
    else none

/-- The main loop through exactly these rounds. -/
def loop : List Round → ExecutorData → Option ExecutorData
  | [], x => if x.states = ∅ ∨ x.haltExecution then some x else none
  | round :: rounds, x =>
    if x.states = ∅ ∨ x.haltExecution then none
    else do
      let (isBroken, x) ← x.round round
      if isBroken then if rounds = [] then some x else none
      else loop rounds x

/-- The dump of the states that remain: `terminateState` for each of them, then `updateStates`. -/
def dump (x : ExecutorData) (dumpStatesOnHalt : Bool) : Option ExecutorData :=
  if dumpStatesOnHalt ∧ x.states ≠ ∅ then
    ({ x with removedStates := x.removedStates ∪ (x.states \ x.addedStates), addedStates := x.addedStates \ x.states }).updateStates
  else some x

/-- The beginning of a run: the initial state with its main thread. -/
def begin (x : ExecutorData) : ExecutorData :=
  { x with
    execStatus := .SUCCESS
    states := insert x.nextState x.states, nextState := x.nextState + 1
    nextThreadId := x.nextThreadId + 1 }

/-- The managers are cleared, which empties their pools and resets their counters; the remaining states are deleted, but
    the set that holds them is not cleared. -/
def prepareNextExecution (x : ExecutorData) : ExecutorData :=
  { x with
    mutexManager := {}, nextMutexId := 1
    condManager := {}, nextConditionId := 1
    barrierManager := {}
    joinRecord := ∅
    nextThreadId := 1 }

/-- `runVerification` through these runs: the data when a run begins, and when it leaves its main loop. A run follows
    another one unless that one ended with an error. -/
def runVerification (dumpStatesOnHalt : Bool) : List (List Round) → ExecutorData → Option (List (ExecutorData × ExecutorData))
  | [], _ => some []
  | rounds :: runs, x =>
    if x.execStatus = .RUNTIMEERROR then none
    else do
      let left ← loop rounds x.begin
      let ended ← left.dump dumpStatesOnHalt
      let rest ← runVerification dumpStatesOnHalt runs ended.prepareNextExecution
      some ((x, left) :: rest)

end ExecutorData
end CapTaint
