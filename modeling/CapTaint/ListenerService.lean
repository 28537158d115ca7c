import Mathlib
import CapTaint.Trace
import CapTaint.Lib.GreedyMatch

/-! # The control of the runs

`Executor::runVerification` runs the program again and again. `ListenerService` says which listener a run has: a recording
run comes first, and a trace that is new is replayed twice, for the symbolic expressions and for the taints. -/

namespace CapTaint

inductive ExecStatus
  | SUCCESS | IGNOREDERROR | RUNTIMEERROR
  deriving Repr, DecidableEq

/-- `runState`: 0, 1 and 2. -/
inductive RunState
  | pso | symbolic | taint
  deriving Repr, DecidableEq

/-- What a run of the program and the analysis of its trace come back with. -/
structure RunOutcome (P : Type) where
  execStatus : ExecStatus
  /-- `isCurrentTraceUntested`. -/
  isUntested : Bool := false
  /-- The prefix that violates an assertion, from `Encode::verify`. -/
  violation : Option P := none
  /-- The prefixes that `Encode::check_if` adds. -/
  branches : List P := []
  deriving Repr, DecidableEq

structure Exploration (P : Type) where
  isFinished : Bool := false
  execStatus : ExecStatus := .SUCCESS
  /-- `executor->prefix`. -/
  currentPrefix : Option P := none
  scheduleSet : List P := []
  runState : RunState := .pso
  /-- The prefixes of the recording runs so far. -/
  executed : List P := []
  /-- The prefixes that were added to the set so far, without those that were cleared from it. -/
  scheduled : List P := []
  deriving Repr, DecidableEq

variable {P : Type}

namespace Exploration

/-! ## The schedule set -/

def addScheduleSet (x : Exploration P) (added : P) : Exploration P :=
  { x with scheduleSet := x.scheduleSet ++ [added], scheduled := x.scheduled ++ [added] }

/-- What is in the set has not been executed. -/
def clearAllPrefix (x : Exploration P) : Exploration P :=
  { x with scheduleSet := [], scheduled := x.scheduled.take (x.scheduled.length - x.scheduleSet.length) }

/-- `Executor::getNewPrefix`, with `RuntimeDataManager::getNextPrefix`. -/
def getNewPrefix (x : Exploration P) : Exploration P :=
  match x.scheduleSet with
  | [] => { x with isFinished := true }
  | next :: rest => { x with currentPrefix := some next, scheduleSet := rest, isFinished := false }

/-! ## One run -/

/-- The run state of the next run; the recording run notes the prefix it follows. -/
def startControl (x : Exploration P) : Exploration P :=
  match x.runState with
  | .pso => { x with executed := x.executed ++ x.currentPrefix.toList }
  | .symbolic => { x with runState := .taint }
  | .taint => { x with runState := .pso }

/-- `afterRunMethodAsMain` of the listener of the run; only that of `PSOListener` has an effect on the control. -/
def afterRunMethodAsMain (runState : RunState) (o : RunOutcome P) (x : Exploration P) : Exploration P :=
  match runState with
  | .pso =>
    if x.execStatus ≠ .SUCCESS then { x with isFinished := true }
    else if o.isUntested = false then x.getNewPrefix
    else { x with runState := .symbolic }
  | .symbolic | .taint => x

def endControl (runState : RunState) (o : RunOutcome P) (x : Exploration P) : Exploration P :=
  match runState with
  | .pso => x
  | .symbolic =>
    match o.violation with
    | some violating => x.clearAllPrefix.addScheduleSet violating
    | none => o.branches.foldl addScheduleSet x
  | .taint => x.getNewPrefix

/-- The body of the loop of `Executor::runVerification`. -/
def runOnce (x : Exploration P) (o : RunOutcome P) : Exploration P :=
  let x' := { x.startControl with execStatus := o.execStatus }
  (x'.afterRunMethodAsMain x.runState o).endControl x.runState o

/-- The condition of the loop. -/
def goesOn (x : Exploration P) : Bool := !x.isFinished && x.execStatus ≠ .RUNTIMEERROR

end Exploration

/-- The state after `n` rounds of the loop of `Executor::runVerification`, or after the last one. -/
def runVerification (outcomes : Nat → RunOutcome P) : Nat → Exploration P
  | 0 => {}
  | n + 1 =>
    let x := runVerification outcomes n
    if x.goesOn then x.runOnce (outcomes n) else x

/-! ### Tested traces

Two traces are taken as equal when their threads took the same branches. The source keeps the abstract of a trace once it
is built; a trace does not change after its run, so it is computed here. -/

open Std GreedyMatch

namespace Trace

/-- The abstract of one thread: its function, and the conditions of its branches in order. `function` is the name of the
    function of an event's instruction. -/
def abstractOf (function : Event → String) (thread : List Event) : String :=
  (thread.head?.map function).getD "" ++ ":" ++
    String.join ((thread.filter (·.isConditionIns)).map fun event => if event.condition then "1" else "0")

def createAbstract (function : Event → String) (trace : Trace) : List String :=
  trace.threads.map (abstractOf function)

def isEqual (function : Event → String) (self trace : Trace) : Bool :=
  let selfAbstract := self.createAbstract function
  let otherAbstract := trace.createAbstract function
  if selfAbstract.length ≠ otherAbstract.length then false
  else matchAll selfAbstract otherAbstract (List.replicate otherAbstract.length false)

end Trace

/-- The part of `RuntimeDataManager` that remembers traces. The order of the source's set of pointers is not fixed, and
    what is asked of it does not depend on the order. -/
structure RuntimeDataManager where
  testedTraceList : List Trace := []

namespace RuntimeDataManager

def isCurrentTraceUntested (function : Event → String) (manager : RuntimeDataManager) (currentTrace : Trace) :
    Bool × RuntimeDataManager :=
  let result := !manager.testedTraceList.any fun trace => currentTrace.isEqual function trace
  (result, if result then { testedTraceList := manager.testedTraceList ++ [currentTrace] } else manager)

/-- The manager after runs with the traces `traces`. -/
def afterRuns (function : Event → String) (traces : List Trace) : RuntimeDataManager :=
  traces.foldl (fun manager trace => (manager.isCurrentTraceUntested function trace).2) {}

end RuntimeDataManager
end CapTaint
