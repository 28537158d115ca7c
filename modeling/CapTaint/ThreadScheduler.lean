import CapTaint.Executor

/-! # Thread schedulers and copies of states

An `ExecutionState` with the class of its scheduler and its current thread, the copy that `branch` makes of it, and the
operations that change what the scheduler selects. What the source leaves undefined, and a failed assertion, is
`none`. -/

namespace CapTaint
open Std

/-- The classes of the schedulers that the constructors build. Each of them keeps a queue; the guided one has it in a
    `FIFSThreadScheduler` of its own, and `current` is the thread of the prefix's current event until it is finished. -/
inductive ThreadScheduler
  | fifs
  | preemptive
  | guided (current : Option Nat)
  deriving DecidableEq

namespace ThreadScheduler

/-- `selectNextItem` on a queue that is not empty. -/
def selectNextItem : ThreadScheduler → List Nat → Option Nat
  | .fifs, queue | .guided none, queue => queue.head?
  | .preemptive, queue => queue.getLast?
  | .guided (some threadId), _ => some threadId

/-- `reSchedule`. The preemptive scheduler puts the last thread before the one that is last then; where none is left, the
    iterator before the end of the list is the end itself. -/
def reSchedule : ThreadScheduler → List Nat → Option (List Nat)
  | _, [] => none
  | .fifs, thread :: rest | .guided _, thread :: rest => some (rest ++ [thread])
  | .preemptive, thread :: rest =>
    let queue := (thread :: rest).dropLast
    some (queue.dropLast ++ [(thread :: rest).getLast (by simp)] ++ queue.getLast?.toList)

end ThreadScheduler

structure ScheduledState where
  state : ExecutionState
  scheduler : ThreadScheduler
  currentThread : Option Nat

namespace ScheduledState

/-- `ExecutionState(kf)` and `ExecutionState(kf, prefix)`: the main thread alone. -/
def main (scheduler : ThreadScheduler) : ScheduledState :=
  { state := Executor.start.state, scheduler := scheduler, currentThread := some 1 }

/-- `getAllUnfinishedThreads` holds the thread. -/
def unfinished (s : ScheduledState) (threadId : Nat) : Bool :=
  match s.state.stateOf threadId with
  | none | some .terminated => false
  | some _ => true

/-- The copy constructor. Each thread is copied without its clock, and the queue of the old scheduler, read as that of a
    preemptive one, is mapped to the new threads. A guided scheduler has no queue at that place; a queued thread that is
    finished and a missing current thread are null pointers. -/
def copy (s : ScheduledState) : Option ScheduledState :=
  match s.scheduler, s.currentThread with
  | .guided _, _ | _, none => none
  | .fifs, some current | .preemptive, some current =>
    if current ∈ s.state.threadList ∧ s.state.queue.all s.unfinished then
      some
        { state :=
            { s.state with
              threadList := s.state.threadList.map fun _ thread => { thread with vectorClock := Vector.replicate 5 0 } }
          scheduler := .preemptive
          currentThread := some current }
    else none

/-- The thread that is selected; it is the current one then. -/
def getNextThread (s : ScheduledState) : Option Nat × ScheduledState :=
  let nextThread := if s.state.queue = [] then none else s.scheduler.selectNextItem s.state.queue
  (nextThread, { s with currentThread := nextThread })

def reSchedule (s : ScheduledState) : Option ScheduledState := do
  let queue ← s.scheduler.reSchedule s.state.queue
  some { s with state := { s.state with queue := queue } }

def swapInThread (s : ScheduledState) (threadId : Nat) (threadState : ThreadState) : Option ScheduledState :=
  if threadId ∈ s.state.threadList then some { s with state := s.state.swapInThread threadId threadState } else none

def swapOutThread (s : ScheduledState) (threadId : Nat) (threadState : ThreadState) : Option ScheduledState :=
  if threadId ∈ s.state.threadList then some { s with state := s.state.swapOutThread threadId threadState } else none

end ScheduledState

/-- The operations that the scheduler takes part in. -/
inductive SchedulerOp
  | getNextThread
  | reSchedule
  | swapIn (threadId : Nat) (threadState : ThreadState)
  | swapOut (threadId : Nat) (threadState : ThreadState)

namespace ScheduledState

/-- The threads that are selected under the operations; `none` stands for the null pointer of an empty scheduler. -/
def selections : List SchedulerOp → ScheduledState → Option (List (Option Nat))
  | [], _ => some []
  | .getNextThread :: ops, s => do
    let (nextThread, s) := s.getNextThread
    let rest ← selections ops s
    some (nextThread :: rest)
  | .reSchedule :: ops, s => s.reSchedule.bind (selections ops)
  | .swapIn threadId threadState :: ops, s => (s.swapInThread threadId threadState).bind (selections ops)
  | .swapOut threadId threadState :: ops, s => (s.swapOutThread threadId threadState).bind (selections ops)

end ScheduledState

/-! ## Two states of one executor -/

/-- A step that concerns threads: an instruction, the objects that an allocation registers, or the scheduler's turn. -/
inductive Action
  | instruction (threadId : Nat) (inst : Inst) (choice : Choice)
  | createSpecialElement (element : Executor.SpecialElement)
  | reSchedule (scheduler : ThreadScheduler)

def Executor.act (e : Executor) : Action → Option (Outcome × Executor)
  | .instruction threadId inst choice => e.step threadId inst choice
  | .createSpecialElement element => some ({}, e.createSpecialElement element)
  | .reSchedule scheduler =>
    (scheduler.reSchedule e.state.queue).map fun queue => ({}, { e with state := { e.state with queue := queue } })

/-- Two states that the searcher may select. Each has its threads and its queue; the managers and `joinRecord` are members
    of the executor and `Thread::nextThreadId` is static. -/
structure ForkedStates where
  mutexManager : MutexManager
  condManager : CondManager
  barrierManager : BarrierManager
  joinRecord : TreeMap Nat (List Nat)
  nextThreadId : Nat
  state : Bool → ExecutionState

namespace ForkedStates

/-- The executor as the steps of one state find it. -/
def view (f : ForkedStates) (side : Bool) : Executor :=
  { state := { f.state side with nextThreadId := f.nextThreadId }
    mutexManager := f.mutexManager
    condManager := f.condManager
    barrierManager := f.barrierManager
    joinRecord := f.joinRecord }

/-- The executor after a step of one state. -/
def update (f : ForkedStates) (side : Bool) (e : Executor) : ForkedStates :=
  { mutexManager := e.mutexManager
    condManager := e.condManager
    barrierManager := e.barrierManager
    joinRecord := e.joinRecord
    nextThreadId := e.state.nextThreadId
    state := fun other => if other = side then e.state else f.state other }

end ForkedStates

/-- `branch` in the running state of the executor. -/
def Executor.fork (e : Executor) (copy : ExecutionState) : ForkedStates :=
  { mutexManager := e.mutexManager
    condManager := e.condManager
    barrierManager := e.barrierManager
    joinRecord := e.joinRecord
    nextThreadId := e.state.nextThreadId
    state := fun side => if side then copy else e.state }

/-! ## The schedulers by themselves -/

/-- A scheduler that keeps a queue. The round-robin one counts the selections since it has rescheduled. -/
inductive QueueScheduler
  | rr (queue : List Nat) (count : Nat)
  | fifs (queue : List Nat)
  | preemptive (queue : List Nat)
  deriving DecidableEq

namespace QueueScheduler

def queue : QueueScheduler → List Nat
  | rr queue _ | fifs queue | preemptive queue => queue

/-- `MAXINST` -/
def maxInst : Nat := 100

def reSchedule : QueueScheduler → Option QueueScheduler
  | rr [] _ => none
  | rr (thread :: rest) _ => some (rr (rest ++ [thread]) 0)
  | fifs queue => (ThreadScheduler.fifs.reSchedule queue).map fifs
  | preemptive queue => (ThreadScheduler.preemptive.reSchedule queue).map preemptive

/-- The selected thread. The front or the back of an empty queue is not defined. -/
def selectNextItem : QueueScheduler → Option (Nat × QueueScheduler)
  | rr queue count =>
    if count > maxInst then
      (rr queue count).reSchedule.bind fun s => s.queue.head?.map fun thread => (thread, rr s.queue 1)
    else queue.head?.map fun thread => (thread, rr queue (count + 1))
  | fifs queue => (ThreadScheduler.fifs.selectNextItem queue).map fun thread => (thread, fifs queue)
  | preemptive queue => (ThreadScheduler.preemptive.selectNextItem queue).map fun thread => (thread, preemptive queue)

/-- `reSchedule` and `selectNextItem` in turn, `n` times: the threads that are selected. -/
def turns : Nat → QueueScheduler → Option (List Nat)
  | 0, _ => some []
  | n + 1, s => s.reSchedule.bind fun s => s.selectNextItem.bind fun next => (turns n next.2).map (next.1 :: ·)

end QueueScheduler

end CapTaint
