import CapTaint.Managers

/-! # The executor's threads

The part of `Executor::run` and of `Executor::executeInstruction` that creates, blocks, wakes and ends threads, with
the vector clocks it keeps for the taint analysis. A failed assertion and an index past the end of a clock are
`none`. -/

namespace CapTaint
open Std

inductive ThreadState
  | runnable | mutexBlocked | condBlocked | barrierBlocked | joinBlocked | terminated
  deriving Repr, DecidableEq, Inhabited

structure Thread where
  threadState : ThreadState := .runnable
  vectorClock : Vector Nat 5 := Vector.replicate 5 0
  deriving Repr, DecidableEq, Inhabited

/-- The loop that raises each component to that of another clock. -/
def Thread.merge (thread : Thread) (clock : Vector Nat 5) : Thread :=
  { thread with vectorClock := Vector.zipWith max thread.vectorClock clock }

/-! ## Execution states -/

structure ExecutionState where
  threadList : TreeMap Nat Thread := ∅
  /-- The queue of the thread scheduler. -/
  queue : List Nat := []
  nextThreadId : Nat := 1

namespace ExecutionState

def findThreadById (s : ExecutionState) (threadId : Nat) : Option Thread := s.threadList[threadId]?

def stateOf (s : ExecutionState) (threadId : Nat) : Option ThreadState :=
  (s.findThreadById threadId).map (·.threadState)

def modify (s : ExecutionState) (threadId : Nat) (f : Thread → Thread) : ExecutionState :=
  { s with threadList := s.threadList.modify threadId f }

/-- `thread->vectorClock[thread->threadId]++`. -/
def tick (s : ExecutionState) (threadId : Nat) : Option ExecutionState :=
  if h : threadId < 5 ∧ threadId ∈ s.threadList then
    some (s.modify threadId fun thread =>
      { thread with vectorClock := thread.vectorClock.set threadId (thread.vectorClock[threadId] + 1) })
  else none

/-- The next id, or the one that a replayed run gives; at most five ids are handed out. -/
def nextId (s : ExecutionState) (replayed : Option Nat) : Option (Nat × ExecutionState) :=
  let threadId := replayed.getD s.nextThreadId
  let nextThreadId := if threadId ≥ s.nextThreadId then threadId + 1 else s.nextThreadId
  if nextThreadId ≤ 6 then some (threadId, { s with nextThreadId := nextThreadId }) else none

def createThread (s : ExecutionState) (replayed : Option Nat) : Option (Nat × ExecutionState) := do
  let (threadId, s) ← s.nextId replayed
  if threadId ∈ s.threadList then none
  else some (threadId, { s with threadList := s.threadList.insert threadId {}, queue := s.queue ++ [threadId] })

/-- `swapOutThread`, to the state that its one true flag stands for. -/
def swapOutThread (s : ExecutionState) (threadId : Nat) (threadState : ThreadState) : ExecutionState :=
  { s.modify threadId fun thread => { thread with threadState := threadState } with queue := s.queue.erase threadId }

def swapInThread (s : ExecutionState) (threadId : Nat) (threadState : ThreadState) : ExecutionState :=
  { s.modify threadId fun thread => { thread with threadState := threadState } with queue := s.queue ++ [threadId] }

/-- The thread that the FIFO scheduler selects. -/
def getNextThread (s : ExecutionState) : Option Nat := s.queue.head?

/-- `reSchedule` of the FIFO scheduler: the first thread goes to the end. -/
def reSchedule (s : ExecutionState) : ExecutionState := { s with queue := s.queue.drop 1 ++ s.queue.take 1 }

/-- `swapInThread` and the merge of the clock of `current` into that of the woken thread. -/
def wake (s : ExecutionState) (current threadId : Nat) (threadState : ThreadState) : Option ExecutionState := do
  let thread ← s.findThreadById current
  let _ ← s.findThreadById threadId
  some ((s.swapInThread threadId threadState).modify threadId fun woken => woken.merge thread.vectorClock)

/-- A waiter that a signal releases; the signalling thread counts each of them. -/
def wakeWaiter (current : Nat) (s : ExecutionState) (threadId : Nat) : Option ExecutionState := do
  let s ← s.wake current threadId .mutexBlocked
  s.tick current

end ExecutionState

/-! ## The executor -/

structure Executor where
  state : ExecutionState
  mutexManager : MutexManager := {}
  condManager : CondManager := {}
  barrierManager : BarrierManager := {}
  /-- The threads that wait for the end of a thread. -/
  joinRecord : TreeMap Nat (List Nat) := ∅

/-- What is not determined by the instruction: the id that a prefix gives a new thread and the waiter that the
    scheduler of a condition picks. -/
structure Choice where
  replayed : Option Nat := none
  waiter : Nat := 0

/-- What an instruction did to other threads, and whether it blocked its own. -/
structure Outcome where
  created : Option Nat := none
  released : List Nat := []
  blocked : Bool := false
  deriving DecidableEq

namespace Executor

/-- A run begins with the main thread. -/
def start : Executor :=
  { state := { threadList := (∅ : TreeMap Nat Thread).insert 1 {}, queue := [1], nextThreadId := 2 } }

/-- A selected thread that is blocked on a mutex runs only if it gets the mutex now. The attempts that fail change
    nothing, so the loop that reschedules is not part of the step. -/
def schedule (e : Executor) (threadId : Nat) : Option Executor :=
  match e.state.stateOf threadId with
  | some .runnable => some e
  | some .mutexBlocked =>
    match e.mutexManager.tryToLockForBlockedThread threadId with
    | some (false, m) =>
      some { e with
        mutexManager := m
        state := e.state.modify threadId fun thread => { thread with threadState := .runnable } }
    | _ => none
  | _ => none

def executePThreadCreate (e : Executor) (threadId : Nat) (replayed : Option Nat) : Option (Outcome × Executor) := do
  let thread ← e.state.findThreadById threadId
  let (newThreadId, state) ← e.state.createThread replayed
  let state := state.modify newThreadId fun new => { new with vectorClock := thread.vectorClock }
  let state ← state.tick newThreadId
  some ({ created := some newThreadId }, { e with state := state })

def executePThreadJoin (e : Executor) (threadId joinThreadId : Nat) : Option (Outcome × Executor) := do
  let joinThread ← e.state.findThreadById joinThreadId
  if joinThread.threadState = .terminated then some ({}, e)
  else
    some ({ blocked := true },
      { e with
        joinRecord := e.joinRecord.insert joinThreadId (e.joinRecord.getD joinThreadId [] ++ [threadId])
        state := e.state.swapOutThread threadId .joinBlocked })

def executePThreadCondWait (e : Executor) (threadId cond mutex : Nat) : Option (Outcome × Executor) := do
  let (condManager, mutexManager) ← e.condManager.wait e.mutexManager cond mutex threadId
  some ({ blocked := true },
    { e with
      condManager := condManager, mutexManager := mutexManager
      state := e.state.swapOutThread threadId .condBlocked })

def executePThreadCondSignal (e : Executor) (threadId cond waiter : Nat) : Option (Outcome × Executor) := do
  let (releasedThreadId, condManager, mutexManager) ← e.condManager.signal e.mutexManager cond waiter
  let released := releasedThreadId.toList
  let state ← released.foldlM (ExecutionState.wakeWaiter threadId) e.state
  some ({ released := released },
    { e with condManager := condManager, mutexManager := mutexManager, state := state })

def executePThreadCondBroadcast (e : Executor) (threadId cond : Nat) : Option (Outcome × Executor) := do
  let (released, condManager, mutexManager) ← e.condManager.broadcast e.mutexManager cond
  let state ← released.foldlM (ExecutionState.wakeWaiter threadId) e.state
  some ({ released := released },
    { e with condManager := condManager, mutexManager := mutexManager, state := state })

def executePThreadMutexLock (e : Executor) (threadId mutex : Nat) : Option (Outcome × Executor) := do
  let (isBlocked, mutexManager) ← e.mutexManager.lock mutex threadId
  let state :=
    if isBlocked then e.state.modify threadId fun thread => { thread with threadState := .mutexBlocked } else e.state
  some ({ blocked := isBlocked }, { e with mutexManager := mutexManager, state := state })

def executePThreadMutexUnlock (e : Executor) (mutex : Nat) : Option (Outcome × Executor) := do
  let mutexManager ← e.mutexManager.unlock mutex
  some ({}, { e with mutexManager := mutexManager })

def executePThreadBarrierInit (e : Executor) (barrier count : Nat) : Option (Outcome × Executor) := do
  let barrierManager ← e.barrierManager.init barrier count
  some ({}, { e with barrierManager := barrierManager })

def executePThreadBarrierWait (e : Executor) (threadId barrier : Nat) : Outcome × Executor :=
  match e.barrierManager.wait barrier threadId with
  | none => ({}, e)
  | some (none, barrierManager) =>
    ({ blocked := true },
      { e with barrierManager := barrierManager, state := e.state.swapOutThread threadId .barrierBlocked })
  | some (some blockedList, barrierManager) =>
    let released := blockedList.filter (· ≠ threadId)
    ({ released := released },
      { e with
        barrierManager := barrierManager
        state := released.foldl (fun state id => state.swapInThread id .runnable) e.state })

/-- The return from the outermost frame: the threads that joined this one go on, with its clock. -/
def executeExit (e : Executor) (threadId : Nat) : Option (Outcome × Executor) := do
  let joined := e.joinRecord.getD threadId []
  let state ← joined.foldlM (fun state id => state.wake threadId id .runnable) e.state
  some ({ released := joined }, { e with state := state.swapOutThread threadId .terminated })

/-- `Executor::executeInstruction`, as far as it concerns threads. -/
def executeInstruction (e : Executor) (threadId : Nat) (inst : Inst) (choice : Choice) : Option (Outcome × Executor) :=
  match inst with
  | .call (.pthreadCreate _) => e.executePThreadCreate threadId choice.replayed
  | .call (.pthreadJoin joinThreadId) => e.executePThreadJoin threadId joinThreadId
  | .call (.pthreadCondWait cond mutex) => e.executePThreadCondWait threadId cond.address mutex.address
  | .call (.pthreadCondSignal cond) => e.executePThreadCondSignal threadId cond.address choice.waiter
  | .call (.pthreadCondBroadcast cond) => e.executePThreadCondBroadcast threadId cond.address
  | .call (.pthreadMutexLock mutex) => e.executePThreadMutexLock threadId mutex.address
  | .call (.pthreadMutexUnlock mutex) => e.executePThreadMutexUnlock mutex.address
  | .call (.pthreadBarrierInit barrier count) => e.executePThreadBarrierInit barrier count
  | .call (.pthreadBarrierWait barrier) => some (e.executePThreadBarrierWait threadId barrier)
  | .ret true => e.executeExit threadId
  | _ => some ({}, e)

/-- One round of `Executor::run` for a thread that can be scheduled. -/
def step (e : Executor) (threadId : Nat) (inst : Inst) (choice : Choice) : Option (Outcome × Executor) := do
  let e ← e.schedule threadId
  e.executeInstruction threadId inst choice

/-- A synchronisation object that `createSpecialElement` finds in the type of an allocated or a global object. -/
inductive SpecialElement
  | mutex (address : Nat)
  | cond (address : Nat)
  | barrier (address : Nat)

def createSpecialElement (e : Executor) : SpecialElement → Executor
  | .mutex address => { e with mutexManager := e.mutexManager.addMutex address }
  | .cond address => { e with condManager := e.condManager.addCondition address }
  | .barrier address => { e with barrierManager := e.barrierManager.addBarrier address }

def reSchedule (e : Executor) : Executor := { e with state := e.state.reSchedule }

/-! ### The loop for a selected thread that is blocked -/

/-- How one pass through the body of the loop ends: with the test of the thread, or with a `break` after which the run
    fails. -/
inductive Attempt
  | test (e : Executor) (threadId : Nat)
  | unable (e : Executor) (threadId : Nat)

/-- The body of the loop; `replaying` when a prefix is not finished, `origin` is the thread that was selected first. -/
def attempt (replaying : Bool) (origin : Nat) (e : Executor) (threadId : Nat) : Option Attempt := do
  -- declared in the body: what the test below sets is lost
  let deadlock := false
  let (isBlocked, mutexManager) ← e.mutexManager.tryToLockForBlockedThread threadId
  let e := { e with mutexManager := mutexManager }
  if isBlocked then
    if replaying then some (.unable e threadId)
    else
      let e := e.reSchedule
      let next ← e.state.getNextThread
      if next = origin ∧ deadlock then some (.unable e next) else some (.test e next)
  else
    let state := e.state.modify threadId fun thread => { thread with threadState := .runnable }
    some (.test { e with state := state } threadId)

inductive LoopResult
  | running
  | aborted
  | ended (isAbleToRun : Bool) (e : Executor) (threadId : Nat)

/-- At most `fuel` passes through the loop. -/
def retryLoop (replaying : Bool) (origin : Nat) : Nat → Executor → Nat → LoopResult
  | 0, _, _ => .running
  | fuel + 1, e, threadId =>
    match e.attempt replaying origin threadId with
    | none => .aborted
    | some (.unable e threadId) => .ended false e threadId
    | some (.test e threadId) =>
      if e.state.stateOf threadId = some .runnable then .ended true e threadId else retryLoop replaying origin fuel e threadId

/-- The mutex that a blocked thread tries to lock when it is selected. -/
def wanted (e : Executor) (threadId : Nat) : Option Nat :=
  if e.state.stateOf threadId = some .mutexBlocked then e.mutexManager.blockedThreadPool[threadId]? else none

end Executor

/-! ## Runs -/

/-- One executed instruction: its thread, what it did, and the mutex that the thread got when it was scheduled. -/
structure ExecStep where
  threadId : Nat
  inst : Inst
  outcome : Outcome
  relocked : Option Nat

/-- The runs of the executor whose steps meet `C`: the steps so far and the executor after them. Any thread that can run
    may be scheduled, so these are the runs of every scheduler, with and without a prefix. -/
inductive ExecutorRun (C : List ExecStep → Executor → Nat → Inst → Prop) : List ExecStep → Executor → Prop
  | start : ExecutorRun C [] Executor.start
  | createSpecialElement {steps : List ExecStep} {e : Executor} (element : Executor.SpecialElement) :
      ExecutorRun C steps e → ExecutorRun C steps (e.createSpecialElement element)
  | reSchedule {steps : List ExecStep} {e : Executor} : ExecutorRun C steps e → ExecutorRun C steps e.reSchedule
  | step {steps : List ExecStep} {e e' : Executor} {threadId : Nat} {inst : Inst} {choice : Choice} {o : Outcome} :
      ExecutorRun C steps e → C steps e threadId inst → e.step threadId inst choice = some (o, e') →
      ExecutorRun C (steps ++ [{ threadId := threadId, inst := inst, outcome := o, relocked := e.wanted threadId }]) e'

/-- One step of a run whose steps meet `C`, with the first choices. -/
def Executor.runStep (C : List ExecStep → Executor → Nat → Inst → Prop)
    [∀ steps e threadId inst, Decidable (C steps e threadId inst)] (current : List ExecStep × Executor)
    (entry : Nat × Inst) : Option (List ExecStep × Executor) := do
  let (steps, e) := current
  let (threadId, inst) := entry
  if C steps e threadId inst then
    let (o, e') ← e.step threadId inst {}
    some (steps ++ [{ threadId := threadId, inst := inst, outcome := o, relocked := e.wanted threadId }], e')
  else none

/-- The run of the instructions `script`, each with its thread, after the objects `elements` were found. -/
def Executor.run (C : List ExecStep → Executor → Nat → Inst → Prop)
    [∀ steps e threadId inst, Decidable (C steps e threadId inst)] (elements : List Executor.SpecialElement)
    (script : List (Nat × Inst)) : Option (List ExecStep × Executor) :=
  script.foldlM (Executor.runStep C) ([], elements.foldl Executor.createSpecialElement Executor.start)

section
variable {C : List ExecStep → Executor → Nat → Inst → Prop} {steps : List ExecStep} {e : Executor}

theorem ExecutorRun.createSpecialElements (h : ExecutorRun C steps e) (elements : List Executor.SpecialElement) :
    ExecutorRun C steps (elements.foldl Executor.createSpecialElement e) := by
  induction elements generalizing e with
  | nil => exact h
  | cons element elements ih => exact ih (.createSpecialElement element h)

variable [∀ steps e threadId inst, Decidable (C steps e threadId inst)]

theorem ExecutorRun.runSteps {script : List (Nat × Inst)} {before : List ExecStep} {e₀ : Executor}
    (h₀ : ExecutorRun C before e₀) (h : script.foldlM (Executor.runStep C) (before, e₀) = some (steps, e)) :
    ExecutorRun C steps e := by
  induction script generalizing before e₀ with
  | nil =>
    obtain ⟨rfl, rfl⟩ := Prod.mk.inj (Option.some.inj h)
    exact h₀
  | cons entry script ih =>
    rw [List.foldlM_cons] at h
    obtain ⟨⟨steps', e₁⟩, hone, hrest⟩ := Option.bind_eq_some_iff.mp h
    simp only [Executor.runStep] at hone
    split at hone
    swap
    · cases hone
    next hC =>
    obtain ⟨⟨o, e₂⟩, hstep, hone⟩ := Option.bind_eq_some_iff.mp hone
    obtain ⟨rfl, rfl⟩ := Prod.mk.inj (Option.some.inj hone)
    exact ih (.step h₀ hC hstep) hrest

theorem Executor.run_executorRun {elements : List Executor.SpecialElement} {script : List (Nat × Inst)}
    (h : Executor.run C elements script = some (steps, e)) : ExecutorRun C steps e :=
  (ExecutorRun.start.createSpecialElements elements).runSteps h

end

end CapTaint
