import CapTaint.Event

/-! # Traces

The tables that one run of the program under test fills. `std::map` is `Std.TreeMap`, in key order; a
thread without events, a `NULL` entry of the source's `eventList`, has no entry. Initial values are kept
as the set of their variables, since the encoder only asks whether a variable has one. -/

namespace CapTaint
open Std

structure LockPair where
  threadId : Nat
  mutex : String
  lockEvent : Event
  unlockEvent : Option Event
  deriving Repr, DecidableEq

/-- `Wait_Lock`: a wait and the lock operation that its wait function ends with. -/
structure WaitLock where
  wait : Event
  lockByWait : Event
  deriving Repr, DecidableEq

structure Trace where
  nextEventId : Nat := 0
  eventList : TreeMap Nat (List Event) := ∅
  /-- The events in the order of execution, virtual ones left out. -/
  path : List Event := []
  createThreadPoint : List (Event × Nat) := []
  joinThreadPoint : List (Event × Nat) := []
  readSet : TreeMap String (List Event) := ∅
  writeSet : TreeMap String (List Event) := ∅
  allLockUnlock : TreeMap String (List LockPair) := ∅
  allWait : TreeMap String (List WaitLock) := ∅
  allSignal : TreeMap String (List Event) := ∅
  allBarrier : TreeMap String (List Event) := ∅
  globalVariableInitializer : TreeSet String := ∅
  /-- The accesses before the filter. -/
  allReadSet : TreeMap String (List Event) := ∅
  allWriteSet : TreeMap String (List Event) := ∅
  /-- The parts of the three tables that the filter keeps for the solver. -/
  usefulReadSet : TreeMap String (List Event) := ∅
  usefulWriteSet : TreeMap String (List Event) := ∅
  usefulGlobalVariableInitializer : TreeSet String := ∅

/-- `push_back` into the list of a key, which is created when it is missing. -/
def pushAt {κ α : Type} [Ord κ] (table : TreeMap κ (List α)) (key : κ) (item : α) : TreeMap κ (List α) :=
  table.insert key (table.getD key [] ++ [item])

namespace Trace

def insertEvent (trace : Trace) (event : Event) (threadId : Nat) : Trace :=
  { trace with eventList := pushAt trace.eventList threadId event }

def insertPath (trace : Trace) (event : Event) : Trace := { trace with path := trace.path ++ [event] }

/-- The source's two maps are keyed by the event, which is fresh at each insertion. -/
def insertThreadCreateOrJoin (trace : Trace) (item : Event × Nat) (isThreadCreate : Bool) : Trace :=
  if isThreadCreate then { trace with createThreadPoint := trace.createThreadPoint ++ [item] }
  else { trace with joinThreadPoint := trace.joinThreadPoint ++ [item] }

def insertReadSet (trace : Trace) (name : String) (item : Event) : Trace :=
  { trace with readSet := pushAt trace.readSet name item }

def insertWriteSet (trace : Trace) (name : String) (item : Event) : Trace :=
  { trace with writeSet := pushAt trace.writeSet name item }

def insertWait (trace : Trace) (condName : String) (wait associatedLock : Event) : Trace :=
  { trace with allWait := pushAt trace.allWait condName { wait := wait, lockByWait := associatedLock } }

def insertSignal (trace : Trace) (condName : String) (event : Event) : Trace :=
  { trace with allSignal := pushAt trace.allSignal condName event }

def insertBarrierOperation (trace : Trace) (name : String) (event : Event) : Trace :=
  { trace with allBarrier := pushAt trace.allBarrier name event }

/-- The unlock event goes to the newest pair of the thread, unless that pair has one. -/
def setUnlock (threadId : Nat) (event : Event) : List LockPair → List LockPair
  | [] => []
  | lp :: rest =>
    if rest.any (·.threadId == threadId) then lp :: setUnlock threadId event rest
    else if lp.threadId == threadId && lp.unlockEvent.isNone then { lp with unlockEvent := some event } :: rest
    else lp :: rest

/-- `Trace::insertLockOrUnlock`. An unlock of a mutex without pairs is dropped; an unlock by a thread that
    has no pair of the mutex dereferences a null pointer in the source and changes nothing here. -/
def insertLockOrUnlock (trace : Trace) (threadId : Nat) (mutex : String) (event : Event) (isLock : Bool) : Trace :=
  { trace with
    allLockUnlock :=
      if isLock then
        pushAt trace.allLockUnlock mutex { threadId := threadId, mutex := mutex, lockEvent := event, unlockEvent := none }
      else
        match trace.allLockUnlock[mutex]? with
        | none => trace.allLockUnlock
        | some pairs => trace.allLockUnlock.insert mutex (setUnlock threadId event pairs) }

def insertGlobalVariableInitializer (trace : Trace) (name : String) : Trace :=
  { trace with globalVariableInitializer := trace.globalVariableInitializer.insert name }

/-- The events of a thread; `[]` for a thread that recorded none. -/
def thread (trace : Trace) (threadId : Nat) : List Event := trace.eventList.getD threadId []

/-- The thread lists of `eventList` that are not `NULL`, in the order of thread ids. -/
def threads (trace : Trace) : List (List Event) := trace.eventList.toList.map (·.2)

end Trace
end CapTaint
