import CapTaint.Encode.Order

/-! # Synchronization constraints

Lock pairs of one mutex exclude each other, waits are matched with signals by 0/1 variables, and the waits of
one barrier generation share their position. -/

namespace CapTaint
open Std Smt

namespace Encode

/-! ## Locks -/

/-- The constraint of a pair with an unlock and a later pair of the list, none within one thread. -/
def twinLockPairOrder (trace : Trace) (one : LockPair) (oneUnlock : Event) (two : LockPair) : List Formula :=
  if one.threadId = two.threadId then []
  else
    match two.unlockEvent with
    | none => [.lt (order trace oneUnlock) (order trace two.lockEvent)]
    | some twoUnlock =>
      [.or (.lt (order trace oneUnlock) (order trace two.lockEvent))
        (.lt (order trace twoUnlock) (order trace one.lockEvent))]

/-- The double loop over the pairs of a mutex. A pair without an unlock is skipped as the first of the two. -/
def lockOrders (trace : Trace) : List LockPair → List Formula
  | [] => []
  | one :: rest =>
    (match one.unlockEvent with
      | none => []
      | some oneUnlock => rest.flatMap (twinLockPairOrder trace one oneUnlock)) ++
    lockOrders trace rest

def lockFormula (trace : Trace) : List Formula :=
  trace.allLockUnlock.toList.flatMap fun entry => lockOrders trace entry.2

/-! ## Waits and signals -/

/-- The name of the variable `m_w_s`. -/
def mapName (trace : Trace) (cond : String) (wait signal : Event) : String :=
  cond ++ "_" ++ trace.eventName wait ++ "_" ++ trace.eventName signal

def mapWaitSignal (trace : Trace) (cond : String) (wait signal : Event) : Term :=
  .const (mapName trace cond wait signal)

/-- The signals that may wake `wl`: those of other threads. -/
def otherSignals (wl : WaitLock) (signalSet : List Event) : List Event :=
  signalSet.filter (·.threadId ≠ wl.wait.threadId)

/-- One of the signals of other threads falls between the wait and its lock and is mapped to the wait; each of
    their variables is 0 or 1. -/
def possibleMap (trace : Trace) (cond : String) (signalSet : List Event) (wl : WaitLock) : List Formula :=
  let signals := otherSignals wl signalSet
  [makeExprsOr (signals.map fun signal =>
      .and (.and (.lt (order trace wl.wait) (order trace signal)) (.lt (order trace signal) (order trace wl.lockByWait)))
        (.eq (mapWaitSignal trace cond wl.wait signal) (.val 1))),
    makeExprsAnd (signals.map fun signal =>
      .and (.le (.val 0) (mapWaitSignal trace cond wl.wait signal))
        (.le (mapWaitSignal trace cond wl.wait signal) (.val 1)))]

/-- A signal serves at most one wait. -/
def sumOfSignal (trace : Trace) (cond : String) (waitSet : List WaitLock) (signal : Event) : Option Formula :=
  (makeExprsSum (waitSet.map fun wl => mapWaitSignal trace cond wl.wait signal)).map fun sum => .le sum (.val 1)

/-- A wait is served by at least one signal. -/
def sumOfWait (trace : Trace) (cond : String) (signalSet : List Event) (wl : WaitLock) : Option Formula :=
  (makeExprsSum (signalSet.map fun signal => mapWaitSignal trace cond wl.wait signal)).map fun sum => .le (.val 1) sum

/-- No wait is served by its own thread. -/
def wipeOff (trace : Trace) (cond : String) (signalSet : List Event) (wl : WaitLock) : List Formula :=
  (signalSet.filter (·.threadId = wl.wait.threadId)).map fun signal =>
    .eq (mapWaitSignal trace cond wl.wait signal) (.val 0)

/-- The constraints of one condition that was waited for. The source asserts that it was also signalled. -/
def waitSignalOf (trace : Trace) (cond : String) (waitSet : List WaitLock) : Option (List Formula) := do
  let signalSet ← trace.allSignal[cond]?
  let perSignal ← signalSet.mapM (sumOfSignal trace cond waitSet)
  let perWait ← waitSet.mapM (sumOfWait trace cond signalSet)
  return waitSet.flatMap (possibleMap trace cond signalSet) ++ perSignal ++ perWait ++
    waitSet.flatMap (wipeOff trace cond signalSet)

/-- The source's four loops, grouped by condition: each loop visits the conditions that have both waits and
    signals. -/
def waitSignalFormula (trace : Trace) : Option (List Formula) := do
  let parts ← trace.allWait.toList.mapM fun entry => waitSignalOf trace entry.1 entry.2
  return parts.flatten

/-! ## Barriers -/

/-- Neighbours of one generation are equal; the source asserts that they are of different threads. -/
def barrierOrders (trace : Trace) : List Event → Option (List Formula)
  | one :: two :: rest =>
    if one.threadId = two.threadId then none
    else do
      let orders ← barrierOrders trace (two :: rest)
      return .eq (order trace one) (order trace two) :: orders
  | _ => some []

def barrierFormula (trace : Trace) : Option (List Formula) := do
  let parts ← trace.allBarrier.toList.mapM fun entry => barrierOrders trace entry.2
  return parts.flatten

def buildSynchronizeFormula (trace : Trace) : Option (List Formula) := do
  let waitSignal ← waitSignalFormula trace
  let barrier ← barrierFormula trace
  return lockFormula trace ++ waitSignal ++ barrier

end Encode
end CapTaint
