import CapTaint.Event

/-! # Mutexes, conditions and barriers at run time

The pools of the source are keyed by the decimal address, the ones here by the address itself. A manager function that
reports an error returns `none`: the executor asserts on it. -/

namespace CapTaint
open Std

/-! ## Mutexes -/

structure Mutex where
  isLocked : Bool := false
  lockedThreadId : Nat := 0
  deriving Repr, DecidableEq

structure MutexManager where
  mutexPool : TreeMap Nat Mutex := ∅
  /-- The mutex that a blocked thread waits for. -/
  blockedThreadPool : TreeMap Nat Nat := ∅

namespace MutexManager

/-- A redefinition is refused. -/
def addMutex (m : MutexManager) (mutex : Nat) : MutexManager :=
  { m with mutexPool := m.mutexPool.insertIfNew mutex {} }

/-- `true` when the thread is blocked. -/
def lock (m : MutexManager) (mutex threadId : Nat) : Option (Bool × MutexManager) :=
  match m.mutexPool[mutex]? with
  | none => none
  | some state =>
    if state.isLocked then
      some (true, { m with blockedThreadPool := m.blockedThreadPool.insertIfNew threadId mutex })
    else
      some (false,
        { mutexPool := m.mutexPool.insert mutex { isLocked := true, lockedThreadId := threadId }
          blockedThreadPool := m.blockedThreadPool.erase threadId })

/-- An unlock of a mutex that is not locked is only warned about. -/
def unlock (m : MutexManager) (mutex : Nat) : Option MutexManager :=
  match m.mutexPool[mutex]? with
  | none => none
  | some state => some (if state.isLocked then { m with mutexPool := m.mutexPool.insert mutex {} } else m)

def addBlockedThread (m : MutexManager) (threadId mutex : Nat) : Option MutexManager :=
  if mutex ∈ m.mutexPool then some { m with blockedThreadPool := m.blockedThreadPool.insertIfNew threadId mutex }
  else none

def tryToLockForBlockedThread (m : MutexManager) (threadId : Nat) : Option (Bool × MutexManager) :=
  match m.blockedThreadPool[threadId]? with
  | none => none
  | some mutex => m.lock mutex threadId

end MutexManager

/-! ## Conditions -/

structure WaitParam where
  mutex : Nat
  threadId : Nat
  deriving Repr, DecidableEq

structure CondManager where
  condPool : TreeMap Nat (List WaitParam) := ∅

namespace CondManager

def addCondition (c : CondManager) (cond : Nat) : CondManager := { condPool := c.condPool.insertIfNew cond [] }

/-- The thread joins the waiting list and gives up the mutex, which it has to own. -/
def wait (c : CondManager) (m : MutexManager) (cond mutex threadId : Nat) : Option (CondManager × MutexManager) := do
  let state ← m.mutexPool[mutex]?
  let waitingList ← c.condPool[cond]?
  if state.lockedThreadId = threadId then
    let m ← m.unlock mutex
    some ({ condPool := c.condPool.insert cond (waitingList ++ [{ mutex := mutex, threadId := threadId }]) }, m)
  else none

/-- The released thread, if one waits. Which one depends on the scheduler of the condition: `waiter` is its place in
    the waiting list, the first one for the scheduler that follows no prefix. -/
def signal (c : CondManager) (m : MutexManager) (cond waiter : Nat) :
    Option (Option Nat × CondManager × MutexManager) := do
  let waitingList ← c.condPool[cond]?
  if waitingList = [] then some (none, c, m)
  else
    let wp ← waitingList[waiter]?
    let m ← m.addBlockedThread wp.threadId wp.mutex
    some (some wp.threadId, { condPool := c.condPool.insert cond (waitingList.eraseIdx waiter) }, m)

/-- The released threads. -/
def broadcast (c : CondManager) (m : MutexManager) (cond : Nat) : Option (List Nat × CondManager × MutexManager) := do
  let waitingList ← c.condPool[cond]?
  let m ← waitingList.foldlM (fun m wp => m.addBlockedThread wp.threadId wp.mutex) m
  some (waitingList.map (·.threadId), { condPool := c.condPool.insert cond [] }, m)

end CondManager

/-! ## Barriers -/

structure Barrier where
  count : Nat := 0x7fffffff
  current : Nat := 0
  blockedList : List Nat := []
  deriving Repr, DecidableEq

structure BarrierManager where
  barrierPool : TreeMap Nat Barrier := ∅

namespace BarrierManager

def addBarrier (b : BarrierManager) (barrier : Nat) : BarrierManager :=
  { barrierPool := b.barrierPool.insertIfNew barrier {} }

def init (b : BarrierManager) (barrier count : Nat) : Option BarrierManager :=
  match b.barrierPool[barrier]? with
  | none => none
  | some state => some { barrierPool := b.barrierPool.insert barrier { state with count := count } }

/-- The threads of the generation when the caller completes it, else `none`; the outer `none` for a barrier that is
    not known, which the executor lets pass: its assertion there is a string and always holds. -/
def wait (b : BarrierManager) (barrier threadId : Nat) : Option (Option (List Nat) × BarrierManager) :=
  match b.barrierPool[barrier]? with
  | none => none
  | some state =>
    let state := { state with current := state.current + 1, blockedList := state.blockedList ++ [threadId] }
    if state.current = state.count then
      some (some state.blockedList,
        { barrierPool := b.barrierPool.insert barrier { state with current := 0, blockedList := [] } })
    else some (none, { barrierPool := b.barrierPool.insert barrier state })

end BarrierManager

/-! ### Schedulers of conditions

The schedulers choose which thread a signal releases. The guided one follows what is left of the prefix, and asks a base
scheduler, which has the waiting list, otherwise. -/

/-- The classes of base schedulers. -/
inductive CondScheduler
  | fifs
  | preemptive
  deriving DecidableEq

namespace CondScheduler

/-- `selectNextItem`, with the queue that is left. The front or the back of an empty queue is not defined. -/
def selectNextItem : CondScheduler → List WaitParam → Option (WaitParam × List WaitParam)
  | fifs, queue => queue.head?.map fun item => (item, queue.tail)
  | preemptive, queue => queue.getLast?.map fun item => (item, queue.dropLast)

/-- `removeItem` by the number of a thread, the same for both classes. -/
def removeItem (threadId : Nat) : List WaitParam → Option WaitParam × List WaitParam
  | [] => (none, [])
  | item :: queue =>
    if item.threadId = threadId then (some item, queue)
    else
      let removed := removeItem threadId queue
      (removed.1, item :: removed.2)

end CondScheduler

namespace GuidedCondScheduler

/-- The loop over the events that are left. A run of events of one thread is looked at once. -/
def scan : Nat → List Event → List WaitParam → Option WaitParam × List WaitParam
  | _, [], queue => (none, queue)
  | lastThreadId, event :: events, queue =>
    if event.threadId = lastThreadId then scan lastThreadId events queue
    else
      let removed := CondScheduler.removeItem event.threadId queue
      if removed.1.isSome then removed else scan event.threadId events removed.2

/-- `selectNextItem`: the waiter, or a null pointer, and the queue that is left. -/
def selectNextItem (baseScheduler : CondScheduler) (remaining : List Event) (queue : List WaitParam) :
    Option (Option WaitParam × List WaitParam) :=
  if remaining.isEmpty then (baseScheduler.selectNextItem queue).map fun item => (some item.1, item.2)
  else
    let result := scan 0 remaining queue
    if result.1.isNone ∧ result.2 ≠ [] then (baseScheduler.selectNextItem result.2).map fun item => (some item.1, item.2)
    else some result

end GuidedCondScheduler

/-- `Condition::signal` under a guided scheduler. -/
def Condition.signal (baseScheduler : CondScheduler) (remaining : List Event) (queue : List WaitParam) :
    Option (Option WaitParam × List WaitParam) :=
  if queue = [] then some (none, queue) else GuidedCondScheduler.selectNextItem baseScheduler remaining queue

end CapTaint
