import CapTaint.Trace

/-! # The recording listener

`PSOListener` writes one event for each instruction before it is executed, and a second, virtual one for
the lock that ends a condition wait. Its effects after the instruction (`handleExternalFunction`) only
complete the event that it has just written, so they are part of the same step here. -/

namespace CapTaint
open Std

/-- The listener's own count of the arrivals at a barrier. -/
structure BarrierInfo where
  count : Nat := 0x7fffffff
  current : Nat := 0
  releasedCount : Nat := 0
  deriving Repr, DecidableEq

namespace BarrierInfo

/-- One more arrival; `true` when it is the last one of the generation. -/
def addWaitItem (info : BarrierInfo) : Bool × BarrierInfo :=
  (info.current + 1 == info.count, { info with current := info.current + 1 })

def addReleaseItem (info : BarrierInfo) : BarrierInfo :=
  { info with current := 0, releasedCount := info.releasedCount + 1 }

end BarrierInfo

structure PSOListener where
  trace : Trace := {}
  loadRecord : TreeMap Nat Nat := ∅
  storeRecord : TreeMap Nat Nat := ∅
  barrierRecord : TreeMap Nat BarrierInfo := ∅
  lastEvent : Option Event := none

namespace PSOListener

/-- The number of this load of the address, from 1, and the listener that has counted it. -/
def getLoadTime (l : PSOListener) (address : Nat) : Nat × PSOListener :=
  let loadTime := l.loadRecord.getD address 0 + 1
  (loadTime, { l with loadRecord := l.loadRecord.insert address loadTime })

def getStoreTime (l : PSOListener) (address : Nat) : Nat × PSOListener :=
  let storeTime := l.storeRecord.getD address 0 + 1
  (storeTime, { l with storeRecord := l.storeRecord.insert address storeTime })

def getStoreTimeForTaint (l : PSOListener) (address : Nat) : Nat := l.storeRecord.getD address 0

/-- `Trace::createEvent`. -/
def createEvent (l : PSOListener) (threadId : Nat) (inst : Inst) (eventType : EventType) : Event × PSOListener :=
  ({ threadId := threadId, eventId := l.trace.nextEventId, inst := inst, eventType := eventType },
    { l with trace := { l.trace with nextEventId := l.trace.nextEventId + 1 } })

/-- `insertEvent`, `insertPath` and `lastEvent` at the end of `executeInstruction`. -/
def insertItem (l : PSOListener) (item : Event) (backVirtualEvents : List Event) : PSOListener :=
  let trace := l.trace.insertEvent item item.threadId
  let trace := backVirtualEvents.foldl (fun trace event => trace.insertEvent event item.threadId) trace
  { l with trace := trace.insertPath item, lastEvent := some item }

/-- The event names its location; a global one is counted and gets a full name. -/
def nameAccess (l : PSOListener) (item : Event) (loc : Location) (isStore : Bool) : Event × PSOListener :=
  let varName := createVarName loc
  if loc.isGlobal then
    let (time, l) := if isStore then l.getStoreTime loc.address else l.getLoadTime loc.address
    ({ item with
        isGlobal := true, varName := varName, globalVarFullName := createGlobalVarFullName varName time isStore }, l)
  else ({ item with isLocal := true, varName := varName }, l)

/-- The locations that a call writes through its arguments, each with its full name, or with its plain name
    when it is local. Global ones count as stores, local ones only when `countLocal`. -/
def nameWrites (l : PSOListener) (countLocal : Bool) : List Location → List (Location × String) × PSOListener
  | [] => ([], l)
  | loc :: rest =>
    let varName := createVarName loc
    if loc.isGlobal then
      let (storeTime, l) := l.getStoreTime loc.address
      let (names, l) := nameWrites l countLocal rest
      ((loc, createGlobalVarFullName varName storeTime true) :: names, l)
    else
      let l := if countLocal then (l.getStoreTime loc.address).2 else l
      let (names, l) := nameWrites l countLocal rest
      ((loc, varName) :: names, l)

/-- The write set entries of a call that wrote `names`. -/
def insertImplicitWrites (l : PSOListener) (item : Event) (names : List (Location × String)) : PSOListener :=
  { l with
    trace := names.foldl
      (fun trace entry =>
        if entry.1.isGlobal then trace.insertWriteSet (createVarName entry.1) item else trace) l.trace }

/-- The bytes that `strcpy` stores one after the other. -/
def copiedBytes (dest : Location) (length : Nat) : List Location :=
  (List.range length).map fun i => { dest with address := dest.address + i }

/-- `createThread` and `instructionExecuted` see the event that was written last. -/
def createThread (l : PSOListener) (newThreadId : Nat) : PSOListener :=
  match l.lastEvent with
  | none => l
  | some event => { l with trace := l.trace.insertThreadCreateOrJoin (event, newThreadId) true }

/-- The listener's work on a call: the completed event, its virtual events and the updated tables. -/
def executeCall (l : PSOListener) (item : Event) (f : Function) : Event × List Event × PSOListener :=
  match f with
  | .pthreadCreate thread =>
    let (item, l) := l.nameAccess item thread false
    (item, [], l)
  | .pthreadJoin joinedThreadId =>
    (item, [], { l with trace := l.trace.insertThreadCreateOrJoin (item, joinedThreadId) false })
  | .pthreadCondWait cond mutex =>
    let mutexName := createVarName mutex
    let condName := createVarName cond
    let (lock, l) := l.createEvent item.threadId item.inst .virtual
    let item := { item with mutexName := mutexName, condName := condName }
    let trace := l.trace.insertLockOrUnlock item.threadId mutexName item false
    let trace := trace.insertLockOrUnlock item.threadId mutexName lock true
    (item, [lock], { l with trace := trace.insertWait condName item lock })
  | .pthreadCondSignal cond | .pthreadCondBroadcast cond =>
    let condName := createVarName cond
    let item := { item with condName := condName }
    (item, [], { l with trace := l.trace.insertSignal condName item })
  | .pthreadMutexLock mutex =>
    let mutexName := createVarName mutex
    let item := { item with mutexName := mutexName }
    (item, [], { l with trace := l.trace.insertLockOrUnlock item.threadId mutexName item true })
  | .pthreadMutexUnlock mutex =>
    let mutexName := createVarName mutex
    let item := { item with mutexName := mutexName }
    (item, [], { l with trace := l.trace.insertLockOrUnlock item.threadId mutexName item false })
  | .pthreadBarrierWait barrier =>
    let info := l.barrierRecord.getD barrier {}
    let trace := l.trace.insertBarrierOperation (createBarrierName barrier info.releasedCount) item
    let (isReleased, info) := info.addWaitItem
    let info := if isReleased then info.addReleaseItem else info
    (item, [], { l with trace := trace, barrierRecord := l.barrierRecord.insert barrier info })
  | .pthreadBarrierInit barrier count =>
    let info := l.barrierRecord.getD barrier {}
    (item, [], { l with barrierRecord := l.barrierRecord.insert barrier { info with count := count } })
  | .makeTaint loc =>
    let varName := createVarName loc
    if loc.isGlobal then
      let storeTime := l.getStoreTimeForTaint loc.address
      let fullName := if storeTime = 0 then varName ++ "_Init_tag" else createGlobalVarFullName varName storeTime true
      ({ item with isGlobal := true, varName := varName, globalVarFullName := fullName }, [], l)
    else ({ item with isLocal := true, varName := varName }, [], l)
  | .strcpy dest length =>
    let (names, l) := l.nameWrites false (copiedBytes dest length)
    let item := { item with isGlobal := dest.isGlobal && 0 < length, implicitGlobalVar := names.map (·.2) }
    (item, [], l.insertImplicitWrites item names)
  | .fillBuffer _ fields =>
    -- `analyzeInputValue` fills the write set but, unlike `strcpy`, leaves `isGlobal` as it is.
    let (names, l) := l.nameWrites true fields
    let item := { item with implicitGlobalVar := names.map (·.2) }
    (item, [], l.insertImplicitWrites item names)
  | .other _ => (item, [], l)

/-- The `switch` over the opcodes: the completed event, its virtual events and the updated tables. -/
def executeOpcode (l : PSOListener) (item : Event) (inst : Inst) : Event × List Event × PSOListener :=
  match inst with
  | .load loc isPointerTy =>
    let (item, l) := l.nameAccess item loc false
    (item, [],
      if !isPointerTy && item.isGlobal then { l with trace := l.trace.insertReadSet item.varName item } else l)
  | .store loc isPointerTy =>
    let (item, l) := l.nameAccess item loc true
    (item, [],
      if !isPointerTy && item.isGlobal then { l with trace := l.trace.insertWriteSet item.varName item } else l)
  | .call f => l.executeCall item f
  | .br condition => ({ item with isConditionIns := true, condition := condition }, [], l)
  | .getElementPtr | .switch => ({ item with isConditionIns := true, condition := true }, [], l)
  | .ret _ | .other => (item, [], l)

/-- `PSOListener::executeInstruction`, with what `instructionExecuted` adds. -/
def executeInstruction (l : PSOListener) (threadId : Nat) (ki : KInstruction) : PSOListener :=
  let (item, l) := l.createEvent threadId ki.inst (if ki.ignored then .ignore else .normal)
  let (item, backVirtualEvents, l) := l.executeOpcode item ki.inst
  l.insertItem item backVirtualEvents

/-- The listener after a run that started with the initializers `inits`: the executed instructions in order,
    each with its thread, and for a `pthread_create` the id of the new thread. -/
def record (inits : List String) (steps : List (Nat × KInstruction × Option Nat)) : PSOListener :=
  steps.foldl
    (fun l step =>
      let l := l.executeInstruction step.1 step.2.1
      match step.2.2 with
      | none => l
      | some newThreadId => l.createThread newThreadId)
    { trace := inits.foldl Trace.insertGlobalVariableInitializer {} }

end PSOListener
end CapTaint
