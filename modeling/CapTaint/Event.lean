import Mathlib

/-! # Instructions and events

An instruction is what the listeners read of it: the opcode, the locations it touches and, for a call,
the called function with its evaluated arguments. An event is the record of one executed instruction.
Two attributes of the source's events are not fields here, because they change after the event is
shared between the tables of a trace: the event name, which the encoder clusters, and the latest write. -/

namespace CapTaint

/-- A resolved address: the id of its memory object, the address, and `Executor::isGlobalMO`. -/
structure Location where
  memoryId : Nat
  address : Nat
  isGlobal : Bool
  deriving Repr, DecidableEq

/-- The called functions that the listeners and the executor tell apart. -/
inductive Function
  | pthreadCreate (thread : Location)
  | pthreadJoin (threadId : Nat)
  | pthreadCondWait (cond mutex : Location)
  | pthreadCondSignal (cond : Location)
  | pthreadCondBroadcast (cond : Location)
  | pthreadMutexLock (mutex : Location)
  | pthreadMutexUnlock (mutex : Location)
  | pthreadBarrierInit (barrier count : Nat)
  | pthreadBarrierWait (barrier : Nat)
  | makeTaint (loc : Location)
  /-- `strcpy` into `dest`, which stores `length` bytes. -/
  | strcpy (dest : Location) (length : Nat)
  /-- `getrlimit`, `lstat` and `time`, which fill the primitive fields `fields` of a buffer. -/
  | fillBuffer (name : String) (fields : List Location)
  | other (name : String)
  deriving Repr, DecidableEq

def Function.name : Function → String
  | .pthreadCreate _ => "pthread_create"
  | .pthreadJoin _ => "pthread_join"
  | .pthreadCondWait _ _ => "pthread_cond_wait"
  | .pthreadCondSignal _ => "pthread_cond_signal"
  | .pthreadCondBroadcast _ => "pthread_cond_broadcast"
  | .pthreadMutexLock _ => "pthread_mutex_lock"
  | .pthreadMutexUnlock _ => "pthread_mutex_unlock"
  | .pthreadBarrierInit _ _ => "pthread_barrier_init"
  | .pthreadBarrierWait _ => "pthread_barrier_wait"
  | .makeTaint _ => "make_taint"
  | .strcpy _ _ => "strcpy"
  | .fillBuffer name _ => name
  | .other name => name

inductive Inst
  | load (loc : Location) (isPointerTy : Bool)
  | store (loc : Location) (isPointerTy : Bool)
  | call (f : Function)
  /-- A conditional branch and the value of its condition. -/
  | br (condition : Bool)
  | getElementPtr
  | switch
  /-- A return; `outermost` when the stack of the thread holds one frame. -/
  | ret (outermost : Bool)
  | other
  deriving Repr, DecidableEq, Inhabited

/-- An instruction with its place: `ignored` when it belongs to or calls a function that KLEE linked in, or
    loads `stdout` or `stderr`. -/
structure KInstruction where
  inst : Inst
  ignored : Bool := false
  deriving Repr, DecidableEq

/-- `NORMAL`, `IGNORE` and `VIRTUAL` events; a virtual event has no instruction of its own. -/
inductive EventType
  | normal | ignore | virtual
  deriving Repr, DecidableEq, Inhabited

structure Event where
  threadId : Nat
  eventId : Nat
  inst : Inst
  eventType : EventType
  varName : String := ""
  globalVarFullName : String := ""
  isGlobal : Bool := false
  isLocal : Bool := false
  isConditionIns : Bool := false
  condition : Bool := false
  implicitGlobalVar : List String := []
  mutexName : String := ""
  condName : String := ""
  deriving Repr, DecidableEq, Inhabited

/-- The name that `Trace::createEvent` gives the event with number `eventId`. -/
def createdName (eventId : Nat) : String := "E" ++ toString eventId

/-! ## Names of shared accesses -/

def createVarName (loc : Location) : String :=
  (if loc.isGlobal then "G" else "L") ++ toString loc.memoryId ++ "_" ++ toString loc.address

def createGlobalVarFullName (varName : String) (time : Nat) (isStore : Bool) : String :=
  varName ++ (if isStore then "S" else "L") ++ toString time

def createBarrierName (address releasedCount : Nat) : String :=
  toString address ++ "#" ++ toString releasedCount

/-! ## Classes of operations -/

/-- `InstType` of the encoder. -/
inductive InstType
  | normalOp | globalVarOp | threadOp
  deriving Repr, DecidableEq

def Inst.calledFunction : Inst → Option Function
  | .call f => some f
  | _ => none

/-- `Encode::getInstOpType`. -/
def Event.instOpType (event : Event) : InstType :=
  if event.isGlobal then .globalVarOp
  else
    match event.inst.calledFunction with
    | none => .normalOp
    | some f => if "pthread".toList.isPrefixOf f.name.toList then .threadOp else .normalOp

end CapTaint
