import CapTaint.Encode.Order

/-! # Read-from constraints

Each useful read equals one of the writes it may see, or the initial value. The candidates are the writes of
the other threads, in the order of execution, and the latest write of the read's own thread. -/

namespace CapTaint
open Std Smt

namespace Encode

/-- The variable of a full store name: what stands before its first `S`. -/
def beforeStoreMark (name : String) : String := String.ofList (name.toList.takeWhile (· ≠ 'S'))

/-- `Encode::markLatestWriteForGlobalVar` on one thread: `latestWriteOneThread` is the newest write of each
    variable so far, `latestWrite` the attribute of the reads, by event number. -/
def markThread : List Event → TreeMap String Event → (Nat → Option Event) → (Nat → Option Event)
  | [], _, latestWrite => latestWrite
  | event :: rest, latestWriteOneThread, latestWrite =>
    if event.isGlobal then
      match event.inst with
      | .store _ _ => markThread rest (latestWriteOneThread.insert event.varName event) latestWrite
      | .call _ =>
        if event.implicitGlobalVar ≠ [] then
          markThread rest
            (event.implicitGlobalVar.foldl (fun table name => table.insert (beforeStoreMark name) event)
              latestWriteOneThread) latestWrite
        else
          markThread rest latestWriteOneThread
            (Function.update latestWrite event.eventId latestWriteOneThread[event.varName]?)
      | _ =>
        markThread rest latestWriteOneThread
          (Function.update latestWrite event.eventId latestWriteOneThread[event.varName]?)
    else markThread rest latestWriteOneThread latestWrite

def markLatestWriteForGlobalVar (trace : Trace) : Nat → Option Event :=
  trace.threads.foldl (fun latestWrite thread => markThread thread ∅ latestWrite) fun _ => none

end Encode

/-- The attribute `latestWrite` of an event, as `markLatestWriteForGlobalVar` sets it. -/
def Trace.latestWrite (trace : Trace) (event : Event) : Option Event :=
  Encode.markLatestWriteForGlobalVar trace event.eventId

namespace Encode

/-- The symbol of the value that `write` gives to `var`: for a call, the first of its names that starts with
    the name of the variable. -/
def writeVarName (write : Event) (var : String) : String :=
  if write.globalVarFullName = "" ∧ write.implicitGlobalVar ≠ [] then
    (write.implicitGlobalVar.find? fun name => var.toList.isPrefixOf name.toList).getD ""
  else write.globalVarFullName

def readFromWriteFormula (read write : Event) (var : String) : Formula :=
  .same read.globalVarFullName (writeVarName write var)

def initName (var : String) : String := var ++ "_Init"

/-- No formula when the variable has no initializer. -/
def readFromInitFormula (trace : Trace) (read : Event) : Option Formula :=
  if read.varName ∈ trace.usefulGlobalVariableInitializer then
    some (.same read.globalVarFullName (initName read.varName))
  else none

def enumerateOrder (trace : Trace) (read write anotherWrite : Event) : Formula :=
  .or (.lt (order trace anotherWrite) (order trace write)) (.lt (order trace read) (order trace anotherWrite))

/-- The writes that `read` may see. -/
def mayBeRead (trace : Trace) (var : String) (read : Event) : List Event :=
  (trace.usefulWriteSet.getD var []).filter (·.threadId ≠ read.threadId) ++ (trace.latestWrite read).toList

/-- The read takes the initial value, before every write it may see. -/
def readFromInit (trace : Trace) (var : String) (read : Event) : List Formula :=
  if trace.latestWrite read = none then
    match readFromInitFormula trace read with
    | none => []
    | some equal =>
      [makeExprsAnd (equal :: (mayBeRead trace var read).map fun w => .lt (order trace read) (order trace w))]
  else []

/-- The read takes the value of the candidate number `i`. The next candidate bounds the read from above when
    it is of the same thread; candidates of other threads are not between the two. -/
def readFromWrite (trace : Trace) (var : String) (read : Event) (i : Nat) (write : Event) : Formula :=
  let candidates := mayBeRead trace var read
  let rw : Formula := .lt (order trace write) (order trace read)
  let rw : Formula :=
    match candidates[i + 1]? with
    | some next => if next.threadId = write.threadId then .and rw (.lt (order trace read) (order trace next)) else rw
    | none => rw
  let others := candidates.zipIdx.filter fun item => ¬(item.2 = i ∨ item.1.threadId = write.threadId)
  makeExprsAnd (readFromWriteFormula read write var :: rw :: others.map fun item => enumerateOrder trace read write item.1)

/-- The disjuncts of one read. -/
def oneVarAllRead (trace : Trace) (var : String) (read : Event) : List Formula :=
  readFromInit trace var read ++
  (mayBeRead trace var read).mapIdx fun i write => readFromWrite trace var read i write

def buildReadWriteFormula (trace : Trace) : List Formula :=
  trace.usefulReadSet.toList.flatMap fun entry =>
    entry.2.map fun read => makeExprsOr (oneVarAllRead trace entry.1 read)

end Encode
end CapTaint
