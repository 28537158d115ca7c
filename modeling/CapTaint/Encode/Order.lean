import CapTaint.PSOListener
import CapTaint.Lib.Smt
import CapTaint.Lib.BubbleSort

/-! # Order constraints

The integer constant of an event name is the position of the event in a solver's schedule. Names are
clustered first: a run of normal operations shares the name of its first event with the global access or
thread operation that ends it. -/

namespace CapTaint
open Std Smt

namespace Encode

def makeExprsAnd : List Formula → Formula
  | [] => .bool true
  | f :: fs => fs.foldl .and f

def makeExprsOr : List Formula → Formula
  | [] => .bool true
  | f :: fs => fs.foldl .or f

/-- The source asserts that there is a summand. -/
def makeExprsSum : List Term → Option Term
  | [] => none
  | t :: ts => some (ts.foldl .add t)

section
variable {V : Type} {σ : Assignment V}

@[simp] theorem holds_makeExprsAnd {fs : List Formula} : (makeExprsAnd fs).Holds σ ↔ ∀ f ∈ fs, f.Holds σ := by
  cases fs with
  | nil => simp [makeExprsAnd]
  | cons f fs => simp [makeExprsAnd, holds_foldl_and]

/-- An empty disjunction is true here. -/
@[simp] theorem holds_makeExprsOr {fs : List Formula} : (makeExprsOr fs).Holds σ ↔ fs = [] ∨ ∃ f ∈ fs, f.Holds σ := by
  cases fs with
  | nil => simp [makeExprsOr]
  | cons f fs => simp [makeExprsOr, holds_foldl_or]

theorem makeExprsSum_eval {ts : List Term} {sum : Term} (h : makeExprsSum ts = some sum) :
    sum.eval σ = (ts.map (·.eval σ)).sum := by
  cases ts with
  | nil => cases h
  | cons t ts =>
    obtain rfl : ts.foldl .add t = sum := Option.some.inj h
    simp [eval_foldl_add]

theorem exists_makeExprsSum {ts : List Term} (h : ts ≠ []) : ∃ sum, makeExprsSum ts = some sum := by
  cases ts with
  | nil => exact absurd rfl h
  | cons t ts => exact ⟨_, rfl⟩

end

/-- The block level of `Encode::controlGranularity` on the events behind `pre`; `names` holds the current
    name of each event number. -/
def clusterNames (preInstType : InstType) (preEventName : String) :
    List Event → (Nat → String) → (Nat → String)
  | [], names => names
  | curr :: rest, names =>
    if preInstType = .normalOp then
      clusterNames curr.instOpType preEventName rest (Function.update names curr.eventId preEventName)
    else clusterNames curr.instOpType (names curr.eventId) rest names

def clusterThread (names : Nat → String) (thread : List Event) : Nat → String :=
  match thread with
  | [] => names
  | pre :: rest => clusterNames pre.instOpType (names pre.eventId) rest names

/-- `Encode::controlGranularity` at the only level it is called with. -/
def controlGranularity (trace : Trace) (names : Nat → String) : Nat → String :=
  trace.threads.foldl clusterThread names

end Encode

/-- The event names after `buildMemoryModelFormula` has clustered them. -/
def Trace.eventName (trace : Trace) (event : Event) : String :=
  Encode.controlGranularity trace createdName event.eventId

namespace Encode

/-- `z3_ctx.int_const` of an event. -/
def order (trace : Trace) (event : Event) : Term := .const (trace.eventName event)

/-- `E_INIT` before the first event and the last event before `E_FINAL`. -/
def initialAndFinal (trace : Trace) (thread : List Event) : List Formula :=
  match thread.head?, thread.getLast? with
  | some first, some last =>
    [.lt (.const "E_INIT") (order trace first), .lt (order trace last) (.const "E_FINAL")]
  | _, _ => []

/-- The neighbouring events of a thread with different names. -/
def nameSteps (trace : Trace) (thread : List Event) : List (Event × Event) :=
  (thread.zip thread.tail).filter fun pair => trace.eventName pair.1 ≠ trace.eventName pair.2

def uniqueEvent (trace : Trace) : Nat := 1 + (trace.threads.flatMap (nameSteps trace)).length

def buildMemoryModelFormula (trace : Trace) : List Formula :=
  [.eq (.const "E_INIT") (.val 0)] ++
  trace.threads.flatMap (initialAndFinal trace) ++
  (trace.threads.flatMap (nameSteps trace)).map (fun pair => .lt (order trace pair.1) (order trace pair.2)) ++
  [.eq (.const "E_FINAL") (.add (.val (uniqueEvent trace)) (.val 100))]

/-- The names that `buildMemoryModelFormula` enters into `eventNameInZ3`. -/
def eventNameInZ3 (trace : Trace) : List String :=
  (trace.threads.flatMap (nameSteps trace)).flatMap fun pair => [trace.eventName pair.1, trace.eventName pair.2]

/-- A created thread starts behind its creation. The source reads the first event of the created thread
    without a check; without events it has no result here. -/
def createOrder (trace : Trace) (item : Event × Nat) : Option Formula :=
  (trace.thread item.2).head?.map fun firstStep => .lt (order trace item.1) (order trace firstStep)

def joinOrder (trace : Trace) (item : Event × Nat) : Option Formula :=
  (trace.thread item.2).getLast?.map fun lastStep => .lt (order trace lastStep) (order trace item.1)

def buildPartialOrderFormula (trace : Trace) : Option (List Formula) := do
  let created ← trace.createThreadPoint.mapM (createOrder trace)
  let joined ← trace.joinThreadPoint.mapM (joinOrder trace)
  return created ++ joined

/-! ### Prefixes

`Encode::computePrefix` turns a model of the solver into the schedule that leads to the negated branch. -/

variable {V : Type}

/-- `m.eval` of the name of an event. -/
def modelOrder (trace : Trace) (m : Assignment V) (event : Event) : Int := m.int (trace.eventName event)

/-- An event is kept unless it is virtual or cut off behind the branch. -/
def keepEvent (trace : Trace) (m : Assignment V) (ifEvent event : Event) : Bool :=
  let order := modelOrder trace m event
  let ifEventOrder := modelOrder trace m ifEvent
  !(event.eventType = .virtual) &&
  !(order > ifEventOrder) &&
  !(order = ifEventOrder && event.threadId ≠ ifEvent.threadId) &&
  !(trace.eventName event = trace.eventName ifEvent && event.eventId > ifEvent.eventId)

/-- `Encode::computePrefix`. No result when an assertion on `eventNameInZ3` fails, or when no event is kept
    and the bound `size - 1` of the sort wraps around. -/
def computePrefix (trace : Trace) (m : Assignment V) (ifEvent : Event) : Option (List Event) :=
  let events := trace.threads.flatten
  if trace.eventName ifEvent ∈ eventNameInZ3 trace ∧
      ∀ event ∈ events, event.eventType ≠ .virtual → trace.eventName event ∈ eventNameInZ3 trace then
    match events.filter (keepEvent trace m ifEvent) with
    | [] => none
    | kept => some (BubbleSort.bubbleSort (modelOrder trace m) kept)
  else none

end Encode
end CapTaint
