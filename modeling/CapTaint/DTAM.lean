import CapTaint.DealWithSymbolicExpr
import CapTaint.Lib.Worklist

/-! # Dynamic taint

`DTAM` links the shared reads and writes of a trace to a graph and follows the taint along its edges: first along all
of them, then along those that the vector clocks leave. A pointer to a point is the number of the point. -/

namespace CapTaint
open Std Worklist

/-- An event of the read or the write set with what `TaintListener` has written into it. -/
structure TaintEvent where
  event : Event
  vectorClock : List Nat
  relatedSymbolicExpr : List Expr
  deriving DecidableEq

/-- The name of the point of the event. -/
def TaintEvent.name (e : TaintEvent) : String := e.event.globalVarFullName

/-- What `DTAM` reads of a trace. -/
structure TaintTables where
  allReadSet : TreeMap String (List TaintEvent)
  allWriteSet : TreeMap String (List TaintEvent)
  DTAMSerial : TreeSet String

def TaintTables.reads (t : TaintTables) : List TaintEvent := t.allReadSet.toList.flatMap (·.2)

def TaintTables.writes (t : TaintTables) : List TaintEvent := t.allWriteSet.toList.flatMap (·.2)

/-- A trace that `TaintListener` has replayed. Full names are unique but for the writes of library calls, which have
    none and no clock either; a stored value is built from the symbols of loads. -/
structure TaintTrace extends TaintTables where
  read_unique : ∀ r ∈ toTaintTables.reads, ∀ r' ∈ toTaintTables.reads, r.name = r'.name → r = r'
  write_unique : ∀ w ∈ toTaintTables.writes, ∀ w' ∈ toTaintTables.writes, w.name = w'.name →
    w = w' ∨ w.vectorClock = []
  clock_length : ∀ w ∈ toTaintTables.writes, ∀ r ∈ toTaintTables.reads, w.vectorClock.length ≤ r.vectorClock.length
  related_read : ∀ w ∈ toTaintTables.writes, ∀ value ∈ w.relatedSymbolicExpr, ∃ r ∈ toTaintTables.reads,
    getFullName value = some r.name

structure DTAMPoint where
  name : String
  vectorClock : List Nat
  affectingVariable : List Nat := []
  affectedVariable : List Nat := []
  deriving Inhabited

/-- `DTAMPoint::isBefore` on the clocks of two points. -/
def isBefore (vectorClock other : List Nat) : Bool :=
  let pairs := vectorClock.zip other
  let after := pairs.countP fun c => c.1 > c.2
  let before := pairs.countP fun c => c.1 < c.2
  !(before == 0 && after > 0)

structure DTAM where
  points : List DTAMPoint := []
  allRead : TreeMap String Nat := ∅
  allWrite : TreeMap String Nat := ∅
  /-- The points with `isTaint`. -/
  isTaint : List Nat := []

namespace DTAM

def point (d : DTAM) (id : Nat) : DTAMPoint := d.points.getD id default

def modify (d : DTAM) (id : Nat) (f : DTAMPoint → DTAMPoint) : DTAM := { d with points := d.points.modify id f }

/-- Two entries for one edge: `target` is affected by `source`. -/
def addEdge (d : DTAM) (source target : Nat) : DTAM :=
  let d := d.modify source fun p => { p with affectingVariable := p.affectingVariable ++ [target] }
  d.modify target fun p => { p with affectedVariable := p.affectedVariable ++ [source] }

/-! ## The graph -/

def addRead (d : DTAM) (e : TaintEvent) : DTAM :=
  { d with
    points := d.points ++ [{ name := e.name, vectorClock := e.vectorClock }]
    allRead := d.allRead.insert e.name d.points.length }

/-- The point of a read by its full name; `none` where the source follows the null pointer of a missing entry. -/
def readOf (d : DTAM) (value : Expr) : Option Nat := (getFullName value).bind fun name => d.allRead[name]?

/-- The point of a write, with an edge from each read that its value depends on and an edge to each read of its
    variable. -/
def addWrite (allReadSet : TreeMap String (List TaintEvent)) (d : DTAM) (e : TaintEvent) : Option DTAM := do
  let related ← e.relatedSymbolicExpr.mapM d.readOf
  let reads ← (allReadSet.getD e.event.varName []).mapM fun r => d.allRead[r.name]?
  let point := d.points.length
  let d : DTAM := { d with points := d.points ++ [{ name := e.name, vectorClock := e.vectorClock }] }
  let d := related.foldl (fun d read => d.addEdge read point) d
  let d := reads.foldl (fun d read => d.addEdge point read) d
  some { d with allWrite := d.allWrite.insert e.name point }

/-- `DTAM::DTAMParallel`. -/
def dtamParallel (t : TaintTables) : Option DTAM :=
  t.writes.foldlM (addWrite t.allReadSet) (t.reads.foldl addRead {})

/-- The inner loop of `DTAMhybrid` over the reads that the write `w` affects. Where a read is dropped and affects `w`
    itself, the source erases a position of one vector from another one, which C++ leaves undefined: `none`. -/
def pruneReads (d : DTAM) (w : Nat) : List Nat → Option (List Nat)
  | [] => some []
  | r :: rest =>
    if isBefore (d.point w).vectorClock (d.point r).vectorClock then (r :: ·) <$> pruneReads d w rest
    else if w ∈ (d.point r).affectingVariable then none
    else pruneReads d w rest

def pruneWrite (d : DTAM) (w : Nat) : Option DTAM := do
  let kept ← d.pruneReads w (d.point w).affectingVariable
  some (d.modify w fun p => { p with affectingVariable := kept })

/-- `DTAM::DTAMhybrid`. -/
def dtamHybrid (d : DTAM) : Option DTAM := (d.allWrite.toList.map (·.2)).foldlM pruneWrite d

/-! ## The taint -/

/-- The points of `allWrite` and then those of `allRead`. -/
def allPoints (d : DTAM) : List Nat := d.allWrite.toList.map (·.2) ++ d.allRead.toList.map (·.2)

/-- A point named in `DTAMSerial` is tainted and left to visit, another one is untainted. -/
def initPoint (d : DTAM) (DTAMSerial : TreeSet String) (s : Search Nat) (id : Nat) : Search Nat :=
  if (d.point id).name ∈ DTAMSerial then { marked := id :: s.marked, stack := id :: s.stack }
  else { s with marked := s.marked.filter (· ≠ id) }

/-- `DTAM::initTaint`; a point is pushed at most once for each time it stands in a list. -/
def initTaint (d : DTAM) (DTAMSerial : TreeSet String) : DTAM :=
  let remainPoint := d.allPoints.foldl (d.initPoint DTAMSerial) { marked := d.isTaint, stack := [] }
  let fuel := d.allPoints.length + (d.points.flatMap DTAMPoint.affectingVariable).length
  { d with isTaint := (remainPoint.run (fun id => (d.point id).affectingVariable) fuel).marked }

/-- `DTAM::getTaint`. -/
def getTaint (d : DTAM) (taint : TreeSet String) : TreeSet String :=
  (d.allPoints.filter (· ∈ d.isTaint)).foldl (fun taint id => taint.insert (d.point id).name) taint

/-- The two sets that `DTAM::dtam` adds to the trace. -/
structure Taints where
  DTAMParallel : TreeSet String
  DTAMhybrid : TreeSet String

/-- `DTAM::dtam`. -/
def dtam (t : TaintTables) : Option Taints := do
  let d ← dtamParallel t
  let d := d.initTaint t.DTAMSerial
  let parallel := d.getTaint ∅
  let d ← d.dtamHybrid
  let d := d.initTaint t.DTAMSerial
  some { DTAMParallel := parallel, DTAMhybrid := d.getTaint ∅ }

end DTAM
end CapTaint
