import CapTaint.DTAM
import CapTaint.Encode.Order
import CapTaint.Lib.Smt

/-! # Queries

`Encode::check_if` asks the solver for each branch whether it can go the other way, and `Encode::PTS` for each access that
may be tainted whether it can be. Both go back to the assertions before the query, unless z3 throws. -/

namespace CapTaint
open Std Smt

namespace Encode

/-- The constraints of a query over the formulas `φ` that branches are translated to. -/
inductive Constraint (φ : Type)
  | bool (b : Bool)
  | formula (f : φ)
  | not (f : φ)
  /-- `implies(tempIf < currIf, f)` for two event names. -/
  | impliesBefore (tempIf currIf : String) (f : φ)
  /-- The Boolean constant is true. -/
  | isTrue (name : String)
  deriving DecidableEq

/-- What comes back from `check`; with a model when the query is satisfiable. -/
inductive CheckResult (V : Type)
  | sat (m : Assignment V)
  | unsat
  | unknown
  | exception

/-- What the queries read of a trace and of the formulas that `buildifAndassert` has collected. -/
structure Branches (φ : Type) where
  trace : Trace
  filtered : DealWithSymbolicExpr.Filtered
  ifFormula : List (Event × φ)
  rwFormula : List (Event × φ)
  rwSymbolicExpr : List EqExpr

section
variable {φ V : Type}

/-- The constraint that the formula of the event `temp.1` gives for a query about `curr`: in the same thread it holds when
    it comes first, in another thread under the condition that it does. -/
def constraintFor (trace : Trace) (curr : Event) (temp : Event × φ) : Constraint φ :=
  if curr.threadId = temp.1.threadId then
    if curr.eventId > temp.1.eventId then .formula temp.2 else .bool true
  else .impliesBefore (trace.eventName temp.1) (trace.eventName curr) temp.2

namespace Branches

/-- `trace->brRelatedSymbolicExpr[i]`. -/
def relatedSymbolicExpr (b : Branches φ) (i : Nat) : TreeSet String := b.filtered.brRelatedSymbolicExpr.getD i ∅

/-- Whether the branch is worth a query. -/
def branch (b : Branches φ) (i : Nat) : Bool := DealWithSymbolicExpr.filterUselessWithSet b.filtered (b.relatedSymbolicExpr i)

/-- The values that shared reads had in the run, for the variables that the branch does not depend on. -/
def rwConstraints (b : Branches φ) (i : Nat) (curr : Event) : List (Constraint φ) :=
  let RelatedSymbolicExpr :=
    DealWithSymbolicExpr.relatedClosure b.filtered.varRelatedSymbolicExpr (b.relatedSymbolicExpr i)
  ((b.rwFormula.zip b.rwSymbolicExpr).filter fun item => getVarName item.2.right ∉ RelatedSymbolicExpr).map
    fun item => constraintFor b.trace curr item.1

/-- What the query of branch `i` adds. -/
def constraints (b : Branches φ) (i : Nat) (curr : Event × φ) : List (Constraint φ) :=
  b.rwConstraints i curr.1 ++ [.not curr.2] ++
    (b.ifFormula.zipIdx.filter (·.2 ≠ i)).map fun item => constraintFor b.trace curr.1 item.1

end Branches

/-! ## Branches -/

structure CheckIf (φ : Type) where
  solver : Solver (Constraint φ)
  /-- The events of the prefixes that were added to the schedule set. -/
  scheduleSet : List (List Event) := []
  /-- The assertions of each query that was made, with the number of its branch. -/
  queries : List (Nat × List (Constraint φ)) := []
  /-- An assertion of `computePrefix` has failed. -/
  aborted : Bool := false

/-- One round of the loop of `Encode::check_if`. -/
def checkBranch (b : Branches φ) (outcome : CheckResult V) (s : CheckIf φ) (i : Nat) (curr : Event × φ) : CheckIf φ :=
  if s.aborted then s
  else
    let solver := s.solver.push
    if b.branch i then
      let solver := solver.addAll (b.constraints i curr)
      let s := { s with queries := s.queries ++ [(i, solver.assertions)] }
      match outcome with
      -- `continue`: the backtracking point stays
      | .exception => { s with solver := solver }
      | .sat m =>
        match computePrefix b.trace m curr.1 with
        | none => { s with solver := solver, aborted := true }
        | some vecEvent => { s with solver := solver.pop, scheduleSet := s.scheduleSet ++ [vecEvent] }
      | .unsat | .unknown => { s with solver := solver.pop }
    else { s with solver := solver.pop }

/-- `Encode::check_if`; `outcomes i` is what the query of branch `i` comes back with. -/
def checkIf (b : Branches φ) (outcomes : Nat → CheckResult V) (solver : Solver (Constraint φ)) : CheckIf φ :=
  b.ifFormula.zipIdx.foldl (fun s item => checkBranch b (outcomes item.2) s item.2 item.1) { solver := solver }

end

end Encode

/-! ## Accesses that may be tainted -/

/-- `Trace::getEvent`, which fails when the name has no mark or when no access has it. -/
def TaintTables.getEvent (t : TaintTables) (name : String) : Option Event :=
  match name.toList.find? fun c => c = 'S' ∨ c = 'L' with
  | none => none
  | some mark =>
    let all := if mark = 'S' then t.allWriteSet else t.allReadSet
    (all[beforeMark name]?).bind fun events => (events.find? (·.name = name)).map (·.event)

namespace Encode

/-- What `Encode::PTS` reads of a trace, and the branches. -/
structure PTSInput (φ : Type) where
  trace : Trace
  tables : TaintTables
  DTAMParallel : TreeSet String
  ifFormula : List (Event × φ)

/-- The accesses that only the parallel analysis taints. -/
def PTSInput.candidates {φ : Type} (d : PTSInput φ) : List String :=
  d.DTAMParallel.toList.filter (· ∉ d.tables.DTAMSerial)

/-- The names that `DTAM` has put into the sets are names of accesses. -/
structure PTSTrace (φ : Type) extends PTSInput φ where
  found : ∀ name ∈ toPTSInput.candidates, (tables.getEvent name).isSome

structure PTSState (φ : Type) where
  solver : Solver (Constraint φ)
  /-- The vector from the iterator on; what comes before it has been erased. -/
  PTS : List String
  taintPTS : List String := []
  noTaintPTS : List String := []

inductive PTSResult (φ : Type)
  | running
  | aborted
  | ended (s : PTSState φ)

section
variable {φ V : Type}

/-- What the query of an access adds. -/
def PTSInput.constraints (d : PTSInput φ) (name : String) (curr : Event) : List (Constraint φ) :=
  .isTrue (name ++ "_tag") :: d.ifFormula.map (constraintFor d.trace curr)

/-- At most `fuel` rounds of the loop of `Encode::PTS`; `outcomes k` is what the query number `k` comes back with. -/
def ptsLoop (d : PTSInput φ) (outcomes : Nat → CheckResult V) : Nat → Nat → PTSState φ → PTSResult φ
  | 0, _, _ => .running
  | fuel + 1, k, s =>
    match s.PTS with
    | [] => .ended s
    | name :: rest =>
      match d.tables.getEvent name with
      | none => .aborted
      | some curr =>
        let solver := s.solver.push.addAll (d.constraints name curr)
        match outcomes k with
        -- `continue`: neither the vector nor the solver goes back
        | .exception => ptsLoop d outcomes fuel (k + 1) { s with solver := solver }
        | .sat _ =>
          ptsLoop d outcomes fuel (k + 1)
            { s with solver := solver.pop, PTS := rest, taintPTS := s.taintPTS ++ [name] }
        | .unsat | .unknown =>
          ptsLoop d outcomes fuel (k + 1)
            { s with solver := solver.pop, PTS := rest, noTaintPTS := s.noTaintPTS ++ [name] }

/-- `Encode::PTS` behind `buildPTSFormula`. -/
def pts (d : PTSInput φ) (outcomes : Nat → CheckResult V) (solver : Solver (Constraint φ)) (fuel : Nat) : PTSResult φ :=
  ptsLoop d outcomes fuel 0 { solver := solver, PTS := d.candidates }

end

end Encode
end CapTaint
