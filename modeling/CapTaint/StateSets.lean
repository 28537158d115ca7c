import CapTaint.Branching
import CapTaint.Klee.Searcher

/-! # The sets of states

`states`, `addedStates` and `removedStates` of the executor: how forks, branches and terminations change them in the middle
of an instruction, and how `updateStates` gives them to the searcher. A state is a pointer, and the contents of the states
matter only as far as they are read. -/

namespace CapTaint
open Klee

/-- Where `new` puts a state. -/
structure Allocator (T : Type) where
  new : Finset T → T
  new_notMem : ∀ allocated, new allocated ∉ allocated

/-- The members of the executor: with a searcher while it runs, and with the states that are not deleted. -/
structure StateSets (S T : Type) where
  states : Finset T := ∅
  addedStates : Finset T := ∅
  removedStates : Finset T := ∅
  searcher : Option S := none
  allocated : Finset T := ∅

namespace StateSets

inductive Fault
  | assertion
  | useAfterDelete
  deriving DecidableEq

variable {S T : Type} [LinearOrder T]

/-- A state is read or written. -/
def use (e : StateSets S T) (es : T) : Except Fault Unit := if es ∈ e.allocated then .ok () else .error .useAfterDelete

/-- A new state is added. -/
def addState (e : StateSets S T) (ns : T) : StateSets S T :=
  { e with addedStates := insert ns e.addedStates, allocated := insert ns e.allocated }

/-- `ExecutionState::branch`, of which the result is added. -/
def branchState (e : StateSets S T) (es : T) (allocator : Allocator T) : Except Fault (T × StateSets S T) := do
  e.use es
  let ns := allocator.new e.allocated
  return (ns, e.addState ns)

/-! ### Terminations -/

/-- `Executor::terminateState`. A state that never reached the searcher is deleted. -/
def terminateState (e : StateSets S T) (state : T) : Except Fault (StateSets S T) := do
  e.use state
  if state ∉ e.addedStates then return { e with removedStates := insert state e.removedStates }
  else return { e with addedStates := e.addedStates.erase state, allocated := e.allocated.erase state }

def terminateStateEarly (e : StateSets S T) (state : T) : Except Fault (StateSets S T) := e.terminateState state

/-- `Executor::terminateStateOnExit`. The test case is made before. -/
def terminateStateOnExit (e : StateSets S T) (state : T) : Except Fault (StateSets S T) := do
  e.use state
  e.terminateState state

/-- `Executor::terminateStateOnError`. The message is made of the stack of the state before, and the listeners get the state
    after. -/
def terminateStateOnError (e : StateSets S T) (state : T) : Except Fault (StateSets S T) := do
  e.use state
  let e ← e.terminateState state
  e.use state
  return e

/-! ### Forks and branches -/

/-- What a fork depends on: the answer of the solver, after the replay, the limits and the seeds have chosen a side, none when
    the query timed out. -/
structure ForkDraws (T : Type) where
  res : Option Validity
  swaps : Bool
  maxDepthExceeded : Bool
  allocator : Allocator T

/-- The end of a fork into two states: they get their constraints, but below the greatest depth both are terminated. -/
def endFork (e : StateSets S T) (trueState falseState : T) (maxDepthExceeded : Bool) :
    Except Fault ((Option T × Option T) × StateSets S T) := do
  e.use trueState
  e.use falseState
  if maxDepthExceeded then
    let e ← e.terminateStateEarly trueState
    let e ← e.terminateStateEarly falseState
    return ((none, none), e)
  else return ((some trueState, some falseState), e)

/-- `Executor::fork`: the states in which the condition is true and false. -/
def fork (e : StateSets S T) (current : T) (draws : ForkDraws T) : Except Fault ((Option T × Option T) × StateSets S T) := do
  e.use current
  match draws.res with
  | none =>
    let e ← e.terminateStateEarly current
    return ((none, none), e)
  | some .True => return ((some current, none), e)
  | some .False => return ((none, some current), e)
  | some .Unknown =>
    let (copied, e) ← e.branchState current draws.allocator
    if draws.swaps then e.endFork copied current draws.maxDepthExceeded
    else e.endFork current copied draws.maxDepthExceeded

/-- What a branch depends on: whether the limit of forks is reached, the random numbers, and the states that are left without
    a seed when only seeds are replayed. -/
structure BranchDraws (T : Type) where
  maxForksReached : Bool
  picks : Nat → Nat
  seedless : T → Bool
  allocator : Nat → Allocator T

/-- The states of a branch: the given one, then copies of ones before. -/
def copies (e : StateSets S T) (state : T) (draws : BranchDraws T) : Nat → Except Fault (List T × StateSets S T)
  | 0 => .ok ([state], e)
  | i + 1 => do
    let (result, e) ← copies e state draws i
    let (ns, e) ← e.branchState (result.getD (draws.picks i % (i + 1)) state) (draws.allocator i)
    return (result ++ [ns], e)

/-- The states of `n + 1` conditions: one alone when the limit of forks is reached. -/
def branchStates (e : StateSets S T) (state : T) (n : Nat) (draws : BranchDraws T) :
    Except Fault (List (Option T) × StateSets S T) :=
  if draws.maxForksReached then
    .ok ((List.range (n + 1)).map fun i => if i = draws.picks 0 % (n + 1) then some state else none, e)
  else (copies e state draws n).map fun r => (r.1.map some, r.2)

/-- The states without a seed are terminated. -/
def redistribute (seedless : T → Bool) (e : StateSets S T) : List (Option T) → Except Fault (List (Option T) × StateSets S T)
  | [] => .ok ([], e)
  | none :: result => do
    let (result, e) ← redistribute seedless e result
    return (none :: result, e)
  | some es :: result => do
    if seedless es then
      let e ← e.terminateState es
      let (result, e) ← redistribute seedless e result
      return (none :: result, e)
    else
      let (result, e) ← redistribute seedless e result
      return (some es :: result, e)

/-- `Executor::branch` with `n + 1` conditions. In the end each state that is left gets its constraint. -/
def branch (e : StateSets S T) (state : T) (n : Nat) (draws : BranchDraws T) : Except Fault (List (Option T) × StateSets S T) := do
  e.use state
  let (result, e) ← e.branchStates state n draws
  let (result, e) ← redistribute draws.seedless e result
  (result.filterMap id).forM e.use
  return (result, e)

/-! ### Runs of the executor -/

variable (searcher : Searcher T)

/-- One removed state: it has to be there. -/
def eraseRemoved (states : Finset T) (es : T) : Except Fault (Finset T) :=
  if es ∈ states then .ok (states.erase es) else .error .assertion

/-- `Searcher::update` of the searcher, if there is one. -/
def updateSearcher (e : StateSets searcher.State T) (current : Option T) (o : Readings T) :
    Except Fault (Option searcher.State) :=
  match e.searcher with
  | none => .ok none
  | some s =>
    match searcher.update s current e.addedStates e.removedStates o with
    | some s' => .ok (some s')
    | none => .error .assertion

/-- `Executor::updateStates`. -/
def updateStates (e : StateSets searcher.State T) (current : Option T) (o : Readings T) :
    Except Fault (StateSets searcher.State T) := do
  let s ← e.updateSearcher searcher current o
  let states ← (Searcher.inOrder e.removedStates).foldlM eraseRemoved (e.states ∪ e.addedStates)
  return { e with searcher := s, states, addedStates := ∅, removedStates := ∅ }

/-- `Executor::run` up to its loop: a new state and a new searcher. -/
def run (e : StateSets searcher.State T) (allocator : Allocator T) (constructed : searcher.State) (o : Readings T) :
    Except Fault (StateSets searcher.State T) :=
  let initialState := allocator.new e.allocated
  let states := insert initialState e.states
  match searcher.update constructed none states ∅ o with
  | some s => .ok { e with states, searcher := some s, allocated := insert initialState e.allocated }
  | none => .error .assertion

/-- The loop selects a state. -/
def selectState (e : StateSets searcher.State T) (o : Readings T) : Except Fault (StateSets searcher.State T) :=
  match e.searcher.bind fun s => searcher.selectState s o with
  | some selected => .ok { e with searcher := some selected.2 }
  | none => .error .assertion

/-- What the executor does to the sets, by its instructions and around them. At the end of a run it deletes the searcher. -/
inductive Call (searcher : Searcher T)
  | run (allocator : Allocator T) (constructed : searcher.State) (o : Readings T)
  | selectState (o : Readings T)
  | fork (current : T) (draws : ForkDraws T)
  | branch (state : T) (n : Nat) (draws : BranchDraws T)
  | terminateState (state : T)
  | terminateStateEarly (state : T)
  | terminateStateOnExit (state : T)
  | terminateStateOnError (state : T)
  | updateStates (current : Option T) (o : Readings T)
  | deleteSearcher

def step (e : StateSets searcher.State T) : Call searcher → Except Fault (StateSets searcher.State T)
  | .run allocator constructed o => e.run searcher allocator constructed o
  | .selectState o => e.selectState searcher o
  | .fork current draws => (e.fork current draws).map Prod.snd
  | .branch state n draws => (e.branch state n draws).map Prod.snd
  | .terminateState state => e.terminateState state
  | .terminateStateEarly state => e.terminateStateEarly state
  | .terminateStateOnExit state => e.terminateStateOnExit state
  | .terminateStateOnError state => e.terminateStateOnError state
  | .updateStates current o => e.updateStates searcher current o
  | .deleteSearcher => .ok { e with searcher := none }

end StateSets

end CapTaint
