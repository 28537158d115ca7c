import Mathlib.Data.Finset.Sort
import CapTaint.Klee.DiscretePDF

/-! # Searchers

The classes of `Searcher.h` that can be put together, each with its state and its virtual functions. Pointers to states
are of an ordered type. There is no result where an assertion fails or the behaviour is undefined. -/

namespace CapTaint.Klee

/-! ### What is read -/

/-- What a searcher reads while it runs: the clock, the number of instructions, the generator of random numbers, and the weights
of states. -/
structure Reading (T : Type) where
  getWallTime : ℚ
  instructions : Nat
  getInt32 : Nat
  getDoubleL : ℚ
  getDoubleL_range : 0 ≤ getDoubleL ∧ getDoubleL < 1
  getWeight : T → ℚ

/-- The readings of a call and of the calls below it, by their numbers. -/
abbrev Readings (T : Type) := List Nat → Reading T

namespace Readings

variable {T : Type}

def get (o : Readings T) (k : Nat) : Reading T := o [k]

/-- The readings of a call below. -/
def below (o : Readings T) (k : Nat) : Readings T := fun path => o (k :: path)

end Readings

/-! ### The classes -/

/-- A class: its objects, those that its constructor leaves, and the virtual functions. -/
structure Searcher (T : Type) [LinearOrder T] where
  State : Type
  Constructed : State → Prop
  selectState : State → Readings T → Option (T × State)
  update : State → Option T → Finset T → Finset T → Readings T → Option State
  empty : State → Bool

namespace Searcher

variable {T : Type} [LinearOrder T]

/-- The elements of a set, as a loop over it meets them. -/
def inOrder.{u} {α : Type u} [LinearOrder α] (states : Finset α) : List α := states.sort (· ≤ ·)

/-- The loop that looks for a state from the front, and erases it. -/
def eraseState (states : List T) (es : T) : Option (List T) := if es ∈ states then some (states.erase es) else none

def eraseFromBack (states : List T) (es : T) : Option (List T) :=
  if states.getLast? = some es then some states.dropLast else eraseState states es

def eraseFromFront (states : List T) (es : T) : Option (List T) :=
  if states.head? = some es then some states.tail else eraseState states es

/-- States are added at the end, and then others are removed one by one. -/
def updateStates (remove : List T → T → Option (List T)) (states : List T) (addedStates removedStates : Finset T) : Option (List T) :=
  (inOrder removedStates).foldlM remove (states ++ inOrder addedStates)

variable (T) in
def DFSSearcher : Searcher T where
  State := List T
  Constructed states := states = []
  selectState states _ := states.getLast?.map fun es => (es, states)
  update states _ addedStates removedStates _ := updateStates eraseFromBack states addedStates removedStates
  empty := List.isEmpty

variable (T) in
def BFSSearcher : Searcher T where
  State := List T
  Constructed states := states = []
  selectState states _ := states.head?.map fun es => (es, states)
  update states _ addedStates removedStates _ := updateStates eraseFromFront states addedStates removedStates
  empty := List.isEmpty

variable (T) in
def RandomSearcher : Searcher T where
  State := List T
  Constructed states := states = []
  selectState states o := states[(o.get 0).getInt32 % states.length]?.map fun es => (es, states)
  update states _ addedStates removedStates _ := updateStates eraseState states addedStates removedStates
  empty := List.isEmpty

structure RoundState (T : Type) where
  index : Nat
  states : List T

variable (T) in
/-- The index is -1 at first. -/
def RoundSearch : Searcher T where
  State := RoundState T
  Constructed s := s = ⟨2 ^ 32 - 1, []⟩
  selectState s _ :=
    let index := (s.index + 1) % 2 ^ 32
    let index := if s.states.length ≤ index then 0 else index
    s.states[index]?.map fun es => (es, { s with index })
  update s _ addedStates removedStates _ :=
    (updateStates eraseFromBack s.states addedStates removedStates).map fun states => { s with states }
  empty s := s.states.isEmpty

inductive WeightType
  | depth
  | queryCost
  | instCount
  | cpInstCount
  | minDistToUncovered
  | coveringNew
  deriving DecidableEq

def WeightType.updateWeights : WeightType → Bool
  | depth => false
  | instCount | cpInstCount | queryCost | minDistToUncovered | coveringNew => true

/-- The weight of the current state is brought up to date. -/
def updateWeight (type : WeightType) (states : DiscretePDF T) (current : Option T) (removedStates : Finset T) (o : Readings T) :
    Option (DiscretePDF T) :=
  match current with
  | some es => if type.updateWeights ∧ es ∉ removedStates then states.update es ((o.get 0).getWeight es) else some states
  | none => some states

variable (T) in
def WeightedRandomSearcher (type : WeightType) : Searcher T where
  State := DiscretePDF T
  Constructed states := states = .empty
  selectState states o := (states.choose (o.get 0).getDoubleL).map fun es => (es, states)
  update states current addedStates removedStates o := do
    let states ← updateWeight type states current removedStates o
    let states ← (inOrder addedStates).foldlM (fun states es => states.insert es ((o.get 1).getWeight es)) states
    (inOrder removedStates).foldlM DiscretePDF.remove states
  empty states := states.m_root.isNone

structure BatchingState (S T : Type) where
  base : S
  timeBudget : ℚ
  lastState : Option T
  lastStartTime : ℚ
  lastStartInstructions : Nat

/-- A new batch begins with the state that the base searcher selects. -/
def startBatch (baseSearcher : Searcher T) (s : BatchingState baseSearcher.State T) (o : Readings T) (timeBudget : ℚ) :
    Option (T × BatchingState baseSearcher.State T) :=
  (baseSearcher.selectState s.base (o.below 3)).map fun selected =>
    (selected.1, ⟨selected.2, timeBudget, some selected.1, (o.get 4).getWallTime, (o.get 5).instructions % 2 ^ 32⟩)

/-- The times are not set by the constructor. -/
def BatchingSearcher (baseSearcher : Searcher T) (timeBudget : ℚ) (instructionBudget : Nat) : Searcher T where
  State := BatchingState baseSearcher.State T
  Constructed s := baseSearcher.Constructed s.base ∧ s.timeBudget = timeBudget ∧ s.lastState = none
  selectState s o :=
    match s.lastState with
    | none => startBatch baseSearcher s o s.timeBudget
    | some es =>
      if (o.get 0).getWallTime - s.lastStartTime > s.timeBudget ∨
          ((o.get 1).instructions + 2 ^ 64 - s.lastStartInstructions) % 2 ^ 64 > instructionBudget then
        let delta := (o.get 2).getWallTime - s.lastStartTime
        startBatch baseSearcher s o (if delta > s.timeBudget * (11 / 10) then delta else s.timeBudget)
      else some (es, s)
  update s current addedStates removedStates o := do
    let lastState := s.lastState.filter (· ∉ removedStates)
    let base ← baseSearcher.update s.base current addedStates removedStates (o.below 0)
    return { s with base, lastState }
  empty s := baseSearcher.empty s.base

structure DeepeningState (S T : Type) where
  base : S
  time : ℚ
  startTime : ℚ
  pausedStates : Finset T

/-- `removeState` -/
def removeState (searcher : Searcher T) (s : searcher.State) (es : T) (o : Readings T) : Option searcher.State :=
  searcher.update s none ∅ {es} o

/-- The current state is paused when its time is over. -/
def pause (baseSearcher : Searcher T) (s : DeepeningState baseSearcher.State T) (current : Option T) (removedStates : Finset T)
    (elapsed : ℚ) (o : Readings T) : Option (DeepeningState baseSearcher.State T) :=
  match current with
  | some es =>
    if es ∉ removedStates ∧ elapsed > s.time then do
      let base ← removeState baseSearcher s.base es o
      return { s with base, pausedStates := insert es s.pausedStates }
    else some s
  | none => some s

/-- All paused states are given to the base searcher when it has no other. -/
def resume (baseSearcher : Searcher T) (s : DeepeningState baseSearcher.State T) (o : Readings T) :
    Option (DeepeningState baseSearcher.State T) :=
  if baseSearcher.empty s.base then do
    let base ← baseSearcher.update s.base none s.pausedStates ∅ o
    return { s with base, time := s.time * 2, pausedStates := ∅ }
  else some s

/-- The loop over the removed states erases, for one that is paused, an iterator of `removedStates` from `pausedStates`. -/
def IterativeDeepeningTimeSearcher (baseSearcher : Searcher T) : Searcher T where
  State := DeepeningState baseSearcher.State T
  Constructed s := baseSearcher.Constructed s.base ∧ s.time = 1 ∧ s.pausedStates = ∅
  selectState s o := do
    let (es, base) ← baseSearcher.selectState s.base (o.below 0)
    return (es, { s with base, startTime := (o.get 1).getWallTime })
  update s current addedStates removedStates o := do
    let elapsed := (o.get 0).getWallTime - s.startTime
    if ∃ es ∈ removedStates, es ∈ s.pausedStates then none
    else
      let base ← baseSearcher.update s.base current addedStates removedStates (o.below 1)
      let s ← pause baseSearcher { s with base } current removedStates elapsed (o.below 2)
      resume baseSearcher s (o.below 3)
  empty s := baseSearcher.empty s.base && decide (s.pausedStates = ∅)

structure InterleavedState {n : Nat} (searchers : Fin (n + 1) → Searcher T) where
  states : ∀ i, (searchers i).State
  index : Nat

/-- There is at least one searcher. -/
def InterleavedSearcher {n : Nat} (searchers : Fin (n + 1) → Searcher T) : Searcher T where
  State := InterleavedState searchers
  Constructed s := (∀ i, (searchers i).Constructed (s.states i)) ∧ s.index = 1
  selectState s o :=
    if h : 0 < s.index ∧ s.index - 1 < n + 1 then do
      let i : Fin (n + 1) := ⟨s.index - 1, h.2⟩
      let (es, state) ← (searchers i).selectState (s.states i) (o.below 0)
      return (es, ⟨Function.update s.states i state, if s.index - 1 = 0 then n + 1 else s.index - 1⟩)
    else none
  update s current addedStates removedStates o :=
    let states i := (searchers i).update (s.states i) current addedStates removedStates (o.below i)
    if h : ∀ i, (states i).isSome then some { s with states := fun i => (states i).get (h i) } else none
  empty s := (searchers 0).empty (s.states 0)

end Searcher

/-! ### Compositions -/

inductive Composition
  | dfs
  | bfs
  | random
  | round
  | weightedRandom (type : Searcher.WeightType)
  | batching (base : Composition) (timeBudget : ℚ) (instructionBudget : Nat)
  | iterativeDeepeningTime (base : Composition)
  | interleaved {n : Nat} (searchers : Fin (n + 1) → Composition)

open Searcher in
/-- The searcher that is put together. -/
def Composition.searcher (T : Type) [LinearOrder T] : Composition → Searcher T
  | dfs => DFSSearcher T
  | bfs => BFSSearcher T
  | random => RandomSearcher T
  | round => RoundSearch T
  | weightedRandom type => WeightedRandomSearcher T type
  | batching base timeBudget instructionBudget => BatchingSearcher (base.searcher T) timeBudget instructionBudget
  | iterativeDeepeningTime base => IterativeDeepeningTimeSearcher (base.searcher T)
  | interleaved searchers => InterleavedSearcher fun i => (searchers i).searcher T

end CapTaint.Klee
