import CapTaint.Lib.MapOfSets
import Mathlib.Data.Finset.Sort

/-! # MapOfSets

The class over the tree of `Lib/MapOfSets`: a set is walked through in the order of its elements. -/

namespace CapTaint.MapOfSets

/-- The class, which holds the root of the tree. -/
structure Root (K V : Type) where
  root : Node K V := empty

namespace Root

variable {K V ε : Type} [LinearOrder K]

def less (a b : K) : Bool := a < b

def insert (map : Root K V) (set : Finset K) (value : V) : Root K V :=
  ⟨CapTaint.MapOfSets.insert less set.sort value map.root⟩

def lookup (map : Root K V) (set : Finset K) : Option V := CapTaint.MapOfSets.lookup set.sort map.root

def findSubset (map : Root K V) (set : Finset K) (p : V → Except ε Bool) : Except ε (Option V) :=
  CapTaint.MapOfSets.findSubset less p map.root set.sort

def findSuperset (map : Root K V) (set : Finset K) (p : V → Except ε Bool) : Except ε (Option V) :=
  CapTaint.MapOfSets.findSuperset p map.root set.sort

/-! ### All subsets and supersets -/

/-- The entry of a node, if its path is a set of the map. -/
def resultAt (accum : Finset K) (value : Option V) : List (Finset K × V) := (value.map fun value => (accum, value)).toList

/-- The loop of `findSubsets` below a node. -/
def findSubsetsBelow : List K → Children K V → Finset K → List (Finset K × V)
  | [], _, _ => []
  | elt :: it, children, accum =>
    match children.find elt with
    | some (.mk value below) =>
      resultAt (Insert.insert elt accum) value ++ findSubsetsBelow it below (Insert.insert elt accum) ++
        findSubsetsBelow it children accum
    | none => findSubsetsBelow it children accum

def findSubsets : Node K V → Finset K → List K → List (Finset K × V)
  | .mk value children, accum, set => resultAt accum value ++ findSubsetsBelow set children accum

def subsets (map : Root K V) (set : Finset K) : List (Finset K × V) := findSubsets map.root ∅ set.sort

mutual
def findSupersets : Node K V → Finset K → List K → List (Finset K × V)
  | .mk value children, accum, [] => resultAt accum value ++ findSupersetsBelow children accum []
  | .mk _ children, accum, elt :: next => findSupersetsBelow children accum (elt :: next)

/-- The two loops of `findSupersets`. The second one ends at the first child behind `elt`. -/
def findSupersetsBelow : Children K V → Finset K → List K → List (Finset K × V)
  | .nil, _, _ => []
  | .cons key node rest, accum, [] =>
    findSupersets node (Insert.insert key accum) [] ++ findSupersetsBelow rest accum []
  | .cons key node rest, accum, elt :: next =>
    if elt = key then findSupersets node (Insert.insert key accum) next ++ findSupersetsBelow rest accum (elt :: next)
    else if key < elt then
      findSupersets node (Insert.insert key accum) (elt :: next) ++ findSupersetsBelow rest accum (elt :: next)
    else []
end

def supersets (map : Root K V) (set : Finset K) : List (Finset K × V) := findSupersets map.root ∅ set.sort

end Root

/-! ### Iterators -/

namespace Root

variable {K V : Type}

/-- A position in the children of a node, with the children that follow. -/
structure Place (K V : Type) where
  key : K
  node : Node K V
  siblings : Children K V

/-- The top of the stack comes first. -/
structure Iterator (K V : Type) where
  root : Node K V
  onEntry : Bool
  stack : List (Place K V)

def value : Node K V → Option V
  | .mk value _ => value

mutual
/-- The first loop of `step`: down to the next set, if there is one. -/
def descend : Node K V → List (Place K V) → Bool × List (Place K V)
  | .mk _ children, stack => descendInto children stack

def descendInto : Children K V → List (Place K V) → Bool × List (Place K V)
  | .nil, stack => (false, stack)
  | .cons key node siblings, stack =>
    if (value node).isSome then (true, ⟨key, node, siblings⟩ :: stack) else descend node (⟨key, node, siblings⟩ :: stack)
end

mutual
/-- The inner loop of the second one. There is no result where its assertion fails. -/
def settle : Node K V → List (Place K V) → Option (List (Place K V))
  | .mk value children, stack => if value.isSome then some stack else settleInto children stack

def settleInto : Children K V → List (Place K V) → Option (List (Place K V))
  | .nil, _ => none
  | .cons key node siblings, stack => settle node (⟨key, node, siblings⟩ :: stack)
end

/-- The second loop of `step`. -/
def advance : List (Place K V) → Option (Bool × List (Place K V))
  | [] => some (false, [])
  | ⟨_, _, .nil⟩ :: stack => advance stack
  | ⟨_, _, .cons key node siblings⟩ :: stack => (settle node (⟨key, node, siblings⟩ :: stack)).map fun stack => (true, stack)

namespace Iterator

/-- The node that the iterator is at. -/
def top (it : Iterator K V) : Node K V :=
  match it.stack with
  | [] => it.root
  | place :: _ => place.node

def step (it : Iterator K V) : Option (Iterator K V) :=
  let state := if it.onEntry then descend it.top it.stack else (false, it.stack)
  if state.1 then some { it with onEntry := true, stack := state.2 }
  else (advance state.2).map fun state => { it with onEntry := state.1, stack := state.2 }

/-- Whether the iterator is equal to `end()`. -/
def isEnd (it : Iterator K V) : Bool := !it.onEntry && it.stack.isEmpty

/-- `operator*`. There is no result where its assertion fails. -/
def deref [DecidableEq K] (it : Iterator K V) : Option (Finset K × V) :=
  if it.isEnd then none else (value it.top).map fun value => ((it.stack.map Place.key).toFinset, value)

/-- What a loop over the iterator comes to. -/
def visit [DecidableEq K] : Nat → Iterator K V → Option (List (Finset K × V))
  | 0, _ => none
  | n + 1, it =>
    if it.isEnd then some []
    else do
      let entry ← it.deref
      let next ← it.step
      return entry :: (← visit n next)

end Iterator

/-- `begin()`. -/
def first (map : Root K V) : Option (Iterator K V) :=
  let it : Iterator K V := ⟨map.root, true, []⟩
  if (value map.root).isSome then some it else it.step

end Root

end CapTaint.MapOfSets
