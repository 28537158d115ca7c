import CapTaint.Verification

/-! # Clean runs

Every run begins with empty sets and managers if the states that remain are dumped, or if none remain. -/

namespace CapTaint
open Std

namespace ExecutorData

/-- Nothing is left of an earlier run. -/
structure Clean (x : ExecutorData) : Prop where
  states : x.states = ∅
  addedStates : x.addedStates = ∅
  removedStates : x.removedStates = ∅
  mutexPool : x.mutexManager.mutexPool.isEmpty = true
  blockedThreadPool : x.mutexManager.blockedThreadPool.isEmpty = true
  condPool : x.condManager.condPool.isEmpty = true
  barrierPool : x.barrierManager.barrierPool.isEmpty = true
  joinRecord : x.joinRecord.isEmpty = true
  nextThreadId : x.nextThreadId = 1
  nextMutexId : x.nextMutexId = 1
  nextConditionId : x.nextConditionId = 1

variable {x x' : ExecutorData}

/-- No addition or removal is pending. -/
structure Settled (x : ExecutorData) : Prop where
  addedStates : x.addedStates = ∅
  removedStates : x.removedStates = ∅

/-- Only removals of states that are still in the set are pending, as a `break` leaves them. -/
structure Leaving (x : ExecutorData) : Prop where
  addedStates : x.addedStates = ∅
  removedStates : x.removedStates ⊆ x.states

theorem updateStates_settled (h : x.updateStates = some x') : Settled x' := by
  rw [updateStates, Option.ite_none_right_eq_some] at h
  obtain rfl := Option.some.inj h.2
  exact ⟨rfl, rfl⟩

theorem Settled.leaving (h : Settled x) : Leaving x := ⟨h.addedStates, by rw [h.removedStates]; exact Finset.empty_subset _⟩

theorem Settled.terminateState (h : Settled x) {state : Nat} (hstate : state ∈ x.states) : Leaving (x.terminateState state) := by
  have hout : state ∉ x.addedStates := by simp [h.addedStates]
  rw [ExecutorData.terminateState, if_neg hout]
  refine ⟨h.addedStates, ?_⟩
  show insert state x.removedStates ⊆ x.states
  rw [h.removedStates]
  exact Finset.insert_subset hstate (Finset.empty_subset _)

/-- A round that breaks leaves at most its own state to be removed; any other round leaves nothing pending. -/
theorem Settled.round (h : Settled x) {round : Round} {isBroken : Bool} (hround : x.round round = some (isBroken, x')) :
    if isBroken then Leaving x' else Settled x' := by
  cases round with
  | unable state | unmatched state =>
    simp only [ExecutorData.round, Option.ite_none_right_eq_some] at hround
    obtain ⟨rfl, rfl⟩ := Prod.mk.inj (Option.some.inj hround.2)
    rw [if_pos rfl]
    refine Settled.terminateState ?_ hround.1
    exact ⟨h.addedStates, h.removedStates⟩
  | executed state forks terminated effect halts timedOut finished =>
    simp only [ExecutorData.round, Option.ite_none_right_eq_some] at hround
    obtain ⟨x₁, -, hround⟩ := Option.bind_eq_some_iff.mp hround.2
    split at hround
    · obtain ⟨x₂, hupdate, hround⟩ := Option.bind_eq_some_iff.mp hround
      obtain ⟨rfl, rfl⟩ := Prod.mk.inj (Option.some.inj hround)
      exact (updateStates_settled hupdate).leaving
    · obtain ⟨x₂, hupdate, hround⟩ := Option.bind_eq_some_iff.mp hround
      obtain ⟨rfl, rfl⟩ := Prod.mk.inj (Option.some.inj hround)
      exact updateStates_settled hupdate

theorem Settled.loop {rounds : List Round} (h : Settled x) (hloop : loop rounds x = some x') : Leaving x' := by
  induction rounds generalizing x with
  | nil =>
    rw [ExecutorData.loop, Option.ite_none_right_eq_some] at hloop
    obtain rfl := Option.some.inj hloop.2
    exact h.leaving
  | cons round rounds ih =>
    rw [ExecutorData.loop, Option.ite_none_left_eq_some] at hloop
    obtain ⟨⟨isBroken, x₁⟩, hround, hloop⟩ := Option.bind_eq_some_iff.mp hloop.2
    have hafter := h.round hround
    cases isBroken with
    | true =>
      simp only [if_true, Option.ite_none_right_eq_some] at hloop
      obtain rfl := Option.some.inj hloop.2
      exact hafter
    | false => exact ih hafter hloop

/-- The dump empties the sets; without it they stay as the loop has left them. -/
theorem Leaving.dump (h : Leaving x) {dumpStatesOnHalt : Bool} (hdump : x.dump dumpStatesOnHalt = some x') :
    x'.addedStates = ∅ ∧ ((dumpStatesOnHalt = true ∨ x.states = ∅) ↔ x'.states = ∅) ∧
      (x'.states = ∅ → x'.removedStates = ∅) := by
  rw [ExecutorData.dump] at hdump
  split at hdump
  next hdumps =>
    have hsettled := updateStates_settled hdump
    rw [updateStates, Option.ite_none_right_eq_some] at hdump
    obtain rfl := Option.some.inj hdump.2
    have hstates : (x.states ∪ (x.addedStates \ x.states)) \ (x.removedStates ∪ (x.states \ x.addedStates)) = ∅ := by
      rw [h.addedStates]
      simp
    exact ⟨rfl, ⟨fun _ => hstates, fun _ => .inl hdumps.1⟩, fun _ => rfl⟩
  next hkeeps =>
    obtain rfl := Option.some.inj hdump
    refine ⟨h.addedStates, ⟨fun hor => ?_, .inr⟩, fun hempty => ?_⟩
    · rcases hor with hdumps | hempty
      · by_contra hne
        exact hkeeps ⟨hdumps, hne⟩
      · exact hempty
    · have hsub := h.removedStates
      rw [hempty] at hsub
      exact Finset.subset_empty.mp hsub

/-- One run from a clean beginning: the next one begins clean exactly if the states were dumped or none remained. -/
theorem Clean.run (h : Clean x) {rounds : List Round} {left ended : ExecutorData} {dumpStatesOnHalt : Bool}
    (hloop : loop rounds x.begin = some left) (hdump : left.dump dumpStatesOnHalt = some ended) :
    Clean ended.prepareNextExecution ↔ dumpStatesOnHalt = true ∨ left.states = ∅ := by
  have hleaving : Leaving left := Settled.loop (x := x.begin) ⟨h.addedStates, h.removedStates⟩ hloop
  obtain ⟨hadded, hstates, hremoved⟩ := hleaving.dump hdump
  rw [hstates]
  exact ⟨fun hclean => hclean.states, fun hempty => ⟨hempty, hadded, hremoved hempty, rfl, rfl, rfl, rfl, rfl, rfl, rfl, rfl⟩⟩

theorem runVerification_cons {dumpStatesOnHalt : Bool} {rounds : List Round} {runs : List (List Round)}
    {results : List (ExecutorData × ExecutorData)} (h : runVerification dumpStatesOnHalt (rounds :: runs) x = some results) :
    ∃ left ended rest, loop rounds x.begin = some left ∧ left.dump dumpStatesOnHalt = some ended ∧
      runVerification dumpStatesOnHalt runs ended.prepareNextExecution = some rest ∧ results = (x, left) :: rest := by
  rw [runVerification, Option.ite_none_left_eq_some] at h
  obtain ⟨left, hloop, h⟩ := Option.bind_eq_some_iff.mp h.2
  obtain ⟨ended, hdump, h⟩ := Option.bind_eq_some_iff.mp h
  obtain ⟨rest, hrest, h⟩ := Option.bind_eq_some_iff.mp h
  exact ⟨left, ended, rest, hloop, hdump, hrest, (Option.some.inj h).symm⟩

/-- The first of the results is the beginning that was handed over. -/
theorem runVerification_head {dumpStatesOnHalt : Bool} {runs : List (List Round)}
    {results : List (ExecutorData × ExecutorData)} (h : runVerification dumpStatesOnHalt runs x = some results)
    {result : ExecutorData × ExecutorData} (hhead : results.head? = some result) : result.1 = x := by
  cases runs with
  | nil =>
    obtain rfl := Option.some.inj h
    cases hhead
  | cons rounds runs =>
    obtain ⟨left, ended, rest, -, -, -, rfl⟩ := runVerification_cons h
    obtain rfl := Option.some.inj hhead
    rfl

theorem Clean.runs (hx : Clean x) {dumpStatesOnHalt : Bool} {runs : List (List Round)}
    {results : List (ExecutorData × ExecutorData)} (h : runVerification dumpStatesOnHalt runs x = some results) :
    (∀ result ∈ results, Clean result.1) ↔ dumpStatesOnHalt = true ∨ ∀ result ∈ results.dropLast, result.2.states = ∅ := by
  induction runs generalizing x results with
  | nil =>
    obtain rfl := Option.some.inj h
    simp
  | cons rounds runs ih =>
    obtain ⟨left, ended, rest, hloop, hdump, hrest, rfl⟩ := runVerification_cons h
    have hnext := hx.run hloop hdump
    cases hsplit : rest with
    | nil => simp [hx]
    | cons result others =>
      rw [hsplit] at hrest
      have hbegin : result.1 = ended.prepareNextExecution := runVerification_head hrest rfl
      rw [List.dropLast_cons_of_ne_nil (by simp)]
      constructor
      · intro hall
        have hothers := (List.forall_mem_cons.mp hall).2
        have hclean : Clean ended.prepareNextExecution := hbegin ▸ hothers result List.mem_cons_self
        rcases (ih hclean hrest).mp hothers with hdumps | hempty
        · exact .inl hdumps
        · exact (hnext.mp hclean).imp_right fun hleft => List.forall_mem_cons.mpr ⟨hleft, hempty⟩
      · intro hor
        have hclean : Clean ended.prepareNextExecution :=
          hnext.mpr (hor.imp_right fun hempty => hempty (x, left) List.mem_cons_self)
        refine List.forall_mem_cons.mpr ⟨hx, (ih hclean hrest).mpr ?_⟩
        exact hor.imp_right fun hempty => (List.forall_mem_cons.mp hempty).2

/-- Over any sequence of runs: every run begins clean exactly if the remaining states are dumped, or if no run that another
    one follows has left its main loop with states in the set. -/
theorem clean_iff (dumpStatesOnHalt : Bool) (runs : List (List Round)) (results : List (ExecutorData × ExecutorData))
    (h : runVerification dumpStatesOnHalt runs {} = some results) :
    (∀ result ∈ results, Clean result.1) ↔ dumpStatesOnHalt = true ∨ ∀ result ∈ results.dropLast, result.2.states = ∅ :=
  Clean.runs ⟨rfl, rfl, rfl, rfl, rfl, rfl, rfl, rfl, rfl, rfl, rfl⟩ h

/-- A run whose main thread ends after one instruction. -/
def oneInstruction (state : Nat) : Round := .executed state 0 [] {} false false (some true)

theorem clean_twoRuns : ∃ results, runVerification false [[oneInstruction 0], [oneInstruction 1]] {} = some results ∧
    results.length = 2 ∧ ∀ result ∈ results, Clean result.1 := by
  have hrun : (runVerification false [[oneInstruction 0], [oneInstruction 1]] {}).map (·.map (·.2.states)) = some [∅, ∅] := by
    decide +kernel
  obtain ⟨results, hresults, hstates⟩ := Option.map_eq_some_iff.mp hrun
  have hlength : results.length = 2 := by
    rw [← List.length_map (f := fun result : ExecutorData × ExecutorData => result.2.states), hstates]
    rfl
  refine ⟨results, hresults, hlength, (clean_iff false _ results hresults).mpr (.inr fun result hresult => ?_)⟩
  have hmem : result.2.states ∈ results.map (·.2.states) := List.mem_map_of_mem (List.mem_of_mem_dropLast hresult)
  rw [hstates] at hmem
  simpa using hmem

/-- A run that is halted leaves its state in the set for the next one. -/
theorem not_clean_haltedRun : ∃ results,
    runVerification false [[.executed 0 0 [] {} true false none], []] {} = some results ∧
      ¬∀ result ∈ results, Clean result.1 := by
  have hrun : (runVerification false [[.executed 0 0 [] {} true false none], []] {}).map (·.map (·.1.states)) =
      some [∅, {0}] := by decide +kernel
  obtain ⟨results, hresults, hstates⟩ := Option.map_eq_some_iff.mp hrun
  refine ⟨results, hresults, fun hclean => ?_⟩
  have hmem : {0} ∈ results.map (·.1.states) := by
    rw [hstates]
    simp
  obtain ⟨result, hresult, heq⟩ := List.mem_map.mp hmem
  have hempty := (hclean result hresult).states
  rw [heq] at hempty
  exact absurd hempty (by decide)

end ExecutorData
end CapTaint
