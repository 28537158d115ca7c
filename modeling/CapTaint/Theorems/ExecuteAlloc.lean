import CapTaint.ExecuteAlloc
import CapTaint.Theorems.Partition

/-! # Symbolic allocations and the path condition

The valuations are split as intended, unless a size does not fit into 32 bits or lies between 2^31 and the threshold for
huge sizes. -/

namespace CapTaint.ExecuteAlloc

variable {V β : Type}

/-- No valuation satisfies both results. -/
def Apart (a b : PathState V × Outcome β) : Prop := ∀ v, ¬(a.1.satisfies v = true ∧ b.1.satisfies v = true)

/-- The results have the valuations of the state: each in exactly one of them, with an outcome that is intended for it. -/
structure Splits (state : PathState V) (intended : V → Outcome β → Prop) (results : List (PathState V × Outcome β)) : Prop where
  home : ∀ v, state.satisfies v = true → ∃ result ∈ results, result.1.satisfies v = true ∧ intended v result.2
  disjoint : results.Pairwise Apart
  inside : ∀ result ∈ results, result.1.Feasible ∧ ∀ v, result.1.satisfies v = true → state.satisfies v = true

/-- The size has the value under some valuation of the state. -/
def Possible (state : PathState V) (size : V → Nat) (n : Nat) : Prop := ∃ v, state.satisfies v = true ∧ size v = n

/-- What halving a first value leads to: a value stays if it is small or its half is not possible. -/
inductive Halves (possible : Nat → Prop) : Nat → Nat → Prop
  | stop {n : Nat} : (128 < n → ¬possible (n / 2)) → Halves possible n n
  | halve {n m : Nat} : 128 < n → possible (n / 2) → Halves possible (n / 2) m → Halves possible n m

/-- The outcome is a new object of the size, to which the target points. -/
def Outcome.Allocates (outcome : Outcome β) (n : Nat) : Prop :=
  ∃ os unbound, outcome = .bound os.mo.address (some os) unbound ∧ os.mo.size = n

/-- There are two possible sizes other than the example. -/
def SeveralOthers (state : PathState V) (size : V → Nat) (example' : Nat) : Prop :=
  ∃ n m, Possible state size n ∧ Possible state size m ∧ n ≠ example' ∧ m ≠ example' ∧ n ≠ m

/-- What is to become of a valuation. -/
def Intended (state : PathState V) (size : V → Nat) (example' : Nat) (v : V) (outcome : Outcome β) : Prop :=
  (size v = example' → outcome.Allocates example') ∧
  (size v ≠ example' → ¬SeveralOthers state size example' → outcome.Allocates (size v)) ∧
  (size v ≠ example' → SeveralOthers state size example' →
    (2 ^ 31 < size v → outcome = .bound 0 none none) ∧
    (size v ≤ 2 ^ 31 → outcome = .terminated "concretized symbolic size" "model.err"))

/-- The sizes that are allocated fit into 32 bits, and those that are not allocated are no larger than 2^31 or above the
    threshold. -/
structure Fits (state : PathState V) (size : V → Nat) (example' : Nat) : Prop where
  chosen : example' < 2 ^ 32
  single : ¬SeveralOthers state size example' → ∀ n, Possible state size n → n < 2 ^ 32
  several : SeveralOthers state size example' → ∀ n, Possible state size n → n ≠ example' → ¬(2 ^ 31 < n ∧ n ≤ 2 ^ 64 - 2 ^ 31)

section
variable {state : PathState V} {results : List (PathState V × Outcome β)}

/-! ## Splitting -/

theorem Apart.symm {a b : PathState V × Outcome β} (h : Apart a b) : Apart b a := fun v hboth => h v hboth.symm

/-- Where the outcome is a function of the valuation, only the outcome of each valuation matters. -/
theorem splits_iff_of_eq {f : V → Outcome β} (h : Splits state (fun v outcome => outcome = f v) results)
    {intended : V → Outcome β → Prop} :
    Splits state intended results ↔ ∀ v, state.satisfies v = true → intended v (f v) := by
  constructor
  · intro hsplits v hv
    obtain ⟨a, ha, hav, houtcome⟩ := h.home v hv
    obtain ⟨b, hb, hbv, hintended⟩ := hsplits.home v hv
    have heq : a = b := by
      by_contra hne
      have : Std.Symm (Apart (V := V) (β := β)) := ⟨fun a b => Apart.symm⟩
      exact h.disjoint.forall ha hb hne v ⟨hav, hbv⟩
    rw [← houtcome, heq]
    exact hintended
  · intro hintended
    refine ⟨fun v hv => ?_, h.disjoint, h.inside⟩
    obtain ⟨result, hmem, hsat, houtcome⟩ := h.home v hv
    exact ⟨result, hmem, hsat, houtcome ▸ hintended v hv⟩

theorem Splits.single {intended : V → Outcome β → Prop} {outcome : Outcome β} (hfeasible : state.Feasible)
    (hintended : ∀ v, state.satisfies v = true → intended v outcome) : Splits state intended [(state, outcome)] where
  home v hv := ⟨_, List.mem_singleton_self _, hv, hintended v hv⟩
  disjoint := List.pairwise_singleton _ _
  inside result hmem := by
    rw [List.mem_singleton.mp hmem]
    exact ⟨hfeasible, fun v hv => hv⟩

theorem Splits.swap {intended : V → Outcome β → Prop} {xs ys : List (PathState V × Outcome β)}
    (h : Splits state intended (xs ++ ys)) : Splits state intended (ys ++ xs) where
  home v hv := by
    obtain ⟨result, hmem, hrest⟩ := h.home v hv
    exact ⟨result, List.mem_append.mpr (List.mem_append.mp hmem).symm, hrest⟩
  disjoint := (List.pairwise_append_comm Apart.symm).mp h.disjoint
  inside result hmem := h.inside result (List.mem_append.mpr (List.mem_append.mp hmem).symm)

/-- The two branches of a condition, each split on its own. -/
theorem Splits.append {intended : V → Outcome β → Prop} {trueState falseState : PathState V} {cond : V → Bool}
    {xs ys : List (PathState V × Outcome β)}
    (htrue : ∀ v, trueState.satisfies v = (state.satisfies v && cond v))
    (hfalse : ∀ v, falseState.satisfies v = (state.satisfies v && !cond v))
    (hxs : Splits trueState intended xs) (hys : Splits falseState intended ys) : Splits state intended (xs ++ ys) where
  home v hv := by
    cases hcond : cond v with
    | true =>
      obtain ⟨result, hmem, hrest⟩ := hxs.home v (by simp [htrue, hv, hcond])
      exact ⟨result, List.mem_append_left _ hmem, hrest⟩
    | false =>
      obtain ⟨result, hmem, hrest⟩ := hys.home v (by simp [hfalse, hv, hcond])
      exact ⟨result, List.mem_append_right _ hmem, hrest⟩
  disjoint := by
    refine List.pairwise_append.mpr ⟨hxs.disjoint, hys.disjoint, fun a ha b hb v hboth => ?_⟩
    have hleft := (hxs.inside a ha).2 v hboth.1
    have hright := (hys.inside b hb).2 v hboth.2
    rw [htrue, Bool.and_eq_true] at hleft
    rw [hfalse, Bool.and_eq_true, Bool.not_eq_true'] at hright
    exact Bool.noConfusion (hleft.2.symm.trans hright.2)
  inside result hmem := by
    rcases List.mem_append.mp hmem with hmem | hmem
    · refine ⟨(hxs.inside result hmem).1, fun v hv => ?_⟩
      have hin := (hxs.inside result hmem).2 v hv
      rw [htrue, Bool.and_eq_true] at hin
      exact hin.1
    · refine ⟨(hys.inside result hmem).1, fun v hv => ?_⟩
      have hin := (hys.inside result hmem).2 v hv
      rw [hfalse, Bool.and_eq_true] at hin
      exact hin.1

variable {solver : TimingSolver V} {draws : Draws}

/-- A fork splits a state if what follows splits each of its branches. -/
theorem splits_fork (hc : solver.Correct) (hfeasible : state.Feasible) {cond : V → Bool} {intended : V → Outcome β → Prop}
    {onTrue onFalse : PathState V → List (PathState V × Outcome β)}
    (htrue : ∀ s : PathState V, s.Feasible → (∀ v, s.satisfies v = (state.satisfies v && cond v)) →
      Splits s intended (onTrue s))
    (hfalse : ∀ s : PathState V, s.Feasible → (∀ v, s.satisfies v = (state.satisfies v && !cond v)) →
      Splits s intended (onFalse s)) :
    Splits state intended ((solver.fork draws state cond).1.toList.flatMap onTrue ++
      (solver.fork draws state cond).2.toList.flatMap onFalse) := by
  cases hres : solver.evaluate state cond with
  | True =>
    have hall := (hc.evaluate_true hfeasible).mp hres
    have hsat (v) : state.satisfies v = (state.satisfies v && cond v) := by
      cases hv : state.satisfies v with
      | false => rfl
      | true => simp [hall v hv]
    simpa [TimingSolver.fork, hres] using htrue state hfeasible hsat
  | False =>
    have hall := (hc.evaluate_false hfeasible).mp hres
    have hsat (v) : state.satisfies v = (state.satisfies v && !cond v) := by
      cases hv : state.satisfies v with
      | false => rfl
      | true => simp [hall v hv]
    simpa [TimingSolver.fork, hres] using hfalse state hfeasible hsat
  | Unknown =>
    obtain ⟨v, hv, hcond⟩ : ∃ v, state.satisfies v = true ∧ cond v = true := by
      simpa using mt (hc.evaluate_false (e := cond) hfeasible).mpr (by simp [hres])
    obtain ⟨w, hw, hncond⟩ : ∃ v, state.satisfies v = true ∧ cond v = false := by
      simpa using mt (hc.evaluate_true (e := cond) hfeasible).mpr (by simp [hres])
    have hleft := htrue (state.addConstraint cond) ⟨v, by simp [hv, hcond]⟩ fun v => state.satisfies_addConstraint cond v
    have hright := hfalse (state.addConstraint fun v => !cond v) ⟨w, by simp [hw, hncond]⟩ fun v => state.satisfies_addConstraint _ v
    simpa [TimingSolver.fork, hres, PathState.branch] using
      Splits.append (fun v => state.satisfies_addConstraint cond v) (fun v => state.satisfies_addConstraint _ v) hleft hright

end

/-! ## The chosen example -/

section
variable {state : PathState V} {size : V → Nat} {solver : TimingSolver V}

theorem Halves.possible {possible : Nat → Prop} {n m : Nat} (h : Halves possible n m) (hn : possible n) : possible m := by
  induction h with
  | stop => exact hn
  | halve _ hhalf _ ih => exact ih hhalf

theorem Halves.unique {possible : Nat → Prop} {n a b : Nat} (ha : Halves possible n a) (hb : Halves possible n b) : a = b := by
  induction ha with
  | stop hstop =>
    cases hb with
    | stop => rfl
    | halve hlarge hhalf _ => exact absurd hhalf (hstop hlarge)
  | halve hlarge hhalf _ ih =>
    cases hb with
    | stop hstop => exact absurd hhalf (hstop hlarge)
    | halve _ _ hrest => exact ih hrest

theorem mayBeTrue_eq_iff (hc : solver.Correct) (n : Nat) :
    (solver.mayBeTrue state fun v => n == size v) = true ↔ Possible state size n := by
  simp only [hc.mayBeTrue, beq_iff_eq, Possible, eq_comm (a := n)]

theorem smallExample_halves (hc : solver.Correct) (n : Nat) :
    Halves (Possible state size) n (smallExample solver state size n) := by
  induction n using smallExample.induct solver state size with
  | case1 n hlarge tmp hmay ih =>
    rw [smallExample, if_pos hlarge, if_pos hmay]
    exact .halve hlarge ((mayBeTrue_eq_iff hc _).mp hmay) ih
  | case2 n hlarge tmp hmay =>
    rw [smallExample, if_pos hlarge, if_neg hmay]
    exact .stop fun _ hhalf => hmay ((mayBeTrue_eq_iff hc _).mpr hhalf)
  | case3 n hsmall =>
    rw [smallExample, if_neg hsmall]
    exact .stop fun hlarge => absurd hlarge hsmall

theorem possible_getValue (hc : solver.Correct) (hfeasible : state.Feasible) : Possible state size (solver.getValue state size) :=
  hc.getValue hfeasible

end

/-! ## Outcomes -/

section
variable {request : Request β} {state : PathState V} {size : V → Nat} {example' : Nat} {solver : TimingSolver V}
  {draws draws' : Draws}

/-- The new object has the size as far as an `unsigned` holds it. -/
theorem allocateConstant_allocates (hmalloc : ∀ n, request.malloc n ≠ 0) (n : Nat) :
    (allocateConstant request n).Allocates (n % 2 ^ 32) := by
  rw [allocateConstant, allocate, if_neg (hmalloc _)]
  cases request.reallocFrom with
  | none => exact ⟨⟨⟨_, n % 2 ^ 32, _⟩, _⟩, _, rfl, rfl⟩
  | some old => exact ⟨⟨⟨_, n % 2 ^ 32, _⟩, _⟩, _, rfl, rfl⟩

theorem Outcome.Allocates.unique {outcome : Outcome β} {n m : Nat} (hn : outcome.Allocates n) (hm : outcome.Allocates m) :
    n = m := by
  obtain ⟨os, unbound, rfl, rfl⟩ := hn
  obtain ⟨os', unbound', heq, rfl⟩ := hm
  injection heq with _ hos _
  rw [Option.some.inj hos]

theorem allocateConstant_allocates_iff (hmalloc : ∀ n, request.malloc n ≠ 0) {n : Nat} :
    (allocateConstant request n).Allocates n ↔ n < 2 ^ 32 := by
  have hsize := allocateConstant_allocates hmalloc n
  refine ⟨fun h => ?_, fun hlt => ?_⟩
  · rw [h.unique hsize]
    exact Nat.mod_lt _ (Nat.two_pow_pos 32)
  · rwa [Nat.mod_eq_of_lt hlt] at hsize

open Classical in
/-- What becomes of a valuation. -/
noncomputable def outcomeOf (request : Request β) (state : PathState V) (size : V → Nat) (example' : Nat) (v : V) : Outcome β :=
  if size v = example' then allocateConstant request example'
  else if SeveralOthers state size example' then
    if hugeThreshold < size v then .bound 0 none none else .terminated "concretized symbolic size" "model.err"
  else allocateConstant request (size v)

theorem executeOthers_splits (hc : solver.Correct) {s : PathState V} (hfeasible : s.Feasible)
    (hs : ∀ v, s.satisfies v = (state.satisfies v && !(example' == size v))) :
    Splits s (fun v outcome => outcome = outcomeOf request state size example' v)
      (executeOthers request solver draws s size) := by
  have hother {v} (hv : s.satisfies v = true) : state.satisfies v = true ∧ size v ≠ example' := by
    rw [hs, Bool.and_eq_true, Bool.not_eq_true', beq_eq_false_iff_ne] at hv
    exact ⟨hv.1, hv.2.symm⟩
  have hin {n} (hn : Possible state size n) (hne : n ≠ example') : Possible s size n := by
    obtain ⟨v, hv, rfl⟩ := hn
    exact ⟨v, by simp [hs, hv, hne.symm], rfl⟩
  rw [executeOthers]
  by_cases hmust : (solver.mustBeTrue s fun v => solver.getValue s size == size v) = true
  · have hall : ∀ v, s.satisfies v = true → size v = solver.getValue s size := by
      intro v hv
      exact (beq_iff_eq.mp (hc.mustBeTrue.mp hmust v hv)).symm
    have hsingle : ¬SeveralOthers state size example' := by
      rintro ⟨n, m, hn, hm, hne, hme, hnm⟩
      obtain ⟨v, hv, rfl⟩ := hin hn hne
      obtain ⟨w, hw, rfl⟩ := hin hm hme
      exact hnm ((hall v hv).trans (hall w hw).symm)
    rw [if_pos hmust]
    refine Splits.single hfeasible fun v hv => ?_
    rw [outcomeOf, if_neg (hother hv).2, if_neg hsingle, hall v hv]
  · have hseveral : SeveralOthers state size example' := by
      obtain ⟨v, hv, hne⟩ : ∃ v, s.satisfies v = true ∧ solver.getValue s size ≠ size v := by
        simpa using mt hc.mustBeTrue.mpr hmust
      obtain ⟨w, hw, hvalue⟩ := hc.getValue (e := size) hfeasible
      refine ⟨size w, size v, ⟨w, (hother hw).1, rfl⟩, ⟨v, (hother hv).1, rfl⟩, (hother hw).2, (hother hv).2, ?_⟩
      rwa [hvalue]
    simp only [if_neg hmust, List.map_eq_flatMap]
    refine splits_fork hc hfeasible (fun t ht hsat => ?_) (fun t ht hsat => ?_)
    · refine Splits.single ht fun v hv => ?_
      rw [hsat, Bool.and_eq_true, decide_eq_true_iff] at hv
      rw [outcomeOf, if_neg (hother hv.1).2, if_pos hseveral, if_pos hv.2]
    · refine Splits.single ht fun v hv => ?_
      rw [hsat, Bool.and_eq_true, Bool.not_eq_true', decide_eq_false_iff_not] at hv
      rw [outcomeOf, if_neg (hother hv.1).2, if_pos hseveral, if_neg hv.2]

/-- Each valuation gets its outcome. -/
theorem executeAlloc_splits (hc : solver.Correct) (hfeasible : state.Feasible)
    (hexample : Halves (Possible state size) (solver.getValue state size) example') :
    Splits state (fun v outcome => outcome = outcomeOf request state size example' v)
      (executeAlloc request solver draws draws' state size) := by
  obtain rfl := (smallExample_halves hc _).unique hexample
  rw [executeAlloc]
  cases hunique : solver.toUnique state size with
  | some value =>
    rw [TimingSolver.toUnique, Option.ite_none_right_eq_some] at hunique
    obtain ⟨hmust, hvalue⟩ := hunique
    obtain rfl := Option.some.inj hvalue
    have hall : ∀ v, state.satisfies v = true → size v = solver.getValue state size := by
      intro v hv
      simpa using hc.mustBeTrue.mp hmust v hv
    -- the example is possible, so it is the only size
    obtain ⟨w, hw, hsize⟩ := hexample.possible (possible_getValue hc hfeasible)
    refine Splits.single hfeasible fun v hv => ?_
    rw [outcomeOf, if_pos ((hall v hv).trans ((hall w hw).symm.trans hsize)), ← hsize, hall w hw]
  | none =>
    refine Splits.swap ?_
    simp only [List.map_eq_flatMap]
    refine splits_fork hc hfeasible (fun s hs hsat => ?_) (fun s hs hsat => executeOthers_splits hc hs hsat)
    refine Splits.single hs fun v hv => ?_
    rw [hsat, Bool.and_eq_true, beq_iff_eq] at hv
    rw [outcomeOf, if_pos hv.2.symm]

theorem hugeThreshold_eq : hugeThreshold = 2 ^ 64 - 2 ^ 31 := by decide

theorem intended_outcomeOf (hmalloc : ∀ n, request.malloc n ≠ 0) (hfits : Fits state size example') {v : V}
    (hv : state.satisfies v = true) : Intended state size example' v (outcomeOf request state size example' v) := by
  refine ⟨fun heq => ?_, fun hne hsingle => ?_, fun hne hseveral => ⟨fun hlarge => ?_, fun hsmall => ?_⟩⟩
  · rw [outcomeOf, if_pos heq, allocateConstant_allocates_iff hmalloc]
    exact hfits.chosen
  · rw [outcomeOf, if_neg hne, if_neg hsingle, allocateConstant_allocates_iff hmalloc]
    exact hfits.single hsingle _ ⟨v, hv, rfl⟩
  · have hhuge : hugeThreshold < size v := by
      by_contra hnot
      rw [Nat.not_lt, hugeThreshold_eq] at hnot
      exact hfits.several hseveral _ ⟨v, hv, rfl⟩ hne ⟨hlarge, hnot⟩
    rw [outcomeOf, if_neg hne, if_pos hseveral, if_pos hhuge]
  · have hhuge : ¬hugeThreshold < size v := fun hlt => by
      have hthreshold : 2 ^ 31 ≤ hugeThreshold := by decide
      exact absurd (Nat.lt_of_le_of_lt hthreshold hlt) (Nat.not_lt.mpr hsmall)
    rw [outcomeOf, if_neg hne, if_pos hseveral, if_neg hhuge]

/-- The sizes are split as intended exactly when they fit. -/
theorem executeAlloc_splits_iff (hc : solver.Correct) (hmalloc : ∀ n, request.malloc n ≠ 0) (hfeasible : state.Feasible)
    (hexample : Halves (Possible state size) (solver.getValue state size) example') :
    Splits state (Intended state size example') (executeAlloc request solver draws draws' state size) ↔
      Fits state size example' := by
  rw [splits_iff_of_eq (executeAlloc_splits hc hfeasible hexample)]
  refine ⟨fun h => ?_, fun hfits v hv => intended_outcomeOf hmalloc hfits hv⟩
  have hchosen : example' < 2 ^ 32 := by
    obtain ⟨v, hv, hsize⟩ := hexample.possible (possible_getValue hc hfeasible)
    have hallocates := (h v hv).1 hsize
    rwa [outcomeOf, if_pos hsize, allocateConstant_allocates_iff hmalloc] at hallocates
  refine ⟨hchosen, ?_, ?_⟩
  · rintro hsingle n ⟨v, hv, rfl⟩
    by_cases heq : size v = example'
    · rwa [heq]
    · have hallocates := (h v hv).2.1 heq hsingle
      rwa [outcomeOf, if_neg heq, if_neg hsingle, allocateConstant_allocates_iff hmalloc] at hallocates
  · rintro hseveral n ⟨v, hv, rfl⟩ hne ⟨hlarge, hbelow⟩
    have hnull := ((h v hv).2.2 hne hseveral).1 hlarge
    have hnot : ¬hugeThreshold < size v := by rwa [Nat.not_lt, hugeThreshold_eq]
    rw [outcomeOf, if_neg hne, if_pos hseveral, if_neg hnot] at hnull
    cases hnull

/-- A request for an object of the heap. -/
def heapRequest : Request Nat where
  isLocal := false
  zeroMemory := true
  reallocFrom := none
  malloc _ := 4096
  concrete byte := byte

/-- A size of 8 bytes, if the byte is 0, or else one of the two others. -/
def selectedSize (one two : Nat) (v : Fin 256) : Nat := if v = 0 then 8 else if v = 1 then one else two

theorem halves_selectedSize (one two : Nat) :
    Halves (Possible unconstrainedByte (selectedSize one two))
      ((TimingSolver.exhaustive (List.finRange 256)).getValue unconstrainedByte (selectedSize one two)) 8 := by
  have hvalue : (TimingSolver.exhaustive (List.finRange 256)).getValue unconstrainedByte (selectedSize one two) = 8 := rfl
  rw [hvalue]
  exact .stop fun hlarge => absurd hlarge (by decide)

theorem possible_selectedSize {one two n : Nat} (h : Possible unconstrainedByte (selectedSize one two) n) :
    n = 8 ∨ n = one ∨ n = two := by
  obtain ⟨v, -, rfl⟩ := h
  rw [selectedSize]
  split
  · exact .inl rfl
  · split
    · exact .inr (.inl rfl)
    · exact .inr (.inr rfl)

theorem executeAlloc_splits_twoSizes :
    Splits unconstrainedByte (Intended unconstrainedByte (selectedSize 16 16) 8)
      (executeAlloc heapRequest (TimingSolver.exhaustive (List.finRange 256)) ⟨false, fun _ => 0⟩ ⟨false, fun _ => 0⟩
        unconstrainedByte (selectedSize 16 16)) := by
  refine (executeAlloc_splits_iff (TimingSolver.exhaustive_correct List.mem_finRange) (fun _ => Nat.succ_ne_zero 4095) ⟨0, rfl⟩
    (halves_selectedSize 16 16)).mpr ⟨by decide, fun _ n hn => ?_, ?_⟩
  · rcases possible_selectedSize hn with rfl | rfl | rfl <;> decide
  · rintro - n hn - ⟨hlarge, -⟩
    rcases possible_selectedSize hn with rfl | rfl | rfl <;> exact absurd hlarge (by decide)

/-- The size 2^31 + 1 is not huge for the code: the byte 2 ends in the error. -/
theorem not_executeAlloc_splits_justAbove :
    (TimingSolver.exhaustive (List.finRange 256)).Correct ∧ (∀ n, heapRequest.malloc n ≠ 0) ∧ unconstrainedByte.Feasible ∧
      Halves (Possible unconstrainedByte (selectedSize 16 (2 ^ 31 + 1)))
        ((TimingSolver.exhaustive (List.finRange 256)).getValue unconstrainedByte (selectedSize 16 (2 ^ 31 + 1))) 8 ∧
      ¬Splits unconstrainedByte (Intended unconstrainedByte (selectedSize 16 (2 ^ 31 + 1)) 8)
        (executeAlloc heapRequest (TimingSolver.exhaustive (List.finRange 256)) ⟨false, fun _ => 0⟩ ⟨false, fun _ => 0⟩
          unconstrainedByte (selectedSize 16 (2 ^ 31 + 1))) := by
  have hc := TimingSolver.exhaustive_correct (V := Fin 256) List.mem_finRange
  refine ⟨hc, fun _ => Nat.succ_ne_zero 4095, ⟨0, rfl⟩, halves_selectedSize _ _, fun hsplits => ?_⟩
  rw [splits_iff_of_eq (executeAlloc_splits hc ⟨0, rfl⟩ (halves_selectedSize _ _))] at hsplits
  have hseveral : SeveralOthers unconstrainedByte (selectedSize 16 (2 ^ 31 + 1)) 8 :=
    ⟨16, 2 ^ 31 + 1, ⟨1, rfl, rfl⟩, ⟨2, rfl, rfl⟩, by decide, by decide, by decide⟩
  have hnull := ((hsplits 2 rfl).2.2 (by decide) hseveral).1 (by decide)
  rw [outcomeOf, if_neg (by decide), if_pos hseveral, if_neg (by decide)] at hnull
  cases hnull

end

end CapTaint.ExecuteAlloc
