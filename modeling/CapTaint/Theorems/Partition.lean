import Mathlib.Data.List.Nodup
import CapTaint.Branching

/-! # Branching and the path condition

A branch instruction splits the valuations of a state among the resulting states, unless the default of a switch is also
the successor of one of its cases and both may be taken. -/

namespace CapTaint
open Std

variable {V : Type}

/-- The solver answers every query truthfully. -/
structure TimingSolver.Correct (solver : TimingSolver V) : Prop where
  evaluate_true : ∀ {state : PathState V} {e}, state.Feasible →
    (solver.evaluate state e = .True ↔ ∀ v, state.satisfies v = true → e v = true)
  evaluate_false : ∀ {state : PathState V} {e}, state.Feasible →
    (solver.evaluate state e = .False ↔ ∀ v, state.satisfies v = true → e v = false)
  mustBeTrue : ∀ {state : PathState V} {e},
    solver.mustBeTrue state e = true ↔ ∀ v, state.satisfies v = true → e v = true
  getValue : ∀ {state : PathState V} {e}, state.Feasible →
    ∃ v, state.satisfies v = true ∧ e v = solver.getValue state e

/-- Each valuation of the state satisfies exactly one of the resulting states, which is at the block that the instruction
    selects, and each resulting state has a valuation. -/
structure Partitions (state : PathState V) (inst : BranchingInst V) (results : List (PathState V)) : Prop where
  home : ∀ v, state.satisfies v = true →
    ∃ i : Fin results.length, (results.get i).satisfies v = true ∧ (results.get i).block = inst.selects v ∧
      ∀ j : Fin results.length, (results.get j).satisfies v = true → j = i
  feasible : ∀ result ∈ results, result.Feasible

/-- Some valuation of the state goes to the block through a case. -/
def CaseTaken (state : PathState V) (cond : V → Nat) (si : SwitchInst) (b : Nat) : Prop :=
  ∃ case ∈ si.cases, case.2 = b ∧ ∃ v, state.satisfies v = true ∧ cond v = case.1

/-- The valuation matches no case. -/
def Unmatched (cond : V → Nat) (si : SwitchInst) (v : V) : Prop := ∀ case ∈ si.cases, case.1 ≠ cond v

/-- The default of the switch may be taken, and so may a case with the same successor. -/
def SharesDefault (state : PathState V) : BranchingInst V → Prop
  | .br .. => False
  | .switch cond si =>
    (∃ v, state.satisfies v = true ∧ Unmatched cond si v) ∧ CaseTaken state cond si si.defaultDest

@[simp] theorem PathState.satisfies_addConstraint (state : PathState V) (c : V → Bool) (v : V) :
    (state.addConstraint c).satisfies v = (state.satisfies v && c v) := by
  simp [PathState.addConstraint, satisfies, List.all_append]

@[simp] theorem PathState.satisfies_transferToBasicBlock (state : PathState V) (dst : Nat) (v : V) :
    (state.transferToBasicBlock dst).satisfies v = state.satisfies v := by
  simp only [transferToBasicBlock, satisfies]

/-! ## Successors of a switch -/

namespace SwitchInst

variable {si : SwitchInst} {value : Nat} {case : Nat × Nat}

theorem findCaseValue_of_mem (hcase : case ∈ si.cases) : si.findCaseValue case.1 = case.2 := by
  rw [findCaseValue]
  cases hfound : si.cases.find? fun c => c.1 == case.1 with
  | none =>
    have hne := List.find?_eq_none.mp hfound case hcase
    simp at hne
  | some found =>
    have hvalue : found.1 = case.1 := by simpa using List.find?_some hfound
    have heq := List.inj_on_of_nodup_map si.distinct (List.mem_of_find?_eq_some hfound) hcase hvalue
    show found.2 = case.2
    rw [heq]

theorem findCaseValue_default (hnone : ∀ case ∈ si.cases, case.1 ≠ value) : si.findCaseValue value = si.defaultDest := by
  have hfound : si.cases.find? (fun c => c.1 == value) = none := by simpa using hnone
  rw [findCaseValue, hfound]

end SwitchInst

namespace TimingSolver

variable {solver : TimingSolver V} {draws : Draws} {state : PathState V} {cond : V → Nat} {si : SwitchInst}

theorem Correct.mayBeTrue (hc : solver.Correct) {e : V → Bool} :
    solver.mayBeTrue state e = true ↔ ∃ v, state.satisfies v = true ∧ e v = true := by
  rw [TimingSolver.mayBeTrue, Bool.not_eq_true', mustBeFalse, ← Bool.not_eq_true, hc.mustBeTrue]
  simp

/-! ## The conditions of a switch -/

/-- After the cases in `done`, each block has the disjunction of its cases that may match, and the default what none
    of them matches. -/
structure Collected (state : PathState V) (cond : V → Nat) (done : List (Nat × Nat)) (t : Targets V) : Prop where
  mem : ∀ b, b ∈ t.targets ↔ ∃ case ∈ done, case.2 = b ∧ ∃ v, state.satisfies v = true ∧ cond v = case.1
  condition : ∀ b v, state.satisfies v = true →
    (t.targets.getD b (fun _ => false) v = true ↔ ∃ case ∈ done, case.2 = b ∧ cond v = case.1)
  isDefault : ∀ v, t.isDefault v = true ↔ ∀ case ∈ done, case.1 ≠ cond v

theorem collected_nil : Collected state cond [] ({} : Targets V) where
  mem b := by simp
  condition b v _ := by simp
  isDefault v := by simp

theorem Collected.addCase (hc : solver.Correct) {done : List (Nat × Nat)} {t : Targets V} (h : Collected state cond done t)
    (case : Nat × Nat) : Collected state cond (done ++ [case]) (solver.addCase state cond t case) := by
  have hmay : solver.mayBeTrue state (fun v => cond v == case.1) = true ↔
      ∃ v, state.satisfies v = true ∧ cond v = case.1 := by
    rw [hc.mayBeTrue]
    simp only [beq_iff_eq]
  refine ⟨fun b => ?_, fun b v hv => ?_, fun v => ?_⟩
  · simp only [TimingSolver.addCase, List.mem_append, List.mem_singleton, or_and_right, exists_or, exists_eq_left]
    rw [← h.mem b, ← hmay]
    split
    next hm => rw [TreeMap.mem_insert, Std.compare_eq_iff_eq, or_comm]; simp [hm]
    next hm => simp [hm]
  · simp only [TimingSolver.addCase, List.mem_append, List.mem_singleton, or_and_right, exists_or, exists_eq_left]
    rw [← h.condition b v hv]
    split
    next hm =>
      rw [TreeMap.getD_insert]
      by_cases hb : case.2 = b
      · rw [if_pos (Std.compare_eq_iff_eq.mpr hb), hb]
        simp [or_comm]
      · rw [if_neg (mt Std.compare_eq_iff_eq.mp hb)]
        simp [hb]
    next hm =>
      have hno : cond v ≠ case.1 := fun heq => hm (hmay.mpr ⟨v, hv, heq⟩)
      simp [hno]
  · simp only [TimingSolver.addCase, Bool.and_eq_true, h.isDefault, List.forall_mem_append, List.forall_mem_singleton]
    rw [Bool.not_eq_true', beq_eq_false_iff_ne, ne_comm]

theorem collected_cases (hc : solver.Correct) (cases : List (Nat × Nat)) {done : List (Nat × Nat)} {t : Targets V}
    (h : Collected state cond done t) : Collected state cond (done ++ cases) (cases.foldl (solver.addCase state cond) t) := by
  induction cases generalizing done t with
  | nil => simpa using h
  | cons case rest ih => simpa using ih (h.addCase hc case)

/-- The targets before the default is inserted. -/
theorem collected_switch (hc : solver.Correct) (state : PathState V) (cond : V → Nat) (si : SwitchInst) :
    Collected state cond si.cases (si.cases.foldl (solver.addCase state cond) {}) := by
  simpa using collected_cases hc si.cases collected_nil

/-- What an entry of the targets is: the condition of a block with cases, or that of the default, whose block has none. -/
theorem targets_cases (hc : solver.Correct) {b : Nat} {f : V → Bool} (hf : (solver.targets state cond si)[b]? = some f) :
    (CaseTaken state cond si b ∧
        ∀ v, state.satisfies v = true → (f v = true ↔ ∃ case ∈ si.cases, case.2 = b ∧ cond v = case.1)) ∨
      (¬CaseTaken state cond si b ∧ b = si.defaultDest ∧ (∃ v, state.satisfies v = true ∧ f v = true) ∧
        ∀ v, f v = true ↔ Unmatched cond si v) := by
  have hall := collected_switch hc state cond si
  rw [targets] at hf
  generalize si.cases.foldl (solver.addCase state cond) {} = t at hf hall
  have hentry : t.targets[b]? = some f → CaseTaken state cond si b ∧
      ∀ v, state.satisfies v = true → (f v = true ↔ ∃ case ∈ si.cases, case.2 = b ∧ cond v = case.1) := by
    intro hf
    refine ⟨(hall.mem b).mp (by rw [TreeMap.mem_iff_isSome_getElem?, hf]; rfl), fun v hv => ?_⟩
    rw [← hall.condition b v hv, TreeMap.getD_eq_getD_getElem?, hf, Option.getD_some]
  by_cases hmay : solver.mayBeTrue state t.isDefault = true
  · rw [if_pos hmay, TreeMap.getElem?_insertIfNew] at hf
    split at hf
    next hnew =>
      obtain rfl := Option.some.inj hf
      have hb := Std.compare_eq_iff_eq.mp hnew.1
      exact .inr ⟨fun htaken => hnew.2 (hb ▸ (hall.mem b).mpr htaken), hb.symm, hc.mayBeTrue.mp hmay, hall.isDefault⟩
    next => exact .inl (hentry hf)
  · rw [if_neg hmay] at hf
    exact .inl (hentry hf)

/-- The successor that a valuation of the state selects is one of the targets. -/
theorem targets_mem (hc : solver.Correct) (cond : V → Nat) (si : SwitchInst) {v : V} (hv : state.satisfies v = true) :
    ∃ f, (solver.targets state cond si)[si.findCaseValue (cond v)]? = some f := by
  have hall := collected_switch hc state cond si
  rw [← Option.isSome_iff_exists, ← TreeMap.mem_iff_isSome_getElem?, targets]
  generalize si.cases.foldl (solver.addCase state cond) {} = t at hall
  by_cases hcase : ∃ case ∈ si.cases, case.1 = cond v
  · obtain ⟨case, hmem, hvalue⟩ := hcase
    have hin : si.findCaseValue (cond v) ∈ t.targets := by
      rw [← hvalue, SwitchInst.findCaseValue_of_mem hmem]
      exact (hall.mem _).mpr ⟨case, hmem, rfl, v, hv, hvalue.symm⟩
    split
    next => exact TreeMap.mem_insertIfNew.mpr (.inr hin)
    next => exact hin
  · have hnone : Unmatched cond si v := fun case hmem heq => hcase ⟨case, hmem, heq⟩
    have hmay : solver.mayBeTrue state t.isDefault = true := hc.mayBeTrue.mpr ⟨v, hv, (hall.isDefault v).mpr hnone⟩
    rw [if_pos hmay, SwitchInst.findCaseValue_default hnone]
    exact TreeMap.mem_insertIfNew_self

/-- Only the selected successor has a condition that the valuation satisfies. -/
theorem targets_selected (hc : solver.Correct) {b : Nat} {f : V → Bool} (hf : (solver.targets state cond si)[b]? = some f)
    {v : V} (hv : state.satisfies v = true) (hfv : f v = true) : b = si.findCaseValue (cond v) := by
  obtain ⟨-, hcases⟩ | ⟨-, rfl, -, hdefault⟩ := targets_cases hc hf
  · obtain ⟨case, hmem, rfl, hvalue⟩ := (hcases v hv).mp hfv
    rw [hvalue, SwitchInst.findCaseValue_of_mem hmem]
  · exact (SwitchInst.findCaseValue_default ((hdefault v).mp hfv)).symm

theorem targets_feasible (hc : solver.Correct) {b : Nat} {f : V → Bool}
    (hf : (solver.targets state cond si)[b]? = some f) : ∃ v, state.satisfies v = true ∧ f v = true := by
  obtain ⟨⟨case, hmem, hb, v, hv, hvalue⟩, hcases⟩ | ⟨-, -, hfeasible, -⟩ := targets_cases hc hf
  · exact ⟨v, hv, (hcases v hv).mpr ⟨case, hmem, hb, hvalue⟩⟩
  · exact hfeasible

/-- A valuation is lost exactly when it takes the default and the default's block has a case that may be taken. -/
theorem targets_satisfied_iff (hc : solver.Correct) {v : V} (hv : state.satisfies v = true) {f : V → Bool}
    (hf : (solver.targets state cond si)[si.findCaseValue (cond v)]? = some f) :
    f v = true ↔ ¬(Unmatched cond si v ∧ CaseTaken state cond si si.defaultDest) := by
  by_cases hnone : Unmatched cond si v
  · rw [SwitchInst.findCaseValue_default hnone] at hf
    obtain ⟨htaken, hcases⟩ | ⟨htaken, -, -, hdefault⟩ := targets_cases hc hf
    · rw [hcases v hv]
      refine iff_of_false ?_ (fun hno => hno ⟨hnone, htaken⟩)
      rintro ⟨case, hmem, -, hvalue⟩
      exact hnone case hmem hvalue.symm
    · exact iff_of_true ((hdefault v).mpr hnone) fun hboth => htaken hboth.2
  · obtain ⟨case, hmem, hvalue⟩ : ∃ case ∈ si.cases, case.1 = cond v := by simpa [Unmatched] using hnone
    rw [← hvalue, SwitchInst.findCaseValue_of_mem hmem] at hf
    obtain ⟨-, hcases⟩ | ⟨htaken, -⟩ := targets_cases hc hf
    · exact iff_of_true ((hcases v hv).mpr ⟨case, hmem, rfl, hvalue.symm⟩) fun hboth => hnone hboth.1
    · exact absurd ⟨case, hmem, rfl, v, hv, hvalue.symm⟩ htaken

/-! ## The resulting states -/

theorem copies_eq (draws : Draws) (state : PathState V) (n : Nat) : copies draws state n = List.replicate (n + 1) state := by
  induction n with
  | zero => rfl
  | succ n ih =>
    have hpick : draws.picks n % (n + 1) < n + 1 := Nat.mod_lt _ n.succ_pos
    simp only [copies, ih, PathState.branch]
    rw [List.getD_eq_getElem?_getD, List.getElem?_replicate, if_pos hpick, Option.getD_some, ← List.replicate_succ']

/-- Every state of `branch` is a copy of the given one with one of the conditions. -/
theorem branch_eq {conditions : List (V → Bool)} (hne : conditions ≠ []) :
    branch draws state conditions = some (conditions.map state.addConstraint) := by
  obtain ⟨c, rest, rfl⟩ := List.exists_cons_of_ne_nil hne
  rw [branch, copies_eq, Option.some.injEq, ← List.length_cons (a := c)]
  generalize c :: rest = conditions
  induction conditions with
  | nil => rfl
  | cons c rest ih => rw [List.length_cons, List.replicate_succ, List.zipWith_cons_cons, ih, List.map_cons]

/-- The results of a switch on a condition with several values. -/
theorem executeInstruction_switch (hunique : solver.toUnique state cond = none)
    (hne : (solver.targets state cond si).toList ≠ []) :
    solver.executeInstruction draws state (.switch cond si) =
      some ((solver.targets state cond si).toList.map fun entry =>
        (state.addConstraint entry.2).transferToBasicBlock entry.1) := by
  simp only [executeInstruction, hunique]
  rw [branch_eq (by simpa using hne), Option.map_some, List.map_map, List.zipWith_map_right, List.zipWith_self]
  rfl

end TimingSolver

theorem partitions_of {state : PathState V} {inst : BranchingInst V} {results : List (PathState V)}
    (hhome : ∀ v, state.satisfies v = true → ∃ result ∈ results, result.satisfies v = true ∧ result.block = inst.selects v)
    (hdisjoint : results.Pairwise fun a b => ∀ v, a.satisfies v = true → b.satisfies v = true → False)
    (hfeasible : ∀ result ∈ results, result.Feasible) : Partitions state inst results := by
  refine ⟨fun v hv => ?_, hfeasible⟩
  obtain ⟨result, hmem, hsat, hblock⟩ := hhome v hv
  obtain ⟨i, rfl⟩ := List.get_of_mem hmem
  refine ⟨i, hsat, hblock, fun j hj => ?_⟩
  have hpairs := List.pairwise_iff_getElem.mp hdisjoint
  rcases Nat.lt_trichotomy i j with hlt | heq | hlt
  · exact (hpairs i j i.2 j.2 hlt v hsat hj).elim
  · exact Fin.ext heq.symm
  · exact (hpairs j i j.2 i.2 hlt v hj hsat).elim

variable {solver : TimingSolver V} {draws : Draws} {state : PathState V}

/-- A state that goes on alone keeps its valuations. -/
theorem partitions_single (hfeasible : state.Feasible) {inst : BranchingInst V} {dst : Nat}
    (hselects : ∀ v, state.satisfies v = true → inst.selects v = dst) :
    Partitions state inst [state.transferToBasicBlock dst] := by
  refine partitions_of (fun v hv => ?_) (List.pairwise_singleton _ _) fun result hmem => ?_
  · exact ⟨_, List.mem_singleton_self _, hv, (hselects v hv).symm⟩
  · rw [List.mem_singleton.mp hmem]
    exact hfeasible

theorem partitions_br (hc : solver.Correct) (hfeasible : state.Feasible) (cond : V → Bool) (successor₀ successor₁ : Nat) :
    ∃ results, solver.executeInstruction draws state (.br cond successor₀ successor₁) = some results ∧
      Partitions state (.br cond successor₀ successor₁) results := by
  cases hres : solver.evaluate state cond with
  | True =>
    refine ⟨[state.transferToBasicBlock successor₀], by simp [TimingSolver.executeInstruction, TimingSolver.fork, hres], ?_⟩
    refine partitions_single hfeasible fun v hv => ?_
    simp [BranchingInst.selects, (hc.evaluate_true hfeasible).mp hres v hv]
  | False =>
    refine ⟨[state.transferToBasicBlock successor₁], by simp [TimingSolver.executeInstruction, TimingSolver.fork, hres], ?_⟩
    refine partitions_single hfeasible fun v hv => ?_
    simp [BranchingInst.selects, (hc.evaluate_false hfeasible).mp hres v hv]
  | Unknown =>
    have hmayFalse : ∃ v, state.satisfies v = true ∧ cond v = false := by
      have hnot := mt (hc.evaluate_true (e := cond) hfeasible).mpr (by simp [hres])
      simpa using hnot
    have hmayTrue : ∃ v, state.satisfies v = true ∧ cond v = true := by
      have hnot := mt (hc.evaluate_false (e := cond) hfeasible).mpr (by simp [hres])
      simpa using hnot
    let trueState := (state.addConstraint cond).transferToBasicBlock successor₀
    let falseState := (state.addConstraint fun v => !cond v).transferToBasicBlock successor₁
    -- the copy has the constraints of the state, so a swap of the two changes nothing
    refine ⟨[trueState, falseState], by simp [TimingSolver.executeInstruction, TimingSolver.fork, hres, PathState.branch,
      trueState, falseState], partitions_of (fun v hv => ?_) ?_ fun result hmem => ?_⟩
    · cases hcond : cond v with
      | true =>
        refine ⟨trueState, List.mem_cons_self, by simp [trueState, hv, hcond], ?_⟩
        simp [trueState, BranchingInst.selects, hcond, PathState.transferToBasicBlock]
      | false =>
        refine ⟨falseState, List.mem_cons_of_mem _ List.mem_cons_self, by simp [falseState, hv, hcond], ?_⟩
        simp [falseState, BranchingInst.selects, hcond, PathState.transferToBasicBlock]
    · rw [List.pairwise_pair]
      intro v htrue hfalse
      simp only [trueState, falseState, PathState.satisfies_transferToBasicBlock, PathState.satisfies_addConstraint,
        Bool.and_eq_true, Bool.not_eq_true'] at htrue hfalse
      exact Bool.noConfusion (htrue.2.symm.trans hfalse.2)
    · rcases List.mem_pair.mp hmem with rfl | rfl
      · obtain ⟨v, hv, hcond⟩ := hmayTrue
        exact ⟨v, by simp [trueState, hv, hcond]⟩
      · obtain ⟨v, hv, hcond⟩ := hmayFalse
        exact ⟨v, by simp [falseState, hv, hcond]⟩

theorem partitions_switch_iff (hc : solver.Correct) (hfeasible : state.Feasible) (cond : V → Nat) (si : SwitchInst) :
    (∃ results, solver.executeInstruction draws state (.switch cond si) = some results ∧
      Partitions state (.switch cond si) results) ↔ ¬SharesDefault state (.switch cond si) := by
  obtain ⟨v₀, hv₀⟩ := hfeasible
  cases hunique : solver.toUnique state cond with
  | some value =>
    -- one value means one successor, so the default and a case are not both taken
    have hvalue : ∀ v, state.satisfies v = true → cond v = value := by
      rw [TimingSolver.toUnique, Option.ite_none_right_eq_some] at hunique
      obtain ⟨hmust, hsome⟩ := hunique
      obtain rfl := Option.some.inj hsome
      intro v hv
      simpa using hc.mustBeTrue.mp hmust v hv
    refine iff_of_true ⟨[state.transferToBasicBlock (si.findCaseValue value)],
      by simp [TimingSolver.executeInstruction, hunique], partitions_single ⟨v₀, hv₀⟩ fun v hv => ?_⟩ ?_
    · rw [BranchingInst.selects, hvalue v hv]
    · rintro ⟨⟨v, hv, hnone⟩, case, hmem, -, w, hw, hcase⟩
      refine hnone case hmem ?_
      rw [← hcase, hvalue v hv, hvalue w hw]
  | none =>
    have hne : (solver.targets state cond si).toList ≠ [] := by
      obtain ⟨f, hf⟩ := TimingSolver.targets_mem hc cond si hv₀
      exact List.ne_nil_of_mem (TreeMap.mem_toList_iff_getElem?_eq_some.mpr hf)
    rw [TimingSolver.executeInstruction_switch hunique hne]
    constructor
    · rintro ⟨results, heq, hparts⟩ ⟨⟨v, hv, hnone⟩, htaken⟩
      obtain rfl := Option.some.inj heq
      obtain ⟨i, hsat, -, -⟩ := hparts.home v hv
      obtain ⟨⟨b, f⟩, hentry, hresult⟩ := List.mem_map.mp (List.get_mem _ i)
      rw [← hresult] at hsat
      have hfv : f v = true := by simpa [hv] using hsat
      have hf := TreeMap.mem_toList_iff_getElem?_eq_some.mp hentry
      obtain rfl := TimingSolver.targets_selected hc hf hv hfv
      exact (TimingSolver.targets_satisfied_iff hc hv hf).mp hfv ⟨hnone, htaken⟩
    · intro hshares
      refine ⟨_, rfl, partitions_of (fun v hv => ?_) ?_ fun result hmem => ?_⟩
      · obtain ⟨f, hf⟩ := TimingSolver.targets_mem hc cond si hv
        have hfv := (TimingSolver.targets_satisfied_iff hc hv hf).mpr fun hlost => hshares ⟨⟨v, hv, hlost.1⟩, hlost.2⟩
        refine ⟨_, List.mem_map_of_mem (TreeMap.mem_toList_iff_getElem?_eq_some.mpr hf), ?_, rfl⟩
        simp [hv, hfv]
      · rw [List.pairwise_map]
        refine TreeMap.distinct_keys_toList.imp_of_mem fun {a b} ha hb hkeys v hav hbv => ?_
        -- a valuation that satisfies both would select both blocks
        simp only [PathState.satisfies_transferToBasicBlock, PathState.satisfies_addConstraint, Bool.and_eq_true] at hav hbv
        have hblockA := TimingSolver.targets_selected hc (TreeMap.mem_toList_iff_getElem?_eq_some.mp ha) hav.1 hav.2
        have hblockB := TimingSolver.targets_selected hc (TreeMap.mem_toList_iff_getElem?_eq_some.mp hb) hbv.1 hbv.2
        exact hkeys (Std.compare_eq_iff_eq.mpr (hblockA.trans hblockB.symm))
      · obtain ⟨⟨b, f⟩, hentry, rfl⟩ := List.mem_map.mp hmem
        obtain ⟨v, hv, hfv⟩ := TimingSolver.targets_feasible hc (TreeMap.mem_toList_iff_getElem?_eq_some.mp hentry)
        exact ⟨v, by simp [hv, hfv]⟩

/-- A branch instruction partitions the path condition exactly when its default does not share a successor with a case
    while both may be taken. -/
theorem branching_partitions_iff {solver : TimingSolver V} {draws : Draws} {state : PathState V} {inst : BranchingInst V}
    (hc : solver.Correct) (hfeasible : state.Feasible) :
    (∃ results, solver.executeInstruction draws state inst = some results ∧ Partitions state inst results) ↔
      ¬SharesDefault state inst := by
  cases inst with
  | br cond successor₀ successor₁ => exact iff_of_true (partitions_br hc hfeasible cond successor₀ successor₁) not_false
  | switch cond si => exact partitions_switch_iff hc hfeasible cond si

/-- A solver that tries all valuations of a list. -/
def TimingSolver.exhaustive (values : List V) : TimingSolver V where
  evaluate state e :=
    if values.all fun v => !state.satisfies v || e v then .True
    else if values.all fun v => !state.satisfies v || !e v then .False
    else .Unknown
  mustBeTrue state e := values.all fun v => !state.satisfies v || e v
  getValue state e := ((values.find? state.satisfies).map e).getD 0

theorem TimingSolver.exhaustive_correct {values : List V} (hall : ∀ v, v ∈ values) : (exhaustive values).Correct := by
  have hmust (state : PathState V) (e : V → Bool) :
      (values.all fun v => !state.satisfies v || e v) = true ↔ ∀ v, state.satisfies v = true → e v = true := by
    rw [List.all_eq_true]
    refine ⟨fun h v hv => ?_, fun h v _ => ?_⟩
    · simpa [hv] using h v (hall v)
    · cases hv : state.satisfies v with
      | false => rfl
      | true => simp [h v hv]
  refine ⟨fun {state e} hfeasible => ?_, fun {state e} hfeasible => ?_, fun {state e} => hmust state e, fun {state e} hfeasible => ?_⟩
  · simp only [exhaustive, ← hmust]
    split
    next h => exact iff_of_true rfl h
    next h => split <;> simpa using h
  · obtain ⟨v, hv⟩ := hfeasible
    have hneg := hmust state fun v => !e v
    simp only [Bool.not_eq_true'] at hneg
    simp only [exhaustive, ← hneg]
    split
    next h =>
      refine iff_of_false Validity.noConfusion fun hfalse => ?_
      exact Bool.noConfusion (((hmust state e).mp h v hv).symm.trans (hneg.mp hfalse v hv))
    next =>
      split
      next h => exact iff_of_true rfl h
      next h => exact iff_of_false Validity.noConfusion h
  · obtain ⟨v, hv⟩ := hfeasible
    cases hfound : values.find? state.satisfies with
    | none => exact absurd hv (by simpa using List.find?_eq_none.mp hfound v (hall v))
    | some w => exact ⟨w, List.find?_some hfound, by simp [exhaustive, hfound]⟩

/-- A state without constraints on its one symbolic byte, at block 0. -/
def unconstrainedByte : PathState (Fin 256) := { constraints := [], block := 0 }

/-- `switch` on the byte: 0 goes to block 10, 1 to block 11, and the rest to the given block. -/
def twoCases (defaultDest : Nat) : BranchingInst (Fin 256) :=
  .switch (fun v => v.val) { cases := [(0, 10), (1, 11)], defaultDest := defaultDest, distinct := by decide }

theorem branching_partitions_ownDefault : ∃ results,
    (TimingSolver.exhaustive (List.finRange 256)).executeInstruction { swaps := false, picks := fun _ => 0 }
      unconstrainedByte (twoCases 12) = some results ∧ Partitions unconstrainedByte (twoCases 12) results := by
  refine (branching_partitions_iff (TimingSolver.exhaustive_correct List.mem_finRange) ⟨0, rfl⟩).mpr ?_
  rintro ⟨-, case, hmem, hdest, -⟩
  simp only [List.mem_cons, List.not_mem_nil, or_false] at hmem
  rcases hmem with rfl | rfl <;> simp at hdest

/-- The byte 2 selects block 10 by default, but block 10 has the condition of the case 0 alone. -/
theorem not_branching_partitions_sharedDefault :
    (TimingSolver.exhaustive (List.finRange 256)).Correct ∧ unconstrainedByte.Feasible ∧
      ¬∃ results, (TimingSolver.exhaustive (List.finRange 256)).executeInstruction { swaps := false, picks := fun _ => 0 }
        unconstrainedByte (twoCases 10) = some results ∧ Partitions unconstrainedByte (twoCases 10) results := by
  have hc : (TimingSolver.exhaustive (List.finRange 256)).Correct := TimingSolver.exhaustive_correct List.mem_finRange
  refine ⟨hc, ⟨0, rfl⟩, fun hparts => (partitions_switch_iff hc ⟨0, rfl⟩ _ _).mp hparts ⟨⟨2, rfl, ?_⟩, ?_⟩⟩
  · simp [Unmatched]
  · exact ⟨(0, 10), List.mem_cons_self, rfl, 0, rfl, rfl⟩

end CapTaint
