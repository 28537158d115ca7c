import CapTaint.Encode.Check

/-! The solver before and after the queries of the encoder. A query for which z3 throws leaves its backtracking point
    behind, and every later query sees its constraints. -/

namespace CapTaint.Encode
open Std Smt

variable {φ V : Type}

/-! ### Branches -/

/-- The query of the branch saw the assertions before the loop and its own constraints. -/
def OwnQuery (b : Branches φ) (solver : Solver (Constraint φ)) (query : Nat × List (Constraint φ)) : Prop :=
  ∃ curr, b.ifFormula[query.1]? = some curr ∧ query.2 = solver.assertions ++ b.constraints query.1 curr

/-- The queries of the branches do not depend on each other, and the solver is as before when all are made. -/
def BranchesIndependent (b : Branches φ) (outcomes : Nat → CheckResult V) (solver : Solver (Constraint φ)) : Prop :=
  (∀ query ∈ (checkIf b outcomes solver).queries, OwnQuery b solver query) ∧
    ((checkIf b outcomes solver).aborted = false →
      (checkIf b outcomes solver).solver.depth = solver.depth ∧
        (checkIf b outcomes solver).solver.assertions = solver.assertions)

/-- The run stops at branch `i`: no prefix can be computed from the model. -/
def Aborts (b : Branches φ) (outcomes : Nat → CheckResult V) (i : Nat) : Prop :=
  b.branch i = true ∧ ∃ curr m, b.ifFormula[i]? = some curr ∧ outcomes i = .sat m ∧ computePrefix b.trace m curr.1 = none

/-- No query that is made throws. -/
def NoneThrows (b : Branches φ) (outcomes : Nat → CheckResult V) : Prop :=
  ∀ i < b.ifFormula.length, b.branch i = true → (∀ j < i, ¬Aborts b outcomes j) → outcomes i ≠ .exception

/-- Nothing is left behind. -/
structure Clean (b : Branches φ) (solver : Solver (Constraint φ)) (s : CheckIf φ) : Prop where
  solver_eq : s.solver = solver
  running : s.aborted = false
  queries : ∀ query ∈ s.queries, OwnQuery b solver query

/-- A query saw constraints of another one, or the next query will. -/
def Spoiled (b : Branches φ) (solver : Solver (Constraint φ)) (s : CheckIf φ) : Prop :=
  (∃ query ∈ s.queries, ¬OwnQuery b solver query) ∨
    s.aborted = false ∧ solver.assertions.length < s.solver.assertions.length

variable {b : Branches φ} {outcomes : Nat → CheckResult V} {solver : Solver (Constraint φ)} {s : CheckIf φ} {i : Nat}
  {curr : Event × φ} {outcome : CheckResult V}

theorem constraints_length_pos : 0 < (b.constraints i curr).length := by
  simp only [Branches.constraints, List.length_append, List.length_singleton]
  omega

theorem checkBranch_aborted (h : s.aborted = true) : checkBranch b outcome s i curr = s := by
  rw [checkBranch, if_pos h]

/-- The queries after a round: those before and, when one was made, the new one. -/
theorem checkBranch_queries (hrunning : s.aborted = false) :
    (checkBranch b outcome s i curr).queries =
      s.queries ++ if b.branch i then [(i, s.solver.assertions ++ b.constraints i curr)] else [] := by
  rw [checkBranch, if_neg (by simp [hrunning])]
  by_cases hbranch : b.branch i
  · rw [if_pos hbranch, if_pos hbranch, ← Solver.assertions_addAll_push]
    cases outcome with
    | sat m =>
      simp only
      split <;> rfl
    | unsat => rfl
    | unknown => rfl
    | exception => rfl
  · rw [if_neg hbranch, if_neg hbranch]
    simp

theorem ownQuery_snoc (outcome : CheckResult V) (h : ∀ query ∈ s.queries, OwnQuery b solver query)
    (hsolver : s.solver = solver) (hcurr : b.ifFormula[i]? = some curr) (hrunning : s.aborted = false) :
    ∀ query ∈ (checkBranch b outcome s i curr).queries, OwnQuery b solver query := by
  intro query hquery
  rw [checkBranch_queries hrunning] at hquery
  rcases List.mem_append.mp hquery with hquery | hquery
  · exact h query hquery
  split at hquery
  swap
  · cases hquery
  obtain rfl := List.mem_singleton.mp hquery
  exact ⟨curr, hcurr, by rw [hsolver]⟩

/-- A round in which z3 throws. -/
theorem Clean.exception (h : Clean b solver s) (hbranch : b.branch i = true) :
    Spoiled b solver (checkBranch b (.exception : CheckResult V) s i curr) := by
  refine .inr ?_
  have hlength : 0 < (b.constraints i curr).length := constraints_length_pos
  rw [checkBranch, if_neg (by simp [h.running]), if_pos hbranch]
  refine ⟨h.running, ?_⟩
  simp only [h.solver_eq, Solver.assertions_addAll_push, List.length_append]
  omega

/-- Any other round restores the solver, or stops the run. -/
theorem Clean.step (h : Clean b solver s) (hcurr : b.ifFormula[i]? = some curr)
    (houtcome : b.branch i = true → outcome ≠ .exception) :
    (Clean b solver (checkBranch b outcome s i curr) ∧
        (b.branch i = true → ∀ m, outcome = .sat m → computePrefix b.trace m curr.1 ≠ none)) ∨
      ((checkBranch b outcome s i curr).aborted = true ∧
        (∀ query ∈ (checkBranch b outcome s i curr).queries, OwnQuery b solver query) ∧
        b.branch i = true ∧ ∃ m, outcome = .sat m ∧ computePrefix b.trace m curr.1 = none) := by
  have hqueries := ownQuery_snoc outcome h.queries h.solver_eq hcurr h.running
  by_cases hbranch : b.branch i = true
  swap
  · refine .inl ⟨⟨?_, ?_, hqueries⟩, fun hbranch' => absurd hbranch' hbranch⟩
    · rw [checkBranch, if_neg (by simp [h.running]), if_neg hbranch]
      exact h.solver_eq
    · rw [checkBranch, if_neg (by simp [h.running]), if_neg hbranch]
      exact h.running
  revert hqueries
  rw [checkBranch, if_neg (by simp [h.running]), if_pos hbranch]
  cases outcome with
  | exception => exact absurd rfl (houtcome hbranch)
  | unsat | unknown =>
    intro hqueries
    exact .inl ⟨⟨Solver.pop_addAll_push.trans h.solver_eq, h.running, hqueries⟩, fun _ m hm => by cases hm⟩
  | sat m =>
    cases hcompute : computePrefix b.trace m curr.1 with
    | some vecEvent =>
      intro hqueries
      simp only [hcompute] at hqueries ⊢
      refine .inl ⟨⟨Solver.pop_addAll_push.trans h.solver_eq, h.running, hqueries⟩, fun _ m' hm' => ?_⟩
      cases hm'
      simp [hcompute]
    | none =>
      intro hqueries
      simp only [hcompute] at hqueries ⊢
      exact .inr ⟨trivial, hqueries, hbranch, m, rfl, hcompute⟩

/-- What was left behind stays. -/
theorem Spoiled.step (h : Spoiled b solver s) (hcurr : b.ifFormula[i]? = some curr) :
    Spoiled b solver (checkBranch b outcome s i curr) := by
  cases hrunning : s.aborted with
  | true => rwa [checkBranch_aborted hrunning]
  | false =>
    rcases h with ⟨query, hquery, hbad⟩ | ⟨-, hlonger⟩
    · refine .inl ⟨query, ?_, hbad⟩
      rw [checkBranch_queries hrunning]
      exact List.mem_append_left _ hquery
    by_cases hbranch : b.branch i = true
    · refine .inl ⟨(i, s.solver.assertions ++ b.constraints i curr), ?_, ?_⟩
      · rw [checkBranch_queries hrunning, if_pos hbranch]
        exact List.mem_append_right _ List.mem_cons_self
      · rintro ⟨curr', hcurr', heq⟩
        obtain rfl : curr = curr' := Option.some.inj (hcurr.symm.trans hcurr')
        have hlength := congrArg List.length heq
        simp only [List.length_append] at hlength
        omega
    · refine .inr ?_
      rw [checkBranch, if_neg (by simp [hrunning]), if_neg hbranch]
      exact ⟨hrunning, hlonger⟩

/-- The rounds from branch `n` on. -/
def checkFrom (b : Branches φ) (outcomes : Nat → CheckResult V) (n : Nat) (l : List (Event × φ)) (s : CheckIf φ) : CheckIf φ :=
  (l.zipIdx n).foldl (fun s item => checkBranch b (outcomes item.2) s item.2 item.1) s

theorem checkFrom_cons {n : Nat} {l : List (Event × φ)} :
    checkFrom b outcomes n (curr :: l) s = checkFrom b outcomes (n + 1) l (checkBranch b (outcomes n) s n curr) := rfl

theorem checkFrom_aborted {n : Nat} {l : List (Event × φ)} (h : s.aborted = true) : checkFrom b outcomes n l s = s := by
  induction l generalizing n with
  | nil => rfl
  | cons curr l ih => rw [checkFrom_cons, checkBranch_aborted h, ih]

section
variable {n : Nat} {l : List (Event × φ)}

theorem Spoiled.checkFrom (h : Spoiled b solver s) (hl : ∀ k, l[k]? = b.ifFormula[n + k]?) :
    Spoiled b solver (checkFrom b outcomes n l s) := by
  induction l generalizing n s with
  | nil => exact h
  | cons curr l ih =>
    rw [checkFrom_cons]
    refine ih (h.step (by rw [← Nat.add_zero n, ← hl]; rfl)) fun k => ?_
    rw [Nat.add_right_comm, Nat.add_assoc, ← hl]
    rfl

/-- The whole loop, from a state with nothing left behind. -/
theorem Clean.checkFrom (outcomes : Nat → CheckResult V) (h : Clean b solver s) (hl : ∀ k, l[k]? = b.ifFormula[n + k]?)
    (hbefore : ∀ j < n, ¬Aborts b outcomes j) :
    ((∀ i, n ≤ i → i < n + l.length → b.branch i = true → (∀ j < i, ¬Aborts b outcomes j) → outcomes i ≠ .exception) ∧
        (∀ query ∈ (checkFrom b outcomes n l s).queries, OwnQuery b solver query) ∧
        ((checkFrom b outcomes n l s).aborted = false → (checkFrom b outcomes n l s).solver = solver)) ∨
      (∃ i, n ≤ i ∧ i < n + l.length ∧ b.branch i = true ∧ (∀ j < i, ¬Aborts b outcomes j) ∧ outcomes i = .exception) ∧
        Spoiled b solver (checkFrom b outcomes n l s) := by
  induction l generalizing n s with
  | nil =>
    refine .inl ⟨fun i hi hi' => ?_, h.queries, fun _ => h.solver_eq⟩
    simp only [List.length_nil] at hi'
    omega
  | cons curr l ih =>
    have hcurr : b.ifFormula[n]? = some curr := by rw [← Nat.add_zero n, ← hl]; rfl
    have htail : ∀ k, l[k]? = b.ifFormula[n + 1 + k]? := by
      intro k
      rw [Nat.add_right_comm, Nat.add_assoc, ← hl]
      rfl
    rw [checkFrom_cons]
    by_cases hthrows : b.branch n = true ∧ outcomes n = .exception
    · refine .inr ⟨⟨n, Nat.le_refl n, by simp, hthrows.1, hbefore, hthrows.2⟩, ?_⟩
      rw [hthrows.2]
      exact (h.exception hthrows.1).checkFrom htail
    · have houtcome : b.branch n = true → outcomes n ≠ .exception := fun hbranch heq => hthrows ⟨hbranch, heq⟩
      rcases h.step hcurr houtcome with ⟨hclean, hcomputed⟩ | ⟨haborted, hqueries, hbranch, m, hsat, hcompute⟩
      · have hbefore' : ∀ j < n + 1, ¬Aborts b outcomes j := by
          intro j hj
          rcases Nat.lt_succ_iff_lt_or_eq.mp hj with hj | rfl
          · exact hbefore j hj
          · rintro ⟨hbranch, curr', m, hcurr', hsat, hcompute⟩
            obtain rfl : curr = curr' := Option.some.inj (hcurr.symm.trans hcurr')
            exact hcomputed hbranch m hsat hcompute
        rcases ih hclean htail hbefore' with ⟨hnone, hrest⟩ | ⟨⟨i, hi, hi', hthrow⟩, hspoiled⟩
        · refine .inl ⟨fun i hi hi' hbranch hno => ?_, hrest⟩
          rcases Nat.eq_or_lt_of_le hi with rfl | hi
          · exact houtcome hbranch
          · exact hnone i hi (by simp only [List.length_cons] at hi'; omega) hbranch hno
        · exact .inr ⟨⟨i, by omega, by simp only [List.length_cons]; omega, hthrow⟩, hspoiled⟩
      · -- the run stops here: no later query is made
        have haborts : Aborts b outcomes n := ⟨hbranch, curr, m, hcurr, hsat, hcompute⟩
        rw [checkFrom_aborted haborted]
        refine .inl ⟨fun i hi hi' hbranch' hno => ?_, hqueries, fun hrunning => ?_⟩
        · rcases Nat.eq_or_lt_of_le hi with rfl | hi
          · exact houtcome hbranch'
          · exact absurd haborts (hno n hi)
        · rw [haborted] at hrunning
          cases hrunning

end

/-- The queries of the branches are independent and the solver is restored exactly when none of them throws. -/
theorem branchesIndependent_iff (b : Branches φ) (outcomes : Nat → CheckResult V) (solver : Solver (Constraint φ)) :
    BranchesIndependent b outcomes solver ↔ NoneThrows b outcomes := by
  have hclean : Clean b solver ({ solver := solver } : CheckIf φ) := ⟨rfl, rfl, by simp⟩
  have hloop := hclean.checkFrom (n := 0) (l := b.ifFormula) outcomes (fun k => by rw [Nat.zero_add]) (by simp)
  rcases hloop with ⟨hnone, hqueries, hsolver⟩ | ⟨⟨i, -, hi, hbranch, hno, hthrow⟩, hspoiled⟩
  · refine iff_of_true ⟨hqueries, fun hrunning => ?_⟩ fun i hi => hnone i (Nat.zero_le i) (by omega)
    have heq : (checkIf b outcomes solver).solver = solver := hsolver hrunning
    rw [heq]
    exact ⟨rfl, rfl⟩
  · refine iff_of_false ?_ fun hall => hall i (by omega) hbranch hno hthrow
    rintro ⟨hqueries, hsolver⟩
    rcases hspoiled with ⟨query, hquery, hbad⟩ | ⟨hrunning, hlonger⟩
    · exact hbad (hqueries query hquery)
    · have heq : (checkIf b outcomes solver).solver.assertions = solver.assertions := (hsolver hrunning).2
      exact absurd (congrArg List.length heq) (Nat.ne_of_gt hlonger)

/-- A thread reads a variable that another one has written, and branches on it twice. -/
def twoBranches : Branches Nat :=
  let write : Event :=
    { threadId := 2, eventId := 1, inst := .store ⟨1, 8, true⟩ false, eventType := .normal, varName := "G1_8"
      globalVarFullName := "G1_8S1", isGlobal := true }
  let read : Event :=
    { threadId := 1, eventId := 2, inst := .load ⟨1, 8, true⟩ false, eventType := .normal, varName := "G1_8"
      globalVarFullName := "G1_8L1", isGlobal := true }
  let first : Event :=
    { threadId := 1, eventId := 3, inst := .br true, eventType := .normal, isConditionIns := true, condition := true }
  let second : Event := { first with eventId := 4 }
  let trace : Trace :=
    { eventList := .ofList [(1, [read, first, second]), (2, [write])], path := [write, read, first, second]
      readSet := .ofList [("G1_8", [read])], writeSet := .ofList [("G1_8", [write])] }
  let condition : Expr := .read ⟨"G1_8L1", by decide⟩
  let filtered := DealWithSymbolicExpr.filterUseless trace { brSymbolicExpr := [condition, condition] }
  { trace := filtered.trace, filtered := filtered, ifFormula := [(first, 0), (second, 1)], rwFormula := []
    rwSymbolicExpr := [] }

/-- z3 throws for the first of two branches, and its backtracking point is still there at the end. -/
theorem not_branchesIndependent_twoBranches :
    ¬∀ (b : Branches Nat) (outcomes : Nat → CheckResult Bool) (solver : Solver (Constraint Nat)),
      BranchesIndependent b outcomes solver := by
  intro hall
  let outcomes : Nat → CheckResult Bool := fun i => if i = 0 then .exception else .unsat
  obtain ⟨-, hsolver⟩ := hall twoBranches outcomes {}
  have hrunning : (checkIf twoBranches outcomes {}).aborted = false := by decide +kernel
  have hdepth : (checkIf twoBranches outcomes {}).solver.depth = 1 := by decide +kernel
  rw [(hsolver hrunning).1] at hdepth
  cases hdepth

/-! ### Accesses that may be tainted -/

/-- The loop ends with the solver that it began with, and every candidate is in one of the two lists, once. -/
def PTSPartition (d : PTSInput φ) (outcomes : Nat → CheckResult V) (solver : Solver (Constraint φ)) : Prop :=
  ∃ fuel s, pts d outcomes solver fuel = .ended s ∧ s.solver.frames = solver.frames ∧
    s.taintPTS.Nodup ∧ s.noTaintPTS.Nodup ∧ s.taintPTS.Disjoint s.noTaintPTS ∧
    ∀ name, name ∈ s.taintPTS ∨ name ∈ s.noTaintPTS ↔ name ∈ d.DTAMParallel ∧ name ∉ d.tables.DTAMSerial

section
variable {d : PTSInput φ} {k fuel : Nat} {t t' : PTSState φ}

/-- A round whose query does not throw moves the first candidate to one of the lists and restores the solver. -/
theorem ptsLoop_step {name : String} {rest : List String} {curr : Event} (hPTS : t.PTS = name :: rest)
    (hcurr : d.tables.getEvent name = some curr) (hk : outcomes k ≠ .exception) :
    ∃ t₁ : PTSState φ, (∀ fuel, ptsLoop d outcomes (fuel + 1) k t = ptsLoop d outcomes fuel (k + 1) t₁) ∧
      t₁.solver = t.solver ∧ t₁.PTS = rest ∧
      (t₁.taintPTS ++ t₁.noTaintPTS).Perm (t.taintPTS ++ t.noTaintPTS ++ [name]) := by
  cases houtcome : outcomes k with
  | exception => exact absurd houtcome hk
  | sat m =>
    refine ⟨{ t with PTS := rest, taintPTS := t.taintPTS ++ [name] }, fun fuel => ?_, rfl, rfl, ?_⟩
    · simp only [ptsLoop, hPTS, hcurr, houtcome, Solver.pop_addAll_push]
    · rw [List.append_assoc, List.append_assoc]
      exact List.perm_append_comm.append_left t.taintPTS
  | unsat | unknown =>
    refine ⟨{ t with PTS := rest, noTaintPTS := t.noTaintPTS ++ [name] }, fun fuel => ?_, rfl, rfl, ?_⟩
    · simp only [ptsLoop, hPTS, hcurr, houtcome, Solver.pop_addAll_push]
    · rw [List.append_assoc]

/-- Without exceptions every candidate is moved. -/
theorem ptsLoop_clean (outcomes : Nat → CheckResult V) (hfound : ∀ name ∈ t.PTS, (d.tables.getEvent name).isSome)
    (hnone : ∀ j < t.PTS.length, outcomes (k + j) ≠ .exception) :
    ∃ t', ptsLoop d outcomes (t.PTS.length + 1) k t = .ended t' ∧ t'.solver = t.solver ∧
      (t'.taintPTS ++ t'.noTaintPTS).Perm (t.taintPTS ++ t.noTaintPTS ++ t.PTS) := by
  generalize hPTS : t.PTS = names at *
  induction names generalizing k t with
  | nil => exact ⟨t, by simp [ptsLoop, hPTS], rfl, by simp⟩
  | cons name rest ih =>
    obtain ⟨curr, hcurr⟩ := Option.isSome_iff_exists.mp (hfound name List.mem_cons_self)
    obtain ⟨t₁, hloop, hsolver, hrest, hperm⟩ := ptsLoop_step hPTS hcurr (hnone 0 (Nat.succ_pos _))
    have hnone' : ∀ j < rest.length, outcomes (k + 1 + j) ≠ .exception := by
      intro j hj
      rw [Nat.add_assoc, Nat.add_comm 1]
      exact hnone (j + 1) (Nat.succ_lt_succ hj)
    obtain ⟨t', hended, hsolver', hperm'⟩ := ih hrest (fun n hn => hfound n (List.mem_cons_of_mem _ hn)) hnone'
    refine ⟨t', (hloop _).trans hended, hsolver'.trans hsolver, hperm'.trans ?_⟩
    have hall := hperm.append_right rest
    rwa [List.append_assoc _ [name], List.singleton_append] at hall

/-- The loop only adds backtracking points, and adds one when a query for one of the first candidates throws. -/
theorem ptsLoop_depth (h : ptsLoop d outcomes fuel k t = .ended t') :
    t.solver.depth ≤ t'.solver.depth ∧
      ((∃ j < t.PTS.length, outcomes (k + j) = .exception) → t.solver.depth < t'.solver.depth) := by
  induction fuel generalizing k t with
  | zero => cases h
  | succ fuel ih =>
    cases hPTS : t.PTS with
    | nil =>
      simp only [ptsLoop, hPTS, PTSResult.ended.injEq] at h
      exact ⟨Nat.le_of_eq (by rw [h]), by simp⟩
    | cons name rest =>
      cases hcurr : d.tables.getEvent name with
      | none => simp [ptsLoop, hPTS, hcurr] at h
      | some curr =>
        by_cases hk : outcomes k = .exception
        · simp only [ptsLoop, hPTS, hcurr, hk] at h
          have hdepth := (ih h).1
          rw [Solver.depth_addAll_push] at hdepth
          exact ⟨Nat.le_of_succ_le hdepth, fun _ => hdepth⟩
        · obtain ⟨t₁, hloop, hsolver, hrest, -⟩ := ptsLoop_step hPTS hcurr hk
          rw [hloop] at h
          obtain ⟨hle, hlt⟩ := ih h
          rw [hsolver] at hle hlt
          refine ⟨hle, ?_⟩
          rintro ⟨j, hj, hthrow⟩
          refine hlt ?_
          cases j with
          | zero => exact absurd hthrow hk
          | succ j =>
            refine ⟨j, by rw [hrest]; exact Nat.lt_of_succ_lt_succ hj, ?_⟩
            rwa [Nat.add_assoc, Nat.add_comm 1]

end

theorem candidates_nodup (d : PTSInput φ) : d.candidates.Nodup := by
  refine List.Nodup.filter _ ?_
  have hdistinct := d.DTAMParallel.distinct_toList
  exact hdistinct.imp fun hne heq => hne (by rw [heq]; exact ReflCmp.compare_self)

theorem mem_candidates {d : PTSInput φ} {name : String} :
    name ∈ d.candidates ↔ name ∈ d.DTAMParallel ∧ name ∉ d.tables.DTAMSerial := by
  simp [PTSInput.candidates, TreeSet.mem_toList]

/-- The classification is a partition and the solver is restored exactly when none of the first queries, one for each
    candidate, throws. -/
theorem ptsPartition_iff (d : PTSTrace φ) (outcomes : Nat → CheckResult V) (solver : Solver (Constraint φ)) :
    PTSPartition d.toPTSInput outcomes solver ↔ ∀ k < d.candidates.length, outcomes k ≠ .exception := by
  constructor
  · rintro ⟨fuel, s, hended, hframes, -⟩ k hk hthrow
    have hdepth : solver.depth < s.solver.depth := (ptsLoop_depth hended).2 ⟨k, hk, by rwa [Nat.zero_add]⟩
    have hsame : s.solver.depth = solver.depth := congrArg List.length hframes
    omega
  · intro hnone
    obtain ⟨s, hended, hsolver, hperm⟩ :=
      ptsLoop_clean (d := d.toPTSInput) (k := 0) (t := { solver := solver, PTS := d.candidates }) outcomes
        d.found (fun j hj => by rw [Nat.zero_add]; exact hnone j hj)
    have hnodup := hperm.nodup_iff.mpr (candidates_nodup d.toPTSInput)
    obtain ⟨htaint, hnoTaint, hdisjoint⟩ := List.nodup_append'.mp hnodup
    refine ⟨_, s, hended, by rw [hsolver], htaint, hnoTaint, hdisjoint, fun name => ?_⟩
    rw [← List.mem_append, hperm.mem_iff, ← mem_candidates]
    simp

/-- One read, which only the parallel analysis taints. -/
def oneCandidate : PTSTrace Nat where
  trace := {}
  tables :=
    let event : Event :=
      { threadId := 1, eventId := 2, inst := .load ⟨1, 8, true⟩ false, eventType := .normal, varName := "G1_8"
        globalVarFullName := "G1_8L1", isGlobal := true }
    let read : TaintEvent := { event := event, vectorClock := [0, 1, 0, 0, 0], relatedSymbolicExpr := [] }
    { allReadSet := .ofList [("G1_8", [read])], allWriteSet := ∅, DTAMSerial := ∅ }
  DTAMParallel := .ofList ["G1_8L1"]
  ifFormula := []
  found := by decide +kernel

/-- z3 throws once: the loop tries again, above the backtracking point of the first query. -/
theorem not_ptsPartition_oneCandidate :
    ¬∀ (d : PTSTrace Nat) (outcomes : Nat → CheckResult Bool) (solver : Solver (Constraint Nat)),
      PTSPartition d.toPTSInput outcomes solver := by
  intro hall
  let outcomes : Nat → CheckResult Bool := fun k => if k = 0 then .exception else .unsat
  obtain ⟨fuel, s, hended, hframes, -⟩ := hall oneCandidate outcomes {}
  have hdepth := (ptsLoop_depth hended).2 ⟨0, by decide +kernel, rfl⟩
  have hsame : s.solver.depth = 0 := congrArg List.length hframes
  exact absurd hsame (Nat.ne_of_gt hdepth)

end CapTaint.Encode
