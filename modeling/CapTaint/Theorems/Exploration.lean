import CapTaint.ListenerService

/-! The prefixes of the schedule set come to their turn. A recording run that ends with an ignored error is the one
    exception: it ends the exploration. -/

namespace CapTaint

variable {P : Type} {outcomes : Nat → RunOutcome P}

/-- The round replaces the schedule set, since an assertion can be violated. -/
def Clears (outcomes : Nat → RunOutcome P) (n : Nat) : Prop :=
  (runVerification outcomes n).goesOn = true ∧ (runVerification outcomes n).runState = .symbolic ∧
    (outcomes n).violation.isSome

/-- Prefixes are executed in the order in which they were added, each of them at most once; and each of them is, unless a
    run ends with a runtime error or the set is cleared. -/
structure ExecutedInTurn (outcomes : Nat → RunOutcome P) : Prop where
  inOrder : ∀ n, (runVerification outcomes n).executed <+: (runVerification outcomes n).scheduled
  inTurn : ∀ (n i : Nat) (p : P), (runVerification outcomes n).scheduled[i]? = some p →
    ∃ m, n ≤ m ∧ ((runVerification outcomes m).executed[i]? = some p ∨
      (runVerification outcomes m).execStatus = .RUNTIMEERROR ∨ Clears outcomes m)

/-- No recording run ends with an ignored error while there are prefixes. -/
def NoneIgnored (outcomes : Nat → RunOutcome P) : Prop :=
  ∀ n, (runVerification outcomes n).goesOn = true → (runVerification outcomes n).runState = .pso →
    (outcomes n).execStatus = .IGNOREDERROR → (runVerification outcomes n).scheduleSet = []

namespace Exploration

/-! ### One round -/

/-- The prefix that the next recording run follows. -/
def taken (x : Exploration P) : List P :=
  if x.isFinished = false ∧ x.runState = .pso then x.currentPrefix.toList else []

/-- What is scheduled has been executed, is about to be, or is in the set. -/
def Accounted (x : Exploration P) : Prop := x.executed ++ x.taken ++ x.scheduleSet = x.scheduled

variable {x y : Exploration P} {o : RunOutcome P}

theorem goesOn_iff : x.goesOn = true ↔ x.isFinished = false ∧ x.execStatus ≠ .RUNTIMEERROR := by
  simp [goesOn]

@[simp] theorem foldl_addScheduleSet (added : List P) (x : Exploration P) :
    added.foldl addScheduleSet x =
      { x with scheduleSet := x.scheduleSet ++ added, scheduled := x.scheduled ++ added } := by
  induction added generalizing x with
  | nil => simp
  | cons p added ih => simp [ih, addScheduleSet]

/-- What a round of the loop can do. -/
inductive Round (x : Exploration P) (o : RunOutcome P) : Exploration P → Prop
  /-- The recording run fails. -/
  | failed (hstate : x.runState = .pso) (herror : o.execStatus ≠ .SUCCESS) :
    Round x o { x with
      isFinished := true, execStatus := o.execStatus, runState := .pso, executed := x.executed ++ x.currentPrefix.toList }
  /-- The trace is an old one. -/
  | redundant (hstate : x.runState = .pso) (hok : o.execStatus = .SUCCESS) :
    Round x o (getNewPrefix { x with
      execStatus := .SUCCESS, runState := .pso, executed := x.executed ++ x.currentPrefix.toList })
  /-- The trace is new. -/
  | untested (hstate : x.runState = .pso) (hok : o.execStatus = .SUCCESS) :
    Round x o { x with
      execStatus := .SUCCESS, executed := x.executed ++ x.currentPrefix.toList, runState := .symbolic }
  | violated (hstate : x.runState = .symbolic) (violating : P) (hviolation : o.violation = some violating) :
    Round x o ({ x with execStatus := o.execStatus, runState := .taint }.clearAllPrefix.addScheduleSet violating)
  | branched (hstate : x.runState = .symbolic) (added : List P) :
    Round x o { x with
      execStatus := o.execStatus, runState := .taint, scheduleSet := x.scheduleSet ++ added,
      scheduled := x.scheduled ++ added }
  | tainted (hstate : x.runState = .taint) :
    Round x o (getNewPrefix { x with execStatus := o.execStatus, runState := .pso })

theorem runOnce_round (x : Exploration P) (o : RunOutcome P) : Round x o (x.runOnce o) := by
  unfold runOnce startControl
  cases hstate : x.runState with
  | pso =>
    simp only [afterRunMethodAsMain, endControl]
    split
    next herror => exact .failed hstate herror
    next hok =>
      have hok : o.execStatus = .SUCCESS := not_not.mp hok
      rw [hok]
      split
      next => exact .redundant hstate hok
      next => exact .untested hstate hok
  | symbolic =>
    simp only [afterRunMethodAsMain, endControl]
    split
    next violating hviolation => exact .violated hstate violating hviolation
    next =>
      rw [foldl_addScheduleSet]
      exact .branched hstate o.branches
  | taint => exact .tainted hstate

/-- A prefix that is taken from the set is the one that the next recording run follows. -/
theorem accounted_getNewPrefix (hstate : x.runState = .pso) (h : x.executed ++ x.scheduleSet = x.scheduled) :
    x.getNewPrefix.Accounted := by
  unfold getNewPrefix Accounted taken
  cases hset : x.scheduleSet with
  | nil => simpa [hset] using h
  | cons next rest => simpa [hset, hstate] using h

theorem taken_pso (hgoes : x.isFinished = false) (hstate : x.runState = .pso) : x.taken = x.currentPrefix.toList :=
  if_pos ⟨hgoes, hstate⟩

theorem taken_replay (hstate : x.runState ≠ .pso) : x.taken = [] := if_neg fun h => hstate h.2

@[simp] theorem getNewPrefix_scheduled (x : Exploration P) : x.getNewPrefix.scheduled = x.scheduled := by
  unfold getNewPrefix
  split <;> rfl

@[simp] theorem getNewPrefix_executed (x : Exploration P) : x.getNewPrefix.executed = x.executed := by
  unfold getNewPrefix
  split <;> rfl

theorem Round.accounted (hround : Round x o y) (hgoes : x.goesOn = true) (h : x.Accounted) : y.Accounted := by
  have hfinished := (goesOn_iff.mp hgoes).1
  unfold Accounted at h
  cases hround with
  | failed hstate _ | untested hstate _ =>
    rw [taken_pso hfinished hstate] at h
    simpa [Accounted, taken] using h
  | redundant hstate _ =>
    rw [taken_pso hfinished hstate] at h
    exact accounted_getNewPrefix rfl h
  | violated hstate violating _ =>
    rw [taken_replay (by simp [hstate]), List.append_nil] at h
    simp [Accounted, taken, clearAllPrefix, addScheduleSet, ← h]
  | branched hstate added =>
    rw [taken_replay (by simp [hstate]), List.append_nil] at h
    simp [Accounted, taken, ← h]
  | tainted hstate =>
    rw [taken_replay (by simp [hstate]), List.append_nil] at h
    exact accounted_getNewPrefix rfl h

/-- Without a violation nothing that is scheduled is lost. -/
theorem Round.scheduled (hround : Round x o y) (h : x.runState = .symbolic → o.violation = none) :
    x.scheduled <+: y.scheduled := by
  cases hround with
  | violated hstate violating hviolation =>
    rw [h hstate] at hviolation
    cases hviolation
  | branched _ added => exact List.prefix_append _ _
  | redundant => simp
  | tainted => simp
  | _ => exact List.prefix_refl _

/-- How many rounds at most come before the one that follows the next prefix. -/
def rank (x : Exploration P) : Nat :=
  match x.runState with
  | .pso => if x.currentPrefix.isSome then 0 else 3
  | .taint => 1
  | .symbolic => 2

theorem rank_getNewPrefix (hstate : x.runState = .pso) (h : x.scheduleSet ≠ []) :
    x.getNewPrefix.isFinished = false ∧ x.getNewPrefix.rank = 0 := by
  unfold getNewPrefix
  split
  next hnil => exact absurd hnil h
  next => exact ⟨rfl, by simp [rank, hstate]⟩

/-- While there is a prefix left, a round follows it, comes closer to doing so, or is one of the two exceptions. -/
theorem Round.progress (hround : Round x o y) (hgoes : x.goesOn = true) (h : x.Accounted)
    (hignored : x.runState = .pso → o.execStatus = .IGNOREDERROR → x.scheduleSet = [])
    (hleft : x.executed.length < x.scheduled.length) :
    x.executed.length < y.executed.length ∨ y.execStatus = .RUNTIMEERROR ∨
      (x.runState = .symbolic ∧ o.violation.isSome) ∨ (y.goesOn = true ∧ y.executed = x.executed ∧ y.rank < x.rank) := by
  have hfinished := (goesOn_iff.mp hgoes).1
  have hset : x.taken = [] → x.scheduleSet ≠ [] := by
    rintro htaken hnil
    rw [Accounted, htaken, hnil, List.append_nil, List.append_nil] at h
    rw [h] at hleft
    exact Nat.lt_irrefl _ hleft
  -- a recording run that follows a prefix executes it
  have hfollows : x.runState = .pso → x.executed.length < (x.executed ++ x.currentPrefix.toList).length ∨
      x.currentPrefix = none ∧ x.scheduleSet ≠ [] := by
    intro hstate
    cases hcurrent : x.currentPrefix with
    | none => exact .inr ⟨rfl, hset (by rw [taken_pso hfinished hstate, hcurrent]; rfl)⟩
    | some p => exact .inl (by simp)
  by_cases hruntime : y.execStatus = .RUNTIMEERROR
  · exact .inr (.inl hruntime)
  cases hround with
  | failed hstate herror =>
    rcases hfollows hstate with hmore | ⟨-, hne⟩
    · exact .inl hmore
    · refine absurd (hignored hstate ?_) hne
      cases hstatus : o.execStatus with
      | SUCCESS => exact absurd hstatus herror
      | IGNOREDERROR => rfl
      | RUNTIMEERROR => exact absurd hstatus hruntime
  | redundant hstate _ =>
    rcases hfollows hstate with hmore | ⟨hnone, hne⟩
    · exact .inl (by simpa using hmore)
    · obtain ⟨hnot, hrank⟩ := rank_getNewPrefix rfl
        (x := { x with execStatus := .SUCCESS, runState := .pso, executed := x.executed ++ x.currentPrefix.toList }) hne
      refine .inr (.inr (.inr ⟨goesOn_iff.mpr ⟨hnot, hruntime⟩, by simp [hnone], ?_⟩))
      rw [hrank]
      simp [rank, hstate, hnone]
  | untested hstate _ =>
    rcases hfollows hstate with hmore | ⟨hnone, -⟩
    · exact .inl hmore
    · exact .inr (.inr (.inr ⟨goesOn_iff.mpr ⟨hfinished, hruntime⟩, by simp [hnone], by simp [rank, hstate, hnone]⟩))
  | violated hstate violating hviolation => exact .inr (.inr (.inl ⟨hstate, by rw [hviolation]; rfl⟩))
  | branched hstate added =>
    exact .inr (.inr (.inr ⟨goesOn_iff.mpr ⟨hfinished, hruntime⟩, rfl, by simp [rank, hstate]⟩))
  | tainted hstate =>
    obtain ⟨hnot, hrank⟩ := rank_getNewPrefix rfl
      (x := { x with execStatus := o.execStatus, runState := .pso }) (hset (taken_replay (by simp [hstate])))
    refine .inr (.inr (.inr ⟨goesOn_iff.mpr ⟨hnot, hruntime⟩, by simp, ?_⟩))
    rw [hrank]
    simp [rank, hstate]

/-- The exploration ends when nothing is left, after a runtime error, or after an ignored error. -/
theorem Round.finished (hround : Round x o y) (hgoes : x.goesOn = true)
    (hignored : x.runState = .pso → o.execStatus = .IGNOREDERROR → x.scheduleSet = []) (hy : y.isFinished = true) :
    y.execStatus = .RUNTIMEERROR ∨ y.scheduleSet = [] := by
  have hfinished := (goesOn_iff.mp hgoes).1
  have hempty : ∀ x : Exploration P, x.isFinished = false → x.getNewPrefix.isFinished = true →
      x.getNewPrefix.scheduleSet = [] := by
    intro x _ hx
    cases hset : x.scheduleSet with
    | nil => simp [getNewPrefix, hset]
    | cons next rest => simp [getNewPrefix, hset] at hx
  cases hround with
  | failed hstate herror =>
    cases hstatus : o.execStatus with
    | SUCCESS => exact absurd hstatus herror
    | IGNOREDERROR => exact .inr (hignored hstate hstatus)
    | RUNTIMEERROR => exact .inl rfl
  | redundant => exact .inr (hempty _ hfinished hy)
  | tainted => exact .inr (hempty _ hfinished hy)
  | untested => exact absurd hy (by simp [hfinished])
  | violated => exact absurd hy (by simp [addScheduleSet, clearAllPrefix, hfinished])
  | branched => exact absurd hy (by simp [hfinished])

end Exploration

/-! ### The rounds of an exploration -/

open Exploration

theorem runVerification_succ {n : Nat} (h : (runVerification outcomes n).goesOn = true) :
    Round (runVerification outcomes n) (outcomes n) (runVerification outcomes (n + 1)) := by
  rw [runVerification, if_pos h]
  exact runOnce_round _ _

theorem runVerification_ended {n : Nat} (h : (runVerification outcomes n).goesOn ≠ true) :
    runVerification outcomes (n + 1) = runVerification outcomes n := by
  rw [runVerification, if_neg h]

theorem runVerification_accounted (outcomes : Nat → RunOutcome P) (n : Nat) : (runVerification outcomes n).Accounted := by
  induction n with
  | zero => rfl
  | succ n ih =>
    by_cases hgoes : (runVerification outcomes n).goesOn = true
    · exact (runVerification_succ hgoes).accounted hgoes ih
    · rw [runVerification_ended hgoes]
      exact ih

theorem executed_isPrefix (outcomes : Nat → RunOutcome P) (n : Nat) :
    (runVerification outcomes n).executed <+: (runVerification outcomes n).scheduled := by
  rw [← runVerification_accounted outcomes n, List.append_assoc]
  exact List.prefix_append _ _

/-- An exploration that has ended without a runtime error has executed what was scheduled. -/
theorem executed_of_ended (hnone : NoneIgnored outcomes) {n : Nat} (hends : (runVerification outcomes n).goesOn ≠ true)
    (hok : (runVerification outcomes n).execStatus ≠ .RUNTIMEERROR) :
    (runVerification outcomes n).executed = (runVerification outcomes n).scheduled := by
  induction n with
  | zero => exact absurd rfl hends
  | succ n ih =>
    by_cases hgoes : (runVerification outcomes n).goesOn = true
    · have hround := runVerification_succ hgoes
      have hfinished : (runVerification outcomes (n + 1)).isFinished = true := by
        by_contra hnot
        exact hends (goesOn_iff.mpr ⟨by simpa using hnot, hok⟩)
      have hset := (hround.finished hgoes (hnone n hgoes) hfinished).resolve_left hok
      have haccounted := runVerification_accounted outcomes (n + 1)
      rw [Accounted, taken, if_neg (by simp [hfinished]), hset, List.append_nil, List.append_nil] at haccounted
      exact haccounted
    · rw [runVerification_ended hgoes] at hends hok ⊢
      exact ih hends hok

/-- No runtime error and no violation from the round `n` on. -/
structure Undisturbed (outcomes : Nat → RunOutcome P) (n : Nat) : Prop where
  noError : ∀ m, n ≤ m → (runVerification outcomes m).execStatus ≠ .RUNTIMEERROR
  noClear : ∀ m, n ≤ m → ¬Clears outcomes m

theorem Undisturbed.mono {n m : Nat} (h : Undisturbed outcomes n) (hle : n ≤ m) : Undisturbed outcomes m :=
  ⟨fun k hk => h.noError k (hle.trans hk), fun k hk => h.noClear k (hle.trans hk)⟩

theorem Undisturbed.scheduled {n m : Nat} (h : Undisturbed outcomes n) (hle : n ≤ m) :
    (runVerification outcomes n).scheduled <+: (runVerification outcomes m).scheduled := by
  induction m, hle using Nat.le_induction with
  | base => exact List.prefix_refl _
  | succ m hle ih =>
    refine ih.trans ?_
    by_cases hgoes : (runVerification outcomes m).goesOn = true
    · refine (runVerification_succ hgoes).scheduled fun hstate => ?_
      by_contra hviolation
      exact h.noClear m hle ⟨hgoes, hstate, Option.isSome_iff_ne_none.mpr hviolation⟩
    · rw [runVerification_ended hgoes]

/-- The next prefix is executed after a few rounds. -/
theorem Undisturbed.next_executed (hnone : NoneIgnored outcomes) {n : Nat} (h : Undisturbed outcomes n)
    (hleft : (runVerification outcomes n).executed.length < (runVerification outcomes n).scheduled.length) :
    ∃ m, n ≤ m ∧ (runVerification outcomes n).executed.length < (runVerification outcomes m).executed.length := by
  -- by induction on the rounds that come before it
  induction hrank : (runVerification outcomes n).rank using Nat.strong_induction_on generalizing n with
  | _ k ih =>
    by_cases hgoes : (runVerification outcomes n).goesOn = true
    · have hround := runVerification_succ hgoes
      rcases hround.progress hgoes (runVerification_accounted outcomes n) (hnone n hgoes) hleft with
        hmore | herror | hclear | ⟨-, hsame, hless⟩
      · exact ⟨n + 1, Nat.le_succ n, hmore⟩
      · exact absurd herror (h.noError (n + 1) (Nat.le_succ n))
      · exact absurd ⟨hgoes, hclear⟩ (h.noClear n (Nat.le_refl n))
      · have hgrown := (h.scheduled (Nat.le_succ n)).length_le
        obtain ⟨m, hle, hm⟩ := ih _ (hrank ▸ hless) (h.mono (Nat.le_succ n)) (by rw [hsame]; omega) rfl
        exact ⟨m, by omega, hsame ▸ hm⟩
    · rw [executed_of_ended hnone hgoes (h.noError n (Nat.le_refl n))] at hleft
      exact absurd hleft (Nat.lt_irrefl _)

theorem Undisturbed.executed (hnone : NoneIgnored outcomes) {n i : Nat} (h : Undisturbed outcomes n)
    (hi : i < (runVerification outcomes n).scheduled.length) :
    ∃ m, n ≤ m ∧ i < (runVerification outcomes m).executed.length := by
  induction hdistance : i + 1 - (runVerification outcomes n).executed.length using Nat.strong_induction_on
    generalizing n with
  | _ k ih =>
    by_cases hdone : i < (runVerification outcomes n).executed.length
    · exact ⟨n, Nat.le_refl n, hdone⟩
    · obtain ⟨m, hle, hm⟩ := h.next_executed hnone (by omega)
      have hgrown := (h.scheduled hle).length_le
      obtain ⟨m', hle', hm'⟩ := ih _ (by omega) (h.mono hle) (by omega) rfl
      exact ⟨m', hle.trans hle', hm'⟩

theorem getElem?_of_isPrefix {l l' : List P} (h : l <+: l') {i : Nat} (hi : i < l.length) : l'[i]? = l[i]? := by
  obtain ⟨rest, rfl⟩ := h
  exact List.getElem?_append_left hi

theorem executedInTurn_of_noneIgnored (hnone : NoneIgnored outcomes) : ExecutedInTurn outcomes := by
  refine ⟨executed_isPrefix outcomes, fun n i p hp => ?_⟩
  by_contra hnever
  push Not at hnever
  have hundisturbed : Undisturbed outcomes n :=
    ⟨fun m hle => (hnever m hle).2.1, fun m hle => (hnever m hle).2.2⟩
  have hi : i < (runVerification outcomes n).scheduled.length := (List.getElem?_eq_some_iff.mp hp).1
  obtain ⟨m, hle, hm⟩ := hundisturbed.executed hnone hi
  refine (hnever m hle).1 ?_
  calc (runVerification outcomes m).executed[i]?
      = (runVerification outcomes m).scheduled[i]? := (getElem?_of_isPrefix (executed_isPrefix outcomes m) hm).symm
    _ = (runVerification outcomes n).scheduled[i]? := getElem?_of_isPrefix (hundisturbed.scheduled hle) hi
    _ = some p := hp

theorem runVerification_of_ended {n : Nat} (hends : (runVerification outcomes n).goesOn ≠ true) {m : Nat} (hle : n ≤ m) :
    runVerification outcomes m = runVerification outcomes n := by
  induction m, hle using Nat.le_induction with
  | base => rfl
  | succ m hle ih => rw [runVerification_ended (ih ▸ hends), ih]

/-- A recording run with an ignored error ends the exploration, so nothing may be left then. -/
theorem noneIgnored_of_executedInTurn (h : ExecutedInTurn outcomes) : NoneIgnored outcomes := by
  intro n hgoes hstate hignored
  by_contra hne
  have hround : runVerification outcomes (n + 1) = (runVerification outcomes n).runOnce (outcomes n) := by
    rw [runVerification, if_pos hgoes]
  have hnext : runVerification outcomes (n + 1) = { runVerification outcomes n with
      isFinished := true, execStatus := .IGNOREDERROR,
      executed := (runVerification outcomes n).executed ++ (runVerification outcomes n).currentPrefix.toList } := by
    rw [hround, runOnce, startControl, hstate]
    simp [afterRunMethodAsMain, endControl, hignored, hstate]
  have hends : (runVerification outcomes (n + 1)).goesOn ≠ true := by simp [hnext, goesOn]
  -- the first prefix of the set stays there
  have haccounted := runVerification_accounted outcomes (n + 1)
  have hset : (runVerification outcomes (n + 1)).scheduleSet ≠ [] := by
    rw [hnext]
    exact hne
  rw [Accounted, taken, if_neg (by simp [hnext]), List.append_nil] at haccounted
  have hlength := congrArg List.length haccounted
  rw [List.length_append] at hlength
  have hpos := List.length_pos_of_ne_nil hset
  have hi : (runVerification outcomes (n + 1)).executed.length < (runVerification outcomes (n + 1)).scheduled.length := by
    omega
  obtain ⟨m, hle, hm⟩ := h.inTurn (n + 1) _ _ (List.getElem?_eq_getElem hi)
  have hm' := runVerification_of_ended hends hle
  rcases hm with hm | herror | hclear
  · rw [hm', List.getElem?_eq_none (Nat.le_refl _)] at hm
    cases hm
  · rw [hm', hnext] at herror
    cases herror
  · rw [Clears, hm'] at hclear
    exact hends hclear.1

/-- The exploration executes each prefix in its turn exactly when no recording run ends with an ignored error while
    there are prefixes. -/
theorem executedInTurn_iff (outcomes : Nat → RunOutcome P) : ExecutedInTurn outcomes ↔ NoneIgnored outcomes :=
  ⟨noneIgnored_of_executedInTurn, executedInTurn_of_noneIgnored⟩

/-- A trace with two branches that can go the other way; the run of the first of the two does not follow its prefix. -/
def infeasiblePrefix : Nat → RunOutcome String
  | 0 => { execStatus := .SUCCESS, isUntested := true }
  | 1 => { execStatus := .SUCCESS, branches := ["if 1", "if 2"] }
  | 2 => { execStatus := .SUCCESS }
  | _ => { execStatus := .IGNOREDERROR }

/-- The second prefix is never executed. -/
theorem not_executedInTurn_infeasiblePrefix : ¬∀ outcomes : Nat → RunOutcome String, ExecutedInTurn outcomes := by
  intro hall
  obtain ⟨m, hle, hm⟩ := (hall infeasiblePrefix).inTurn 4 1 "if 2" (by decide)
  have hends : (runVerification infeasiblePrefix 4).goesOn ≠ true := by decide
  have hm' := runVerification_of_ended hends hle
  rw [Clears, hm'] at hm
  rcases hm with hexecuted | herror | hclear
  · exact absurd hexecuted (by decide)
  · exact absurd herror (by decide)
  · exact hends hclear.1

end CapTaint
