import CapTaint.Theorems.Placement

/-! What an instruction does to other threads, in one statement for all instructions. -/

namespace CapTaint
open Std ExecutionState

/-- The threads that take over the clock of the thread that runs. -/
def Outcome.targets (o : Outcome) : List Nat := o.created.toList ++ o.released

/-- The calls that wake threads of a waiting list. -/
def Inst.signals : Inst → Bool
  | .call (.pthreadCondSignal _) | .call (.pthreadCondBroadcast _) => true
  | _ => false

namespace Executor

structure Effect (t : Nat) (inst : Inst) (o : Outcome) (e e' : Executor) : Prop where
  passes : Passes t o.targets e.state e'.state
  mem : ∀ q, q ∈ e'.state.threadList ↔ q ∈ e.state.threadList ∨ o.created = some q
  created : ∀ q, o.created = some q →
    q ∉ e.state.threadList ∧ 0 < e'.state.clock q q ∧ ∃ loc, inst = .call (.pthreadCreate loc)
  released : ∀ q ∈ o.released, (e.state.stateOf q).isSome ∧ e.state.stateOf q ≠ some .terminated
  released_by : ∀ q ∈ o.released, inst.signals = true ∨ inst = .ret true ∧ q ∈ e.joinRecord.getD t [] ∨
    ∃ barrier, inst = .call (.pthreadBarrierWait barrier)
  terminated : ∀ q, e'.state.stateOf q = some .terminated ↔
    e.state.stateOf q = some .terminated ∨ q = t ∧ inst = .ret true
  joinRecord : ∀ u q, q ∈ e'.joinRecord.getD u [] ↔ q ∈ e.joinRecord.getD u [] ∨
    q = t ∧ inst = .call (.pthreadJoin u) ∧ e.state.stateOf u ≠ some .terminated
  exit : inst = .ret true → (∀ k, e'.state.clock t k = e.state.clock t k) ∧
    ∀ q ∈ e.joinRecord.getD t [], ∀ k, e.state.clock t k ≤ e'.state.clock q k

variable {e e' : Executor} {t : Nat} {o : Outcome} {inst : Inst}

/-- An instruction that concerns no other thread. -/
theorem Effect.of_turned {old new : ThreadState} {ids : List Nat} (hclock : ∀ q k, e'.state.clock q k = e.state.clock q k)
    (hmem : ∀ q, q ∈ e'.state.threadList ↔ q ∈ e.state.threadList) (hcreated : o.created = none) (hreleased : o.released = [])
    (hturned : Turned old new ids e.state e'.state) (hold : old ≠ .terminated) (hnew : new ≠ .terminated)
    (hjoin : e'.joinRecord = e.joinRecord) (hinst : inst ≠ .ret true) (hnojoin : ∀ u, inst ≠ .call (.pthreadJoin u)) :
    Effect t inst o e e' where
  passes := .of_clock_eq hclock _ _
  mem q := by rw [hmem, hcreated]; simp
  created q hq := by rw [hcreated] at hq; cases hq
  released q hq := by rw [hreleased] at hq; cases hq
  released_by q hq := by rw [hreleased] at hq; cases hq
  terminated q := by rw [hturned.same hold hnew]; simp [hinst]
  joinRecord u q := by rw [hjoin]; simp [hnojoin u]
  exit hret := absurd hret hinst

theorem turned_nil {s s' : ExecutionState} (h : s' = s) : Turned .runnable .runnable [] s s' where
  before q hq := by cases hq
  after q := by rw [h]; cases s.stateOf q <;> simp

theorem create_effect {replayed : Option Nat} {loc : Location} (hs : e.executePThreadCreate t replayed = some (o, e')) :
    Effect t (.call (.pthreadCreate loc)) o e e' := by
  obtain ⟨new, s, rfl, rfl, hfree, ht, -, hmem, hstate, hclock⟩ := executePThreadCreate_eq hs
  have hne : t ≠ new := fun heq => hfree (heq ▸ ht)
  have hnone : e.state.stateOf new = none := by
    rw [← Option.not_isSome_iff_eq_none, stateOf_isSome]
    exact hfree
  refine ⟨⟨fun q k => ?_, fun k _ => ?_, fun q _ hq k => ?_, fun q hq _ k hk => ?_⟩, fun q => ?_, fun q hq => ?_, by simp,
    by simp, fun q => ?_, by simp, by simp⟩
  · rw [hclock]
    split
    next hq => rw [hq, clock_eq hfree]; exact Nat.zero_le _
    next => exact le_rfl
  · rw [hclock, if_neg hne]
  · rw [hclock, if_neg (by simpa [Outcome.targets] using hq)]
  · obtain rfl : q = new := by simpa [Outcome.targets] using hq
    rw [hclock q k, if_pos rfl, if_neg hk, hclock t k, if_neg hne]
    exact le_max_right _ _
  · rw [hmem]
    simp [eq_comm, or_comm]
  · obtain rfl : new = q := Option.some.inj hq
    refine ⟨hfree, ?_, loc, rfl⟩
    rw [hclock, if_pos rfl, if_pos rfl]
    exact Nat.succ_pos _
  · rw [hstate]
    split
    next hq => simp [hq, hnone]
    next => simp

theorem join_effect (ht : e.state.stateOf t = some .runnable) {joined : Nat}
    (hs : e.executePThreadJoin t joined = some (o, e')) : Effect t (.call (.pthreadJoin joined)) o e e' := by
  rcases executePThreadJoin_eq hs with ⟨hterminated, rfl, rfl⟩ | ⟨hrunning, -, rfl, rfl⟩
  · refine ⟨.of_clock_eq (fun _ _ => rfl) _ _, by simp, by simp, by simp, by simp, by simp, fun u q => ?_, by simp⟩
    refine (or_iff_left ?_).symm
    rintro ⟨-, hinst, hrunning⟩
    cases hinst
    exact hrunning hterminated
  · have hturned := swapOut_turned ht .joinBlocked
    refine ⟨.of_clock_eq (fun _ _ => swapOut_clock t _) _ _, fun q => ?_, by simp, by simp, by simp, fun q => ?_, fun u q => ?_,
      by simp⟩
    · simp [swapOutThread, mem_modify]
    · rw [hturned.same (by decide) (by decide)]
      simp
    · simp only [TreeMap.getD_insert, Std.compare_eq_iff_eq]
      split
      next hu =>
        subst hu
        simp [hrunning]
      next hu =>
        refine (or_iff_left ?_).symm
        rintro ⟨-, hinst, -⟩
        cases hinst
        exact hu rfl

theorem signalled_effect (h : Placed e) {cond : Nat} {released : List WaitParam} (hs : Signalled t cond released o e e')
    (hinst : inst.signals = true) : Effect t inst o e e' := by
  obtain ⟨hturned, -⟩ := hs.turned h
  have ho := hs.outcome
  subst ho
  refine ⟨by simpa [Outcome.targets] using hs.passes, fun q => ?_, by simp, fun q hq => ?_, fun q _ => .inl hinst, fun q => ?_,
    fun u q => ?_, ?_⟩
  · rw [hs.woken.mem]
    simp
  · rw [hturned.before q hq]
    exact ⟨rfl, by decide⟩
  · rw [hturned.same (by decide) (by decide)]
    refine (or_iff_left ?_).symm
    rintro ⟨-, rfl⟩
    cases hinst
  · rw [hs.joins]
    refine (or_iff_left ?_).symm
    rintro ⟨-, rfl, -⟩
    cases hinst
  · rintro rfl
    cases hinst

theorem exit_effect (h : Placed e) (ht : e.state.stateOf t = some .runnable) (hs : e.executeExit t = some (o, e')) :
    Effect t (.ret true) o e e' := by
  obtain ⟨s, rfl, rfl, hwoken, hpasses, hown, hge⟩ := executeExit_eq hs
  obtain ⟨-, hturned, -⟩ := exit_turned h ht hwoken
  have hsame : ∀ q k, (s.swapOutThread t .terminated).clock q k = s.clock q k := fun q k => swapOut_clock t _
  refine ⟨?_, fun q => ?_, by simp, fun q hq => ?_, fun q hq => .inr (.inl ⟨rfl, hq⟩), fun q => ?_, fun u q => ?_,
    fun _ => ⟨fun k => (hsame t k).trans (hown k), fun q hq k => (hge q hq k).trans_eq (hsame q k).symm⟩⟩
  · simpa [Outcome.targets] using hpasses.trans (.of_clock_eq hsame t [])
  · simp [swapOutThread, mem_modify, hwoken.mem]
  · rw [hturned.before q hq]
    exact ⟨rfl, by decide⟩
  · rw [swapOut_stateOf]
    by_cases hq : q = t
    · subst hq
      have hpresent : (s.stateOf q).isSome := by rw [hwoken.stateOf, ht]; rfl
      obtain ⟨st, hst⟩ := Option.isSome_iff_exists.mp hpresent
      simp [hst]
    · simp only [hq, if_false, Option.map_id', false_and, or_false]
      exact hturned.same (by decide) (by decide)
  · simp

theorem barrierWait_effect (h : Placed e) (ht : e.state.stateOf t = some .runnable) (barrier : Nat) :
    Effect t (.call (.pthreadBarrierWait barrier)) (e.executePThreadBarrierWait t barrier).1 e
      (e.executePThreadBarrierWait t barrier).2 := by
  obtain ⟨-, heq⟩ | ⟨state, -, -, heq | ⟨s, hwoken, hclock, hturned, heq⟩⟩ := barrierWait_eq h ht barrier
  · rw [heq]
    exact .of_turned (fun _ _ => rfl) (fun _ => Iff.rfl) rfl rfl (turned_nil rfl) (by decide) (by decide) rfl (by simp) (by simp)
  · rw [heq]
    exact .of_turned (fun _ _ => swapOut_clock t _) (fun _ => mem_modify) rfl rfl (swapOut_turned ht .barrierBlocked)
      (by decide) (by decide) rfl (by simp) (by simp)
  · rw [heq]
    refine ⟨.of_clock_eq hclock _ _, fun q => ?_, by simp, fun q hq => ?_, fun q _ => .inr (.inr ⟨barrier, rfl⟩), fun q => ?_,
      by simp, by simp⟩
    · rw [hwoken.mem]
      simp
    · rw [hturned.before q hq]
      exact ⟨rfl, by decide⟩
    · rw [hturned.same (by decide) (by decide)]
      simp

theorem executeInstruction_effect (h : Placed e) (ht : e.state.stateOf t = some .runnable) {choice : Choice}
    (hs : e.executeInstruction t inst choice = some (o, e')) : Effect t inst o e e' := by
  unfold executeInstruction at hs
  split at hs
  next => exact create_effect hs
  next => exact join_effect ht hs
  next =>
    obtain ⟨wps, m, state, -, -, -, -, rfl, rfl⟩ := executePThreadCondWait_eq hs
    exact .of_turned (fun _ _ => swapOut_clock t _) (fun _ => mem_modify) rfl rfl (swapOut_turned ht .condBlocked) (by decide)
      (by decide) rfl (by simp) (by simp)
  next =>
    obtain ⟨_, _, hsignalled⟩ := executePThreadCondSignal_eq hs
    exact signalled_effect h hsignalled rfl
  next =>
    obtain ⟨_, _, hsignalled⟩ := executePThreadCondBroadcast_eq hs
    exact signalled_effect h hsignalled rfl
  next =>
    obtain ⟨isBlocked, m, -, rfl, rfl⟩ := executePThreadMutexLock_eq hs
    cases isBlocked with
    | false =>
      exact .of_turned (fun _ _ => rfl) (fun _ => Iff.rfl) rfl rfl (turned_nil rfl) (by decide) (by decide) rfl (by simp)
        (by simp)
    | true =>
      exact .of_turned (fun _ _ => clock_modify_same fun _ => rfl) (fun _ => mem_modify) rfl rfl
        (turned_of_modify ht fun q => stateOf_modify (g := fun _ => .mutexBlocked) fun _ => rfl) (by decide) (by decide) rfl
        (by simp) (by simp)
  next =>
    obtain ⟨m, -, rfl, rfl⟩ := executePThreadMutexUnlock_eq hs
    exact .of_turned (fun _ _ => rfl) (fun _ => Iff.rfl) rfl rfl (turned_nil rfl) (by decide) (by decide) rfl (by simp) (by simp)
  next =>
    obtain ⟨state, -, rfl, rfl⟩ := executePThreadBarrierInit_eq hs
    exact .of_turned (fun _ _ => rfl) (fun _ => Iff.rfl) rfl rfl (turned_nil rfl) (by decide) (by decide) rfl (by simp) (by simp)
  next barrier =>
    have heffect := barrierWait_effect h ht barrier
    rwa [Option.some.inj hs] at heffect
  next => exact exit_effect h ht hs
  next =>
    obtain ⟨rfl, rfl⟩ := Prod.mk.inj (Option.some.inj hs)
    exact .of_turned (fun _ _ => rfl) (fun _ => Iff.rfl) rfl rfl (turned_nil rfl) (by decide) (by decide) rfl (by assumption)
      (by assumption)

end Executor
end CapTaint
