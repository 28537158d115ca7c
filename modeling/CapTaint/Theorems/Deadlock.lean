import CapTaint.Theorems.Mutexes

/-! The loop of the run for a selected thread that is blocked. It goes through the queue until a thread can run; the flag
    that should end it in a deadlock does not outlive one pass. -/

namespace CapTaint.Executor
open Std ExecutionState

/-- The thread can run when it is selected: it is runnable, or the mutex that it waits for is not locked. -/
def Ready (e : Executor) (q : Nat) : Prop :=
  e.state.stateOf q = some .runnable ∨
    ∃ mutex state, e.wanted q = some mutex ∧ e.mutexManager.mutexPool[mutex]? = some state ∧ state.isLocked = false

/-- The thread waits for a locked mutex. -/
def Stuck (e : Executor) (q : Nat) : Prop :=
  ∃ mutex state, e.wanted q = some mutex ∧ e.mutexManager.mutexPool[mutex]? = some state ∧ state.isLocked = true

/-- The loop ends, with a thread that can run and owns the mutex that it waited for, or, when every thread of the queue
    waits for a locked mutex, with none. -/
def DeadlockDetected (e : Executor) (origin : Nat) : Prop :=
  ∃ fuel isAbleToRun e' t, retryLoop false origin fuel e origin = .ended isAbleToRun e' t ∧
    (isAbleToRun = true → e'.state.stateOf t = some .runnable ∧
      ∀ mutex, e.wanted t = some mutex →
        e'.mutexManager.mutexPool[mutex]? = some { isLocked := true, lockedThreadId := t }) ∧
    (isAbleToRun = false → ∀ q ∈ e.state.queue, e.Stuck q)

/-- Up to the order of the queue, the states are the same for scheduling. -/
structure Rotated (e e' : Executor) : Prop where
  state : ∀ q, e'.state.stateOf q = e.state.stateOf q
  mutexPool : e'.mutexManager.mutexPool = e.mutexManager.mutexPool
  blocked : ∀ q : Nat, e'.mutexManager.blockedThreadPool[q]? = e.mutexManager.blockedThreadPool[q]?

namespace Rotated
variable {e e' e'' : Executor} {q : Nat}

theorem wanted (h : Rotated e e') : e'.wanted q = e.wanted q := by
  rw [Executor.wanted, Executor.wanted, h.state, h.blocked]

theorem stuck (h : Rotated e e') : e'.Stuck q ↔ e.Stuck q := by
  rw [Stuck, Stuck, h.wanted, h.mutexPool]

theorem ready (h : Rotated e e') : e'.Ready q ↔ e.Ready q := by
  rw [Ready, Ready, h.wanted, h.mutexPool, h.state]

end Rotated

variable {e e' : Executor} {origin t : Nat}

theorem wanted_eq_some {mutex : Nat} : e.wanted t = some mutex ↔
    e.state.stateOf t = some .mutexBlocked ∧ e.mutexManager.blockedThreadPool[t]? = some mutex := by
  rw [wanted]
  split
  next h => simp [h]
  next h => simp [h]

/-- One pass for a thread that waits for a locked mutex: the next thread of the queue is tested. -/
theorem attempt_stuck (origin : Nat) {rest : List Nat} {next : Nat} (h : e.Stuck t) (hqueue : e.state.queue = t :: rest)
    (hnext : (rest ++ [t]).head? = some next) :
    ∃ e', e.attempt false origin t = some (.test e' next) ∧ Rotated e e' ∧ e'.state.queue = rest ++ [t] := by
  obtain ⟨mutex, state, hwanted, hstate, hlocked⟩ := h
  obtain ⟨-, hmutex⟩ := wanted_eq_some.mp hwanted
  refine ⟨Executor.reSchedule { e with
    mutexManager := { e.mutexManager with blockedThreadPool := e.mutexManager.blockedThreadPool.insertIfNew t mutex } },
    ?_, ⟨fun q => rfl, rfl, fun q => ?_⟩, ?_⟩
  · simp [attempt, MutexManager.tryToLockForBlockedThread, MutexManager.lock, hmutex, hstate, hlocked, reSchedule,
      ExecutionState.reSchedule, getNextThread, hqueue, hnext]
  · simp only [reSchedule, TreeMap.getElem?_insertIfNew]
    split
    next hq =>
      exact absurd (TreeMap.mem_iff_isSome_getElem?.mpr (by rw [hmutex]; rfl)) hq.2
    next => rfl
  · simp [reSchedule, ExecutionState.reSchedule, hqueue]

/-- One pass for a thread that waits for a mutex that is not locked: it gets it. -/
theorem attempt_free (origin : Nat) {mutex : Nat} {state : Mutex} (hwanted : e.wanted t = some mutex)
    (hstate : e.mutexManager.mutexPool[mutex]? = some state) (hfree : state.isLocked = false) :
    ∃ e', e.attempt false origin t = some (.test e' t) ∧ e'.state.stateOf t = some .runnable ∧
      e'.mutexManager.mutexPool[mutex]? = some { isLocked := true, lockedThreadId := t } := by
  obtain ⟨hblocked, hmutex⟩ := wanted_eq_some.mp hwanted
  refine ⟨_, by simp [attempt, MutexManager.tryToLockForBlockedThread, MutexManager.lock, hmutex, hstate, hfree]; rfl, ?_,
    TreeMap.getElem?_insert_self⟩
  rw [stateOf_modify (g := fun _ => .runnable) fun _ => rfl, hblocked]
  simp

/-- The threads before the first one that can run are passed over. -/
theorem retryLoop_ready (origin : Nat) {before after : List Nat} {q : Nat} (hqueue : e.state.queue = before ++ q :: after)
    (hstuck : ∀ p ∈ before, e.Stuck p) (hready : e.Ready q) (hhead : e.state.queue.head? = some t)
    (ht : e.state.stateOf t = some .mutexBlocked) :
    ∃ fuel e', retryLoop false origin fuel e t = .ended true e' q ∧ e'.state.stateOf q = some .runnable ∧
      ∀ mutex, e.wanted q = some mutex →
        e'.mutexManager.mutexPool[mutex]? = some { isLocked := true, lockedThreadId := q } := by
  induction before generalizing e t after with
  | nil =>
    obtain rfl : q = t := by simpa [hqueue] using hhead
    obtain hrun | ⟨mutex, state, hwanted, hstate, hfree⟩ := hready
    · rw [ht] at hrun
      cases hrun
    obtain ⟨e', hattempt, hrun, howned⟩ := attempt_free origin hwanted hstate hfree
    refine ⟨1, e', by simp [retryLoop, hattempt, hrun], hrun, fun mutex' hmutex' => ?_⟩
    rw [hwanted] at hmutex'
    rwa [← Option.some.inj hmutex']
  | cons p before ih =>
    obtain rfl : p = t := by simpa [hqueue] using hhead
    rw [List.cons_append] at hqueue
    have hp := hstuck p List.mem_cons_self
    obtain ⟨next, hnext⟩ : ∃ next, (before ++ q :: after).head? = some next := by
      cases before <;> simp
    have hnext' : (before ++ q :: after ++ [p]).head? = some next := by
      rw [List.head?_append, hnext]
      rfl
    obtain ⟨e₁, hattempt, hrotated, hqueue₁⟩ := attempt_stuck origin hp hqueue hnext'
    have hstuck₁ : ∀ p ∈ before, e₁.Stuck p := fun p' hp' => hrotated.stuck.mpr (hstuck p' (List.mem_cons_of_mem _ hp'))
    by_cases hrun : e₁.state.stateOf next = some .runnable
    · -- only the thread that is ready can be runnable
      obtain rfl : next = q := by
        cases before with
        | nil => simpa using hnext.symm
        | cons p' before =>
          obtain rfl : p' = next := by simpa using hnext
          obtain ⟨mutex, state, hwanted, -⟩ := hstuck₁ p' List.mem_cons_self
          rw [(wanted_eq_some.mp hwanted).1] at hrun
          cases hrun
      refine ⟨1, e₁, by simp [retryLoop, hattempt, hrun], hrun, fun mutex hmutex => ?_⟩
      rw [← hrotated.wanted] at hmutex
      rw [(wanted_eq_some.mp hmutex).1] at hrun
      cases hrun
    · have hnext₁ : e₁.state.stateOf next = some .mutexBlocked := by
        cases before with
        | nil =>
          obtain rfl : q = next := by simpa using hnext
          obtain hq | ⟨mutex, state, hwanted, -⟩ := hrotated.ready.mpr hready
          · exact absurd hq hrun
          · exact (wanted_eq_some.mp hwanted).1
        | cons p' before =>
          obtain rfl : p' = next := by simpa using hnext
          obtain ⟨mutex, state, hwanted, -⟩ := hstuck₁ p' List.mem_cons_self
          exact (wanted_eq_some.mp hwanted).1
      obtain ⟨fuel, e', hloop, hq, howned⟩ := ih (e := e₁) (t := next)
        (by rw [hqueue₁, List.append_assoc, List.cons_append]) hstuck₁ (hrotated.ready.mpr hready)
        (by rw [hqueue₁, List.head?_append, hnext]; rfl) hnext₁
      refine ⟨fuel + 1, e', by simp [retryLoop, hattempt, hnext₁, hloop], hq, fun mutex hmutex => ?_⟩
      exact howned mutex (by rwa [hrotated.wanted])

/-- When every thread of the queue waits for a locked mutex, the loop goes round for ever. -/
theorem retryLoop_stuck (hstuck : ∀ q ∈ e.state.queue, e.Stuck q) (hhead : e.state.queue.head? = some t) (fuel : Nat) :
    retryLoop false origin fuel e t = .running := by
  induction fuel generalizing e t with
  | zero => rfl
  | succ fuel ih =>
    obtain ⟨rest, hqueue⟩ : ∃ rest, e.state.queue = t :: rest := by
      cases hlist : e.state.queue with
      | nil => simp [hlist] at hhead
      | cons p rest => exact ⟨rest, by simpa [hlist] using hhead⟩
    obtain ⟨next, hnext⟩ : ∃ next, (rest ++ [t]).head? = some next := by cases rest <;> simp
    obtain ⟨e₁, hattempt, hrotated, hqueue₁⟩ := attempt_stuck origin (hstuck t (by simp [hqueue])) hqueue hnext
    have hstuck₁ : ∀ q ∈ e₁.state.queue, e₁.Stuck q := by
      intro q hq
      refine hrotated.stuck.mpr (hstuck q ?_)
      rw [hqueue₁, List.mem_append, List.mem_singleton] at hq
      rw [hqueue, List.mem_cons]
      exact hq.symm
    obtain ⟨mutex, state, hwanted, -⟩ := hstuck₁ next (by rw [hqueue₁]; exact List.mem_of_head? hnext)
    have hblocked := (wanted_eq_some.mp hwanted).1
    simp [retryLoop, hattempt, hblocked, ih hstuck₁ (by rw [hqueue₁, hnext])]

theorem ready_or_stuck (hplaced : Placed e) (hblocked : Blocked e) {q : Nat} (hq : q ∈ e.state.queue) : e.Ready q ∨ e.Stuck q := by
  rcases (hplaced.queue.mem q).mp hq with hrun | hwaits
  · exact .inl (.inl hrun)
  obtain ⟨mutex, hmutex⟩ := Option.isSome_iff_exists.mp (TreeMap.mem_iff_isSome_getElem?.mp ((hblocked.mem q).mpr hwaits))
  obtain ⟨state, hstate⟩ := Option.isSome_iff_exists.mp (TreeMap.mem_iff_isSome_getElem?.mp (hblocked.known hmutex))
  have hwanted := wanted_eq_some.mpr ⟨hwaits, hmutex⟩
  cases hlocked : state.isLocked with
  | true => exact .inr ⟨mutex, state, hwanted, hstate, hlocked⟩
  | false => exact .inl (.inr ⟨mutex, state, hwanted, hstate, hlocked⟩)

/-- In a reachable state with a blocked thread at the head of the queue, the loop does what it is meant to do exactly when
    some thread of the queue can run. -/
theorem deadlockDetected_iff {C : List ExecStep → Executor → Nat → Inst → Prop} {steps : List ExecStep}
    (h : ExecutorRun C steps e) (hselected : e.state.getNextThread = some origin)
    (hblocked : e.state.stateOf origin = some .mutexBlocked) :
    DeadlockDetected e origin ↔ ∃ q ∈ e.state.queue, e.Ready q := by
  obtain ⟨hplaced, hpool⟩ := executorRun_placed h
  constructor
  · rintro ⟨fuel, isAbleToRun, e', t, hloop, -, -⟩
    by_contra hnone
    rw [retryLoop_stuck (fun q hq => ?_) hselected] at hloop
    · cases hloop
    · exact (ready_or_stuck hplaced hpool hq).resolve_left fun hready => hnone ⟨q, hq, hready⟩
  · rintro ⟨q₀, hq₀, hready₀⟩
    classical
    obtain ⟨q, hfirst⟩ := Option.isSome_iff_exists.mp
      (List.find?_isSome (p := fun q => decide (e.Ready q)).mpr ⟨q₀, hq₀, decide_eq_true hready₀⟩)
    obtain ⟨hready, before, after, hqueue, hbefore⟩ := List.find?_eq_some_iff_append.mp hfirst
    have hstuck : ∀ p ∈ before, e.Stuck p := by
      intro p hp
      refine (ready_or_stuck hplaced hpool (by rw [hqueue]; exact List.mem_append_left _ hp)).resolve_left ?_
      simpa using hbefore p hp
    obtain ⟨fuel, e', hloop, hrun, howned⟩ :=
      retryLoop_ready origin hqueue hstuck (of_decide_eq_true hready) hselected hblocked
    exact ⟨fuel, true, e', q, hloop, fun _ => ⟨hrun, howned⟩, by simp⟩

/-- Two threads lock two mutexes in opposite orders; with `second` they also want each other's. -/
def lockBoth (second : Bool) : List (Nat × Inst) :=
  [(1, .call (.pthreadCreate ⟨2, 16, false⟩)), (1, .call (.pthreadMutexLock ⟨1, 8, true⟩)),
    (2, .call (.pthreadMutexLock ⟨1, 9, true⟩)), (1, .call (.pthreadMutexLock ⟨1, 9, true⟩))] ++
    if second then [(2, .call (.pthreadMutexLock ⟨1, 8, true⟩))] else []

theorem deadlockDetected_lockBoth :
    ∃ steps e, Executor.run (fun _ _ _ _ => True) [.mutex 8, .mutex 9] (lockBoth false) = some (steps, e) ∧
      e.state.getNextThread = some 1 ∧ e.state.stateOf 1 = some .mutexBlocked ∧ e.state.stateOf 2 = some .runnable ∧
      (DeadlockDetected e 1 ↔ ∃ q ∈ e.state.queue, e.Ready q) := by
  have hrun : (Executor.run (fun _ _ _ _ => True) [.mutex 8, .mutex 9] (lockBoth false)).isSome := by decide +kernel
  obtain ⟨⟨steps, e⟩, hsteps⟩ := Option.isSome_iff_exists.mp hrun
  have hshape : (Executor.run (fun _ _ _ _ => True) [.mutex 8, .mutex 9] (lockBoth false)).map
      (fun result => (result.2.state.getNextThread, result.2.state.stateOf 1, result.2.state.stateOf 2)) =
      some (some 1, some .mutexBlocked, some .runnable) := by decide +kernel
  rw [hsteps, Option.map_some, Option.some.injEq, Prod.mk.injEq, Prod.mk.injEq] at hshape
  obtain ⟨hselected, hblocked, hother⟩ := hshape
  exact ⟨steps, e, hsteps, hselected, hblocked, hother, deadlockDetected_iff (run_executorRun hsteps) hselected hblocked⟩

theorem not_deadlockDetected_lockBoth :
    ¬∀ steps e origin, ExecutorRun (fun _ _ _ _ => True) steps e → e.state.getNextThread = some origin →
      e.state.stateOf origin = some .mutexBlocked → DeadlockDetected e origin := by
  intro hall
  have hrun : (Executor.run (fun _ _ _ _ => True) [.mutex 8, .mutex 9] (lockBoth true)).isSome := by decide +kernel
  obtain ⟨⟨steps, e⟩, hsteps⟩ := Option.isSome_iff_exists.mp hrun
  have hshape : (Executor.run (fun _ _ _ _ => True) [.mutex 8, .mutex 9] (lockBoth true)).map
      (fun result => (result.2.state.queue, result.2.state.stateOf 1, result.2.wanted 1, result.2.wanted 2)) =
      some ([1, 2], some .mutexBlocked, some 9, some 8) := by decide +kernel
  have hmutexes : (Executor.run (fun _ _ _ _ => True) [.mutex 8, .mutex 9] (lockBoth true)).map
      (fun result => (result.2.mutexManager.mutexPool[8]?, result.2.mutexManager.mutexPool[9]?)) =
      some (some ⟨true, 1⟩, some ⟨true, 2⟩) := by decide +kernel
  rw [hsteps, Option.map_some] at hshape hmutexes
  simp only [Option.some.injEq, Prod.mk.injEq] at hshape hmutexes
  obtain ⟨hqueue, hblocked, hwanted₁, hwanted₂⟩ := hshape
  obtain ⟨hstate₁, hstate₂⟩ := hmutexes
  have hselected : e.state.getNextThread = some 1 := by rw [getNextThread, hqueue]; rfl
  have hstuck : ∀ q ∈ e.state.queue, e.Stuck q := by
    intro q hq
    rw [hqueue] at hq
    rcases List.mem_cons.mp hq with rfl | hq
    · exact ⟨9, _, hwanted₁, hstate₂, rfl⟩
    · obtain rfl := List.mem_singleton.mp hq
      exact ⟨8, _, hwanted₂, hstate₁, rfl⟩
  obtain ⟨fuel, isAbleToRun, e', t, hloop, -⟩ := hall steps e 1 (run_executorRun hsteps) hselected hblocked
  rw [retryLoop_stuck hstuck hselected] at hloop
  cases hloop

end CapTaint.Executor
