import CapTaint.Lib.VectorClock
import CapTaint.Theorems.Mutexes

/-! Mutual exclusion. Who holds a mutex is read off the history of the run, and the state of the mutex agrees with it. -/

namespace CapTaint
open Std Executor Snoc

/-! ### The history of the locks -/

inductive LockOp
  | acquire (threadId mutex : Nat)
  | release (threadId mutex : Nat)
  deriving DecidableEq

/-- What a step did to mutexes: first the mutex that the thread got when it was scheduled, then its instruction. -/
def ExecStep.lockOps (s : ExecStep) : List LockOp :=
  s.relocked.toList.map (.acquire s.threadId) ++ (s.inst.acquires s.outcome).toList.map (.acquire s.threadId) ++
    s.inst.releases.toList.map (.release s.threadId)

def lockHistory (steps : List ExecStep) : List LockOp := steps.flatMap ExecStep.lockOps

/-- The thread has acquired the mutex and has not released it since. -/
def Holds (ops : List LockOp) (t mutex : Nat) : Prop :=
  ∃ i < ops.length, ops[i]? = some (.acquire t mutex) ∧ ∀ j < ops.length, i < j → ops[j]? ≠ some (.release t mutex)

instance (ops : List LockOp) (t mutex : Nat) : Decidable (Holds ops t mutex) := by
  unfold Holds
  infer_instance

theorem holds_snoc {ops : List LockOp} {op : LockOp} {t mutex : Nat} :
    Holds (ops ++ [op]) t mutex ↔ op = .acquire t mutex ∨ Holds ops t mutex ∧ op ≠ .release t mutex := by
  constructor
  · rintro ⟨i, hi, hacquire, hkept⟩
    rcases getElem?_snoc_cases hacquire with hacquire | ⟨-, hop⟩
    swap
    · exact .inl hop.symm
    refine .inr ⟨⟨i, (List.getElem?_eq_some_iff.mp hacquire).1, hacquire, fun j hj hij hrelease => ?_⟩, fun hop => ?_⟩
    · exact hkept j (by simp; omega) hij (getElem?_snoc_of_some hrelease)
    · have hlt := (List.getElem?_eq_some_iff.mp hacquire).1
      exact hkept ops.length (by simp) hlt (by simp [hop])
  · rintro (rfl | ⟨⟨i, hi, hacquire, hkept⟩, hop⟩)
    · refine ⟨ops.length, by simp, by simp, fun j hj hij => ?_⟩
      rw [List.length_append, List.length_singleton] at hj
      omega
    · refine ⟨i, by simp; omega, getElem?_snoc_of_some hacquire, fun j hj hij hrelease => ?_⟩
      rcases getElem?_snoc_cases hrelease with hrelease | ⟨-, hrelease⟩
      · exact hkept j (List.getElem?_eq_some_iff.mp hrelease).1 hij hrelease
      · exact hop hrelease.symm

/-- A thread gives up only mutexes that it holds. -/
def OwnsReleased (steps : List ExecStep) (e : Executor) (t : Nat) (inst : Inst) : Prop :=
  ∀ mutex ∈ inst.releases, Holds (lockHistory steps ++ (e.wanted t).toList.map (.acquire t)) t mutex

instance (steps : List ExecStep) (e : Executor) (t : Nat) (inst : Inst) : Decidable (OwnsReleased steps e t inst) := by
  unfold OwnsReleased
  infer_instance

/-! ### The mutexes and the history agree -/

/-- The locked mutexes are those that a thread holds. -/
def Owned (ops : List LockOp) (m : MutexManager) : Prop :=
  ∀ mutex t, Holds ops t mutex ↔ m.mutexPool[mutex]? = some { isLocked := true, lockedThreadId := t }

namespace Owned
variable {ops : List LockOp} {m m' : MutexManager} {t mutex : Nat}

theorem congr (h : Owned ops m) (hpool : ∀ k : Nat, m'.mutexPool[k]? = m.mutexPool[k]?) : Owned ops m' := by
  intro k q
  rw [hpool]
  exact h k q

theorem acquire (h : Owned ops m) {state : Mutex} (hstate : m.mutexPool[mutex]? = some state) (hfree : state.isLocked = false)
    (hafter : m'.mutexPool[mutex]? = some { isLocked := true, lockedThreadId := t })
    (hframe : ∀ k : Nat, k ≠ mutex → m'.mutexPool[k]? = m.mutexPool[k]?) : Owned (ops ++ [.acquire t mutex]) m' := by
  intro k q
  rw [holds_snoc, h k q]
  by_cases hk : k = mutex
  · subst hk
    have hnot : ¬m.mutexPool[k]? = some { isLocked := true, lockedThreadId := q } := by
      rw [hstate]
      rintro heq
      rw [Option.some.inj heq] at hfree
      cases hfree
    simp [hnot, hafter]
  · simp [hframe k hk, Ne.symm hk]

theorem release (h : Owned ops m) (hholds : Holds ops t mutex) {state : Mutex}
    (hafter : m'.mutexPool[mutex]? = some state) (hfree : state.isLocked = false)
    (hframe : ∀ k : Nat, k ≠ mutex → m'.mutexPool[k]? = m.mutexPool[k]?) : Owned (ops ++ [.release t mutex]) m' := by
  intro k q
  rw [holds_snoc, h k q]
  by_cases hk : k = mutex
  · subst hk
    have hnot : ¬m'.mutexPool[k]? = some { isLocked := true, lockedThreadId := q } := by
      rw [hafter]
      rintro heq
      rw [Option.some.inj heq] at hfree
      cases hfree
    have howner := (h k t).mp hholds
    simp [hnot, howner]
  · simp [hframe k hk, Ne.symm hk]

end Owned

theorem Inst.releases_of_acquires {inst : Inst} {o : Outcome} {mutex : Nat} (h : inst.acquires o = some mutex) :
    inst.releases = none := by
  unfold Inst.acquires at h
  split at h
  · rfl
  · cases h

section
variable {steps : List ExecStep} {ops : List LockOp} {e e' : Executor} {t : Nat} {inst : Inst} {o : Outcome}

theorem schedule_owned (h : Owned ops e.mutexManager) (hblocked : Blocked e) (hs : e.schedule t = some e') :
    Owned (ops ++ (e.wanted t).toList.map (.acquire t)) e'.mutexManager := by
  obtain ⟨-, -, hfree, hpool⟩ := schedule_mutexes hblocked hs
  cases hwanted : e.wanted t with
  | none => simpa using h.congr fun k => by simp [hpool, hwanted]
  | some mutex =>
    obtain ⟨state, hstate, hunlocked⟩ := hfree mutex hwanted
    refine h.acquire hstate hunlocked (by rw [hpool, if_pos hwanted]) fun k hk => ?_
    rw [hpool, if_neg]
    rw [hwanted]
    exact fun heq => hk (Option.some.inj heq).symm

theorem instruction_owned (h : Owned ops e.mutexManager) (heffect : MutexEffect t inst o e e')
    (hholds : ∀ mutex ∈ inst.releases, Holds ops t mutex) :
    Owned (ops ++ ((inst.acquires o).toList.map (.acquire t) ++ inst.releases.toList.map (.release t))) e'.mutexManager := by
  cases hacquires : inst.acquires o with
  | some mutex =>
    obtain ⟨⟨state, hstate, hfree⟩, hafter⟩ := heffect.acquires mutex hacquires
    have hreleases := Inst.releases_of_acquires hacquires
    rw [hreleases]
    refine h.acquire hstate hfree hafter fun k hk => ?_
    refine heffect.frame k ?_ (by rw [hreleases]; exact fun heq => by cases heq)
    rw [hacquires]
    exact fun heq => hk (Option.some.inj heq).symm
  | none =>
    cases hreleases : inst.releases with
    | none => simpa using h.congr fun k => heffect.frame k (by simp [hacquires]) (by simp [hreleases])
    | some mutex =>
      obtain ⟨state, hafter, hfree⟩ := heffect.releases mutex hreleases
      refine h.release (hholds mutex hreleases) hafter hfree fun k hk => ?_
      refine heffect.frame k (by simp [hacquires]) ?_
      rw [hreleases]
      exact fun heq => hk (Option.some.inj heq).symm

theorem executorRun_owned (h : ExecutorRun OwnsReleased steps e) : Owned (lockHistory steps) e.mutexManager := by
  induction h with
  | start =>
    intro mutex t
    refine iff_of_false ?_ (by simp [Executor.start])
    rintro ⟨i, hi, -⟩
    cases hi
  | createSpecialElement element hrun ih =>
    cases element with
    | mutex address =>
      intro k q
      rw [ih k q, createSpecialElement, MutexManager.addMutex, TreeMap.getElem?_insertIfNew]
      split
      next hnew =>
        obtain rfl := Std.compare_eq_iff_eq.mp hnew.1
        simp [TreeMap.getElem?_eq_none hnew.2]
      next => rfl
    | cond address => exact ih
    | barrier address => exact ih
  | reSchedule _ ih => exact ih
  | step hrun hC hstep ih =>
    obtain ⟨e₁, hschedule, hs⟩ := Option.bind_eq_some_iff.mp hstep
    obtain ⟨hplaced, hblocked⟩ := executorRun_placed hrun
    obtain ⟨hplaced₁, ht⟩ := schedule_placed hplaced hschedule
    have heffect := executeInstruction_mutexEffect (schedule_mutexes hblocked hschedule).1 hplaced₁ ht hs
    have howned := instruction_owned (schedule_owned ih hblocked hschedule) heffect hC
    simpa [lockHistory, ExecStep.lockOps] using howned

/-! ### A wait ends with the mutex -/

/-- The thread of step `i` still awaits the mutex and has made no step since, or its next step began with the mutex. -/
def Regains (steps : List ExecStep) (e : Executor) (i : Nat) (a : ExecStep) (mutex : Nat) : Prop :=
  (e.Awaits a.threadId mutex ∧ ∀ (k : Nat) (c : ExecStep), i < k → steps[k]? = some c → c.threadId ≠ a.threadId) ∨
  ∃ (j : Nat) (b : ExecStep), i < j ∧ steps[j]? = some b ∧ b.threadId = a.threadId ∧ b.relocked = some mutex ∧
    ∀ (k : Nat) (c : ExecStep), i < k → k < j → steps[k]? = some c → c.threadId ≠ a.threadId

/-- Each wait so far: its thread still awaits the mutex and has made no step since, or its next step began with the
    mutex. -/
def WaitsRelocked (steps : List ExecStep) (e : Executor) : Prop :=
  ∀ (i : Nat) (a : ExecStep) (cond mutex : Location), steps[i]? = some a → a.inst = .call (.pthreadCondWait cond mutex) →
    (e.Awaits a.threadId mutex.address ∧ ∀ (k : Nat) (c : ExecStep), i < k → steps[k]? = some c → c.threadId ≠ a.threadId) ∨
    ∃ (j : Nat) (b : ExecStep), i < j ∧ steps[j]? = some b ∧ b.threadId = a.threadId ∧ b.relocked = some mutex.address ∧
      ∀ (k : Nat) (c : ExecStep), i < k → k < j → steps[k]? = some c → c.threadId ≠ a.threadId

theorem Regains.congr {i mutex : Nat} {a : ExecStep} (h : Regains steps e i a mutex)
    (hawaits : e.Awaits a.threadId mutex → e'.Awaits a.threadId mutex) : Regains steps e' i a mutex :=
  h.imp_left (And.imp_left hawaits)

theorem createSpecialElement_awaits (element : SpecialElement) {q mutex : Nat} (h : e.Awaits q mutex) :
    (e.createSpecialElement element).Awaits q mutex := by
  cases element with
  | mutex address => exact h
  | barrier address => exact h
  | cond address =>
    refine h.imp_left ?_
    rintro ⟨k, hk⟩
    refine ⟨k, ?_⟩
    rw [createSpecialElement, CondManager.addCondition, TreeMap.getD_insertIfNew]
    split
    next hnew =>
      obtain rfl := Std.compare_eq_iff_eq.mp hnew.1
      rw [TreeMap.getD_eq_fallback hnew.2] at hk
      cases hk
    next => exact hk

/-- A thread that awaits a mutex is scheduled only when it gets it. -/
theorem wanted_of_awaits (hplaced : Placed e) (hblocked : Blocked e) {mutex : Nat} (hawaits : e.Awaits t mutex)
    (hs : e.schedule t = some e') : e.wanted t = some mutex := by
  have hpool : e.mutexManager.blockedThreadPool[t]? = some mutex := by
    refine hawaits.resolve_left ?_
    rintro ⟨cond, hwp⟩
    have hcond : e.state.stateOf t = some .condBlocked :=
      (hplaced.waiters.mem t).mpr ⟨cond, List.mem_map.mpr ⟨_, hwp, rfl⟩⟩
    rcases schedule_eq hs with ⟨hstate, -⟩ | ⟨hstate, -⟩
    · rw [hcond] at hstate
      cases hstate
    · rw [hcond] at hstate
      cases hstate
  have hstate : e.state.stateOf t = some .mutexBlocked :=
    (hblocked.mem t).mp (TreeMap.mem_iff_isSome_getElem?.mpr (by rw [hpool]; rfl))
  rw [wanted, if_pos hstate, hpool]

theorem Regains.step {e₁ : Executor} {i mutex : Nat} {a : ExecStep} (h : Regains steps e i a mutex) (ha : steps[i]? = some a)
    (hplaced : Placed e) (hblocked : Blocked e) (hschedule : e.schedule t = some e₁) (heffect : MutexEffect t inst o e₁ e') :
    Regains (steps ++ [{ threadId := t, inst := inst, outcome := o, relocked := e.wanted t }]) e' i a mutex := by
  obtain ⟨-, hawaits, -⟩ := schedule_mutexes hblocked hschedule
  have hi := (List.getElem?_eq_some_iff.mp ha).1
  rcases h with ⟨hwaits, hquiet⟩ | ⟨j, b, hij, hb, hthread, hrelocked, hquiet⟩
  · by_cases ht : a.threadId = t
    · -- the wait ends with this step
      refine .inr ⟨steps.length, _, hi, List.getElem?_concat_length, ht.symm, ?_, fun k c hik hk hc => ?_⟩
      · exact wanted_of_awaits hplaced hblocked (ht ▸ hwaits) hschedule
      · rcases getElem?_snoc_cases hc with hc | ⟨rfl, -⟩
        · exact hquiet k c hik hc
        · omega
    · refine .inl ⟨heffect.awaits ht (hawaits ht hwaits), fun k c hik hc => ?_⟩
      rcases getElem?_snoc_cases hc with hc | ⟨-, rfl⟩
      · exact hquiet k c hik hc
      · exact Ne.symm ht
  · refine .inr ⟨j, b, hij, getElem?_snoc_of_some hb, hthread, hrelocked, fun k c hik hkj hc => ?_⟩
    rcases getElem?_snoc_cases hc with hc | ⟨rfl, -⟩
    · exact hquiet k c hik hkj hc
    · have hj := (List.getElem?_eq_some_iff.mp hb).1
      omega

/-- A thread awaits the mutex right after its step. -/
theorem Regains.new {s : ExecStep} {mutex : Nat} (hawaits : e.Awaits s.threadId mutex) : Regains (steps ++ [s]) e steps.length s mutex := by
  refine .inl ⟨hawaits, fun k c hik hc => ?_⟩
  have hk := (List.getElem?_eq_some_iff.mp hc).1
  rw [List.length_append, List.length_singleton] at hk
  omega

theorem WaitsRelocked.step {e₁ : Executor} (h : WaitsRelocked steps e) (hplaced : Placed e) (hblocked : Blocked e)
    (hschedule : e.schedule t = some e₁) (heffect : MutexEffect t inst o e₁ e') :
    WaitsRelocked (steps ++ [{ threadId := t, inst := inst, outcome := o, relocked := e.wanted t }]) e' := by
  intro i a cond mutex ha hinst
  rcases getElem?_snoc_cases ha with ha | ⟨rfl, rfl⟩
  · exact Regains.step (h i a cond mutex ha hinst) ha hplaced hblocked hschedule heffect
  · exact Regains.new (heffect.waits cond mutex hinst)

theorem executorRun_waitsRelocked {C : List ExecStep → Executor → Nat → Inst → Prop} (h : ExecutorRun C steps e) :
    WaitsRelocked steps e := by
  induction h with
  | start =>
    intro i a cond mutex ha
    simp at ha
  | createSpecialElement element _ ih =>
    exact fun i a cond mutex ha hinst => Regains.congr (ih i a cond mutex ha hinst) (createSpecialElement_awaits element)
  | reSchedule _ ih => exact fun i a cond mutex ha hinst => Regains.congr (ih i a cond mutex ha hinst) fun hq => hq
  | step hrun _ hstep ih =>
    obtain ⟨e₁, hschedule, hs⟩ := Option.bind_eq_some_iff.mp hstep
    obtain ⟨hplaced, hblocked⟩ := executorRun_placed hrun
    obtain ⟨hplaced₁, ht⟩ := schedule_placed hplaced hschedule
    exact ih.step hplaced hblocked hschedule
      (executeInstruction_mutexEffect (schedule_mutexes hblocked hschedule).1 hplaced₁ ht hs)

/-! ### The result -/

/-- A mutex is locked exactly when one thread holds it, and that thread is its owner. -/
def MutexOwnership (steps : List ExecStep) (e : Executor) : Prop :=
  ∀ (mutex : Nat) (state : Mutex), e.mutexManager.mutexPool[mutex]? = some state →
    (state.isLocked = true ↔ ∃! t, Holds (lockHistory steps) t mutex) ∧
      ∀ t, Holds (lockHistory steps) t mutex → state.lockedThreadId = t

/-- The first step of a thread after a wait begins with the mutex that it waited with. -/
def RelockedAfterWait (steps : List ExecStep) : Prop :=
  ∀ (i j : Nat) (a b : ExecStep) (cond mutex : Location), steps[i]? = some a → steps[j]? = some b →
    a.inst = .call (.pthreadCondWait cond mutex) → i < j → b.threadId = a.threadId →
    (∀ (k : Nat) (c : ExecStep), i < k → k < j → steps[k]? = some c → c.threadId ≠ a.threadId) →
    b.relocked = some mutex.address

/-- In every run in which threads release only mutexes that they hold, the mutexes agree with the history of the run, and
    a thread that was woken from a wait goes on only with its mutex. -/
theorem mutual_exclusion (h : ExecutorRun OwnsReleased steps e) : MutexOwnership steps e ∧ RelockedAfterWait steps := by
  refine ⟨fun mutex state hstate => ?_, fun i j a b cond mutex ha hb hinst hij hthread hquiet => ?_⟩
  · have howned := executorRun_owned h mutex
    simp only [hstate, Option.some.injEq] at howned
    refine ⟨⟨fun hlocked => ⟨state.lockedThreadId, ?_, fun t ht => ?_⟩, ?_⟩, fun t ht => ?_⟩
    · exact (howned _).mpr (by rw [← hlocked])
    · rw [(howned t).mp ht]
    · rintro ⟨t, ht, -⟩
      rw [(howned t).mp ht]
    · rw [(howned t).mp ht]
  · rcases executorRun_waitsRelocked h i a cond mutex ha hinst with ⟨-, hnone⟩ | ⟨j', b', hij', hb', hthread', hrelocked, hquiet'⟩
    · exact absurd hthread (hnone j b hij hb)
    · obtain hlt | rfl | hlt := Nat.lt_trichotomy j j'
      · exact absurd hthread (hquiet' j b hij hlt hb)
      · rw [hb] at hb'
        rwa [Option.some.inj hb']
      · exact absurd hthread' (hquiet j' b' hij' hlt hb')

/-- A thread waits for a signal of the main thread, and goes on when this one has unlocked the mutex. -/
def waitAndSignal : List (Nat × Inst) :=
  [(1, .call (.pthreadCreate ⟨2, 16, false⟩)), (2, .call (.pthreadMutexLock ⟨1, 8, true⟩)),
    (2, .call (.pthreadCondWait ⟨1, 9, true⟩ ⟨1, 8, true⟩)), (1, .call (.pthreadMutexLock ⟨1, 8, true⟩)),
    (1, .call (.pthreadCondSignal ⟨1, 9, true⟩)), (1, .call (.pthreadMutexUnlock ⟨1, 8, true⟩)),
    (2, .load ⟨1, 24, true⟩ false)]

theorem mutual_exclusion_waitAndSignal :
    ∃ steps e, Executor.run OwnsReleased [.mutex 8, .cond 9] waitAndSignal = some (steps, e) ∧
      steps.map (·.relocked) = [none, none, none, none, none, none, some 8] ∧
      MutexOwnership steps e ∧ RelockedAfterWait steps := by
  have hrun : (Executor.run OwnsReleased [.mutex 8, .cond 9] waitAndSignal).isSome := by decide +kernel
  obtain ⟨⟨steps, e⟩, hsteps⟩ := Option.isSome_iff_exists.mp hrun
  have hrelocked : (Executor.run OwnsReleased [.mutex 8, .cond 9] waitAndSignal).map
      (fun result => result.1.map (·.relocked)) = some [none, none, none, none, none, none, some 8] := by decide +kernel
  rw [hsteps] at hrelocked
  exact ⟨steps, e, hsteps, Option.some.inj hrelocked, mutual_exclusion (run_executorRun hsteps)⟩

end

end CapTaint
