import CapTaint.Theorems.Placement

/-! The threads that wait for a mutex, and the place of every thread in every reachable state. -/

namespace CapTaint
open Std ExecutionState

/-! ### The mutex manager -/

namespace MutexManager
variable {m m' : MutexManager} {mutex t : Nat} {isBlocked : Bool}

theorem lock_eq (h : m.lock mutex t = some (isBlocked, m')) :
    ∃ state, m.mutexPool[mutex]? = some state ∧
      (state.isLocked = true ∧ isBlocked = true ∧
          m' = { m with blockedThreadPool := m.blockedThreadPool.insertIfNew t mutex } ∨
        state.isLocked = false ∧ isBlocked = false ∧
          m' = { mutexPool := m.mutexPool.insert mutex { isLocked := true, lockedThreadId := t }
                 blockedThreadPool := m.blockedThreadPool.erase t }) := by
  unfold lock at h
  split at h
  next => cases h
  next state hstate =>
    split at h
    next hlocked =>
      obtain ⟨rfl, rfl⟩ := Prod.mk.inj (Option.some.inj h)
      exact ⟨state, hstate, .inl ⟨hlocked, rfl, rfl⟩⟩
    next hfree =>
      obtain ⟨rfl, rfl⟩ := Prod.mk.inj (Option.some.inj h)
      exact ⟨state, hstate, .inr ⟨by simpa using hfree, rfl, rfl⟩⟩

theorem unlock_eq (h : m.unlock mutex = some m') :
    ∃ state, m.mutexPool[mutex]? = some state ∧ m'.blockedThreadPool = m.blockedThreadPool ∧
      m' = if state.isLocked then { m with mutexPool := m.mutexPool.insert mutex {} } else m := by
  unfold unlock at h
  split at h
  next => cases h
  next state hstate =>
    obtain rfl := Option.some.inj h
    refine ⟨state, hstate, ?_, rfl⟩
    split <;> rfl

theorem tryToLock_eq (h : m.tryToLockForBlockedThread t = some (isBlocked, m')) :
    ∃ mutex, m.blockedThreadPool[t]? = some mutex ∧ m.lock mutex t = some (isBlocked, m') := by
  unfold tryToLockForBlockedThread at h
  split at h
  next => cases h
  next mutex hmutex => exact ⟨mutex, hmutex, h⟩

/-- The released waiters wait for their mutexes. -/
theorem addBlockedThreads_eq {released : List WaitParam}
    (h : released.foldlM (fun m wp => m.addBlockedThread wp.threadId wp.mutex) m = some m') :
    m'.mutexPool = m.mutexPool ∧ (∀ wp ∈ released, wp.mutex ∈ m.mutexPool) ∧
      ∀ q, m'.blockedThreadPool[q]? =
        m.blockedThreadPool[q]?.or ((released.find? (·.threadId = q)).map (·.mutex)) := by
  induction released generalizing m with
  | nil =>
    obtain rfl := Option.some.inj h
    exact ⟨rfl, by simp, by simp⟩
  | cons wp released ih =>
    rw [List.foldlM_cons] at h
    obtain ⟨m₁, hone, hrest⟩ := Option.bind_eq_some_iff.mp h
    simp only [addBlockedThread, Option.ite_none_right_eq_some, Option.some.injEq] at hone
    obtain ⟨hknown, rfl⟩ := hone
    obtain ⟨hpool, hmutexes, hblocked⟩ := ih hrest
    refine ⟨hpool, fun wp' hwp' => ?_, fun q => ?_⟩
    · rcases List.mem_cons.mp hwp' with rfl | hwp'
      · exact hknown
      · exact hmutexes wp' hwp'
    · rw [hblocked, TreeMap.getElem?_insertIfNew, List.find?_cons]
      by_cases hq : wp.threadId = q
      · subst hq
        by_cases hmem : wp.threadId ∈ m.blockedThreadPool <;> simp [hmem]
      · simp [hq]

end MutexManager

namespace Executor
variable {e e' : Executor} {t : Nat} {o : Outcome}

/-- The pool of blocked threads has an entry for the threads that wait for a mutex, and they wait for known mutexes. -/
structure Blocked (e : Executor) : Prop where
  mem : ∀ q, q ∈ e.mutexManager.blockedThreadPool ↔ e.state.stateOf q = some .mutexBlocked
  known : ∀ {q mutex : Nat}, e.mutexManager.blockedThreadPool[q]? = some mutex → mutex ∈ e.mutexManager.mutexPool

/-- The thread waits for the mutex, or for a signal after which it waits for it. -/
def Awaits (e : Executor) (q mutex : Nat) : Prop :=
  (∃ cond, (⟨mutex, q⟩ : WaitParam) ∈ e.condManager.condPool.getD cond []) ∨
    e.mutexManager.blockedThreadPool[q]? = some mutex

theorem start_blocked : Blocked start := by
  refine ⟨fun q => ?_, fun hq => ?_⟩
  · have hstate := (start_placed.queue.mem q).mpr
    refine iff_of_false (by simp [start]) fun hq => ?_
    obtain rfl : q = 1 := by simpa [start] using hstate (.inr hq)
    cases hq
  · simp [start] at hq

/-- Nothing that concerns the waiting for mutexes changes. -/
theorem Blocked.congr (h : Blocked e) (hm : e'.mutexManager.blockedThreadPool = e.mutexManager.blockedThreadPool)
    (hpool : ∀ k ∈ e.mutexManager.mutexPool, k ∈ e'.mutexManager.mutexPool)
    (hstate : ∀ q, e'.state.stateOf q = some .mutexBlocked ↔ e.state.stateOf q = some .mutexBlocked) : Blocked e' := by
  refine ⟨fun q => ?_, fun hq => ?_⟩
  · rw [hm, hstate, h.mem]
  · rw [hm] at hq
    exact hpool _ (h.known hq)

theorem reSchedule_placed (h : Placed e) : Placed e.reSchedule := by
  refine ⟨⟨?_, fun q => ?_⟩, h.waiters, h.joiners, h.arrivals⟩
  · have hperm : (e.state.queue.drop 1 ++ e.state.queue.take 1).Perm e.state.queue :=
      List.perm_append_comm.trans (by rw [List.take_append_drop])
    exact hperm.nodup_iff.mpr h.queue.nodup
  · rw [← show e.Schedulable q ↔ e.reSchedule.Schedulable q from Iff.rfl, ← h.queue.mem]
    have hperm : (e.state.queue.drop 1 ++ e.state.queue.take 1).Perm e.state.queue :=
      List.perm_append_comm.trans (by rw [List.take_append_drop])
    exact hperm.mem_iff

theorem createSpecialElement_blocked (h : Blocked e) (element : SpecialElement) : Blocked (e.createSpecialElement element) := by
  cases element with
  | mutex address =>
    refine h.congr rfl (fun k hk => ?_) fun q => Iff.rfl
    exact TreeMap.mem_insertIfNew.mpr (.inr hk)
  | cond address => exact h.congr rfl (fun k hk => hk) fun q => Iff.rfl
  | barrier address => exact h.congr rfl (fun k hk => hk) fun q => Iff.rfl

end Executor

/-! ### What an instruction does to mutexes -/

/-- The mutex that an instruction has locked. -/
def Inst.acquires (o : Outcome) : Inst → Option Nat
  | .call (.pthreadMutexLock mutex) => if o.blocked then none else some mutex.address
  | _ => none

/-- The mutex that an instruction gives up. -/
def Inst.releases : Inst → Option Nat
  | .call (.pthreadMutexUnlock mutex) | .call (.pthreadCondWait _ mutex) => some mutex.address
  | _ => none

namespace Executor
variable {e e' : Executor} {t : Nat} {o : Outcome} {inst : Inst}

structure MutexEffect (t : Nat) (inst : Inst) (o : Outcome) (e e' : Executor) : Prop where
  acquires : ∀ k, inst.acquires o = some k →
    (∃ state, e.mutexManager.mutexPool[k]? = some state ∧ state.isLocked = false) ∧
      e'.mutexManager.mutexPool[k]? = some { isLocked := true, lockedThreadId := t }
  releases : ∀ k, inst.releases = some k → ∃ state, e'.mutexManager.mutexPool[k]? = some state ∧ state.isLocked = false
  frame : ∀ k, inst.acquires o ≠ some k → inst.releases ≠ some k →
    e'.mutexManager.mutexPool[k]? = e.mutexManager.mutexPool[k]?
  blocked : Blocked e'
  awaits : ∀ {q mutex : Nat}, q ≠ t → e.Awaits q mutex → e'.Awaits q mutex
  waits : ∀ cond mutex, inst = .call (.pthreadCondWait cond mutex) → e'.Awaits t mutex.address

/-- An instruction that has nothing to do with mutexes and waiting lists. -/
theorem MutexEffect.of_same (h : Blocked e) (hm : e'.mutexManager = e.mutexManager) (hc : e'.condManager = e.condManager)
    (hstate : ∀ q, e'.state.stateOf q = some .mutexBlocked ↔ e.state.stateOf q = some .mutexBlocked)
    (hacquires : inst.acquires o = none) (hreleases : inst.releases = none) : MutexEffect t inst o e e' where
  acquires k hk := by rw [hacquires] at hk; cases hk
  releases k hk := by rw [hreleases] at hk; cases hk
  frame k _ _ := by rw [hm]
  blocked := h.congr (by rw [hm]) (fun k hk => by rwa [hm]) hstate
  awaits _ hq := by rwa [Awaits, hm, hc]
  waits cond mutex hinst := by rw [hinst] at hreleases; cases hreleases

theorem mem_of_unlock {m m' : MutexManager} {mutex : Nat} (h : m.unlock mutex = some m') :
    m'.blockedThreadPool = m.blockedThreadPool ∧ (∀ k ∈ m.mutexPool, k ∈ m'.mutexPool) ∧
      (∃ state, m'.mutexPool[mutex]? = some state ∧ state.isLocked = false) ∧
      ∀ k ≠ mutex, m'.mutexPool[k]? = m.mutexPool[k]? := by
  obtain ⟨state, hstate, hblocked, rfl⟩ := MutexManager.unlock_eq h
  refine ⟨hblocked, fun k hk => ?_, ?_, fun k hk => ?_⟩
  · split
    · exact TreeMap.mem_insert.mpr (.inr hk)
    · exact hk
  · split
    next => exact ⟨{}, TreeMap.getElem?_insert_self, rfl⟩
    next hfree => exact ⟨state, hstate, by simpa using hfree⟩
  · split
    · rw [TreeMap.getElem?_insert, if_neg (by simpa using Ne.symm hk)]
    · rfl

theorem unlock_mutexEffect (h : Blocked e) {mutex : Location}
    (hs : e.executePThreadMutexUnlock mutex.address = some (o, e')) :
    MutexEffect t (.call (.pthreadMutexUnlock mutex)) o e e' := by
  obtain ⟨m, hunlock, -, rfl⟩ := executePThreadMutexUnlock_eq hs
  obtain ⟨hblocked, hpool, hfree, hframe⟩ := mem_of_unlock hunlock
  refine ⟨by simp [Inst.acquires], fun k hk => ?_, fun k _ hk => ?_, h.congr hblocked hpool fun q => Iff.rfl, fun _ hq => ?_,
    by simp⟩
  · obtain rfl := Option.some.inj hk
    exact hfree
  · exact hframe k fun heq => hk (by rw [heq]; rfl)
  · rwa [Awaits, hblocked]

theorem wait_mutexEffect (h : Blocked e) (ht : e.state.stateOf t = some .runnable) {cond mutex : Location}
    (hs : e.executePThreadCondWait t cond.address mutex.address = some (o, e')) :
    MutexEffect t (.call (.pthreadCondWait cond mutex)) o e e' := by
  obtain ⟨wps, m, state, hcond, -, -, hunlock, rfl, rfl⟩ := executePThreadCondWait_eq hs
  obtain ⟨hblocked, hpool, hfree, hframe⟩ := mem_of_unlock hunlock
  have hturned := swapOut_turned ht .condBlocked
  refine ⟨by simp [Inst.acquires], fun k hk => ?_, fun k _ hk => ?_,
    h.congr hblocked hpool fun q => hturned.same (by decide) (by decide), fun _ hq => ?_, fun cond' mutex' hinst => ?_⟩
  · obtain rfl := Option.some.inj hk
    exact hfree
  · exact hframe k fun heq => hk (by rw [heq]; rfl)
  · rcases hq with ⟨k, hk⟩ | hq
    · refine .inl ⟨k, ?_⟩
      rw [TreeMap.getD_insert]
      split
      next heq =>
        obtain rfl := Std.compare_eq_iff_eq.mp heq
        rw [TreeMap.getD_eq_getD_getElem?, hcond] at hk
        exact List.mem_append_left _ hk
      next => exact hk
    · exact .inr (by rwa [hblocked])
  · cases hinst
    refine .inl ⟨cond.address, ?_⟩
    rw [TreeMap.getD_insert_self]
    exact List.mem_append_right _ List.mem_cons_self

theorem lock_mutexEffect (h : Blocked e) (ht : e.state.stateOf t = some .runnable) {mutex : Location}
    (hs : e.executePThreadMutexLock t mutex.address = some (o, e')) :
    MutexEffect t (.call (.pthreadMutexLock mutex)) o e e' := by
  obtain ⟨isBlocked, m, hlock, rfl, rfl⟩ := executePThreadMutexLock_eq hs
  have hout : t ∉ e.mutexManager.blockedThreadPool := by
    rw [h.mem, ht]
    decide
  obtain ⟨state, hstate, ⟨-, rfl, rfl⟩ | ⟨hfree, rfl, rfl⟩⟩ := MutexManager.lock_eq hlock
  · have hturned : Turned .runnable .mutexBlocked [t] e.state
        (e.state.modify t fun thread => { thread with threadState := .mutexBlocked }) :=
      turned_of_modify ht fun q => stateOf_modify (g := fun _ => .mutexBlocked) fun _ => rfl
    refine ⟨by simp [Inst.acquires], by simp [Inst.releases], fun k _ _ => rfl, ⟨fun q => ?_, fun {q k} hq => ?_⟩,
      fun {q k} hne hq => ?_, by simp⟩
    · rw [TreeMap.mem_insertIfNew, h.mem, Std.compare_eq_iff_eq]
      refine Iff.trans ?_ hturned.to_new.symm
      rw [List.mem_singleton]
      exact or_comm.trans (or_congr Iff.rfl eq_comm)
    · rw [TreeMap.getElem?_insertIfNew] at hq
      split at hq
      next => rw [← Option.some.inj hq]; exact TreeMap.mem_iff_isSome_getElem?.mpr (by rw [hstate]; rfl)
      next => exact h.known hq
    · refine hq.imp_right fun hq => ?_
      rw [TreeMap.getElem?_insertIfNew, if_neg, hq]
      exact fun heq => hne (Std.compare_eq_iff_eq.mp heq.1).symm
  · refine ⟨fun k hk => ?_, by simp [Inst.releases], fun k hk _ => ?_, ⟨fun q => ?_, fun {q k} hq => ?_⟩,
      fun {q k} hne hq => ?_, by simp⟩
    · obtain rfl := Option.some.inj hk
      exact ⟨⟨state, hstate, hfree⟩, TreeMap.getElem?_insert_self⟩
    · rw [TreeMap.getElem?_insert, if_neg]
      exact fun heq => hk (by rw [← Std.compare_eq_iff_eq.mp heq]; rfl)
    · rw [TreeMap.mem_erase, h.mem]
      refine and_iff_right_of_imp fun hq heq => ?_
      obtain rfl := Std.compare_eq_iff_eq.mp heq
      exact hout ((h.mem _).mpr hq)
    · rw [TreeMap.getElem?_erase] at hq
      split at hq
      next => cases hq
      next => exact TreeMap.mem_insert.mpr (.inr (h.known hq))
    · refine hq.imp_right fun hq => ?_
      rw [TreeMap.getElem?_erase, if_neg, hq]
      exact fun heq => hne (Std.compare_eq_iff_eq.mp heq).symm

theorem signalled_mutexEffect (h : Blocked e) (hplaced : Placed e) {cond : Nat} {released : List WaitParam}
    (hs : Signalled t cond released o e e') (hacquires : inst.acquires o = none) (hreleases : inst.releases = none) :
    MutexEffect t inst o e e' := by
  obtain ⟨hturned, hperm⟩ := hs.turned hplaced
  obtain ⟨wps, rest, hcond, -, hwps, hafter⟩ := hs.waiting
  obtain ⟨hpool, hknown, hblocked⟩ := MutexManager.addBlockedThreads_eq hs.blocked
  have hnodup : (released.map (·.threadId)).Nodup :=
    (List.nodup_append.mp (hperm.nodup_iff.mp (hplaced.waiters.nodup cond))).1
  have hfind : ∀ wp ∈ released, released.find? (·.threadId = wp.threadId) = some wp := by
    intro wp hwp
    obtain ⟨wp', hwp'⟩ := Option.isSome_iff_exists.mp
      (List.find?_isSome (p := (·.threadId = wp.threadId)).mpr ⟨wp, hwp, decide_eq_true rfl⟩)
    have hsame : wp'.threadId = wp.threadId := by simpa using List.find?_some hwp'
    rw [hwp', List.inj_on_of_nodup_map hnodup (List.mem_of_find?_eq_some hwp') hwp hsame]
  refine ⟨fun k hk => ?_, fun k hk => ?_, fun k _ _ => by rw [hpool], ⟨fun q => ?_, fun {q k} hq => ?_⟩, fun {q k} _ hq => ?_,
    fun cond' mutex' hinst => ?_⟩
  · rw [hacquires] at hk
    cases hk
  · rw [hreleases] at hk
    cases hk
  · rw [TreeMap.mem_iff_isSome_getElem?, hblocked, Option.isSome_or, Bool.or_eq_true, ← TreeMap.mem_iff_isSome_getElem?, h.mem,
      Option.isSome_map, List.find?_isSome, hturned.to_new, List.mem_map]
    simp
  · rw [hpool]
    rw [hblocked, Option.or_eq_some_iff] at hq
    rcases hq with hq | ⟨-, hq⟩
    · exact h.known hq
    · obtain ⟨wp, hwp, rfl⟩ := Option.map_eq_some_iff.mp hq
      exact hknown wp (List.mem_of_find?_eq_some hwp)
  · rcases hq with ⟨k', hk'⟩ | hq
    · by_cases hkk : k' = cond
      · subst hkk
        rw [TreeMap.getD_eq_getD_getElem?, hcond] at hk'
        rcases List.mem_append.mp (hwps.mem_iff.mp hk') with hreleased | hrest
        · -- the signal released the thread: it had no entry in the pool of blocked threads
          refine .inr ?_
          have hout : q ∉ e.mutexManager.blockedThreadPool := by
            rw [h.mem, hturned.before q (List.mem_map.mpr ⟨_, hreleased, rfl⟩)]
            decide
          rw [hblocked, TreeMap.getElem?_eq_none hout, hfind _ hreleased]
          rfl
        · refine .inl ⟨k', ?_⟩
          rwa [TreeMap.getD_eq_getD_getElem?, hafter, if_pos rfl]
      · refine .inl ⟨k', ?_⟩
        rwa [TreeMap.getD_eq_getD_getElem?, hafter, if_neg hkk, ← TreeMap.getD_eq_getD_getElem?]
    · exact .inr (by rw [hblocked, hq]; rfl)
  · rw [hinst] at hreleases
    cases hreleases

theorem create_mutexEffect (h : Blocked e) {replayed : Option Nat} {loc : Location}
    (hs : e.executePThreadCreate t replayed = some (o, e')) : MutexEffect t (.call (.pthreadCreate loc)) o e e' := by
  obtain ⟨new, s, -, rfl, hfree, -, -, -, hstate, -⟩ := executePThreadCreate_eq hs
  refine .of_same h rfl rfl (fun q => ?_) rfl rfl
  rw [hstate]
  split
  next hq =>
    have hnone : e.state.stateOf new = none := by
      rw [← Option.not_isSome_iff_eq_none, stateOf_isSome]
      exact hfree
    simp [hq, hnone]
  next => rfl

theorem barrierWait_mutexEffect (h : Blocked e) (hplaced : Placed e) (ht : e.state.stateOf t = some .runnable)
    (barrier : Nat) :
    MutexEffect t (.call (.pthreadBarrierWait barrier)) (e.executePThreadBarrierWait t barrier).1 e
      (e.executePThreadBarrierWait t barrier).2 := by
  obtain ⟨-, heq⟩ | ⟨state, -, -, heq | ⟨s, -, -, hturned, heq⟩⟩ := barrierWait_eq hplaced ht barrier
  · rw [heq]
    exact .of_same h rfl rfl (fun q => Iff.rfl) rfl rfl
  · rw [heq]
    exact .of_same h rfl rfl (fun q => (swapOut_turned ht .barrierBlocked).same (by decide) (by decide)) rfl rfl
  · rw [heq]
    exact .of_same h rfl rfl (fun q => hturned.same (by decide) (by decide)) rfl rfl

theorem exit_mutexEffect (h : Blocked e) (hplaced : Placed e) (ht : e.state.stateOf t = some .runnable)
    (hs : e.executeExit t = some (o, e')) : MutexEffect t (.ret true) o e e' := by
  obtain ⟨s, -, rfl, hwoken, -, -, -⟩ := executeExit_eq hs
  obtain ⟨-, hturned, hend⟩ := exit_turned hplaced ht hwoken
  refine .of_same h rfl rfl (fun q => ?_) rfl rfl
  exact (hend.same (by decide) (by decide)).trans (hturned.same (by decide) (by decide))

theorem executeInstruction_mutexEffect (h : Blocked e) (hplaced : Placed e) (ht : e.state.stateOf t = some .runnable)
    {choice : Choice} (hs : e.executeInstruction t inst choice = some (o, e')) : MutexEffect t inst o e e' := by
  unfold executeInstruction at hs
  split at hs
  next => exact create_mutexEffect h hs
  next =>
    rcases executePThreadJoin_eq hs with ⟨-, -, rfl⟩ | ⟨-, -, -, rfl⟩
    · exact .of_same h rfl rfl (fun q => Iff.rfl) rfl rfl
    · exact .of_same h rfl rfl (fun q => (swapOut_turned ht .joinBlocked).same (by decide) (by decide)) rfl rfl
  next => exact wait_mutexEffect h ht hs
  next =>
    obtain ⟨_, _, hsignalled⟩ := executePThreadCondSignal_eq hs
    exact signalled_mutexEffect h hplaced hsignalled rfl rfl
  next =>
    obtain ⟨_, _, hsignalled⟩ := executePThreadCondBroadcast_eq hs
    exact signalled_mutexEffect h hplaced hsignalled rfl rfl
  next => exact lock_mutexEffect h ht hs
  next => exact unlock_mutexEffect h hs
  next =>
    obtain ⟨state, -, -, rfl⟩ := executePThreadBarrierInit_eq hs
    exact .of_same h rfl rfl (fun q => Iff.rfl) rfl rfl
  next barrier =>
    have heffect := barrierWait_mutexEffect h hplaced ht barrier
    rwa [Option.some.inj hs] at heffect
  next => exact exit_mutexEffect h hplaced ht hs
  next =>
    obtain ⟨-, rfl⟩ := Prod.mk.inj (Option.some.inj hs)
    refine .of_same h rfl rfl (fun q => Iff.rfl) ?_ ?_
    · unfold Inst.acquires
      split <;> simp_all
    · unfold Inst.releases
      split <;> simp_all

/-- A thread that is scheduled has got the mutex that it waited for. -/
theorem schedule_mutexes (h : Blocked e) (hs : e.schedule t = some e') :
    Blocked e' ∧ (∀ {q mutex : Nat}, q ≠ t → e.Awaits q mutex → e'.Awaits q mutex) ∧
      (∀ mutex, e.wanted t = some mutex →
        ∃ state, e.mutexManager.mutexPool[mutex]? = some state ∧ state.isLocked = false) ∧
      ∀ k, e'.mutexManager.mutexPool[k]? =
        if e.wanted t = some k then some { isLocked := true, lockedThreadId := t } else e.mutexManager.mutexPool[k]? := by
  rcases schedule_eq hs with ⟨hrun, rfl⟩ | ⟨hblocked, m, hm, rfl⟩
  · have hwanted : e'.wanted t = none := by simp [wanted, hrun]
    exact ⟨h, fun _ hq => hq, by simp [hwanted], by simp [hwanted]⟩
  have hturned : Turned .mutexBlocked .runnable [t] e.state
      (e.state.modify t fun thread => { thread with threadState := .runnable }) :=
    turned_of_modify hblocked fun q => stateOf_modify (g := fun _ => .runnable) fun _ => rfl
  obtain ⟨mutex, hmutex, hlock⟩ := MutexManager.tryToLock_eq hm
  obtain ⟨state, hstate, ⟨-, hfalse, -⟩ | ⟨hfree, -, rfl⟩⟩ := MutexManager.lock_eq hlock
  · cases hfalse
  have hwanted : e.wanted t = some mutex := by rw [wanted, if_pos hblocked, hmutex]
  refine ⟨⟨fun q => ?_, fun {q k} hq => ?_⟩, fun {q k} hne hq => ?_, fun k hk => ?_, fun k => ?_⟩
  · rw [hturned.from_old (by decide), TreeMap.mem_erase, h.mem q, List.mem_singleton, ne_eq, Std.compare_eq_iff_eq, and_comm,
      eq_comm (a := t)]
  · rw [TreeMap.getElem?_erase] at hq
    split at hq
    next => cases hq
    next => exact TreeMap.mem_insert.mpr (.inr (h.known hq))
  · refine hq.imp_right fun hq => ?_
    rw [TreeMap.getElem?_erase, if_neg, hq]
    exact fun heq => hne (Std.compare_eq_iff_eq.mp heq).symm
  · rw [hwanted] at hk
    exact ⟨state, Option.some.inj hk ▸ hstate, hfree⟩
  · rw [TreeMap.getElem?_insert, hwanted]
    simp

/-! ### The place of every thread -/

theorem executorRun_placed {C : List ExecStep → Executor → Nat → Inst → Prop} {steps : List ExecStep}
    (h : ExecutorRun C steps e) : Placed e ∧ Blocked e := by
  induction h with
  | start => exact ⟨start_placed, start_blocked⟩
  | createSpecialElement element _ ih =>
    exact ⟨createSpecialElement_placed ih.1 element, createSpecialElement_blocked ih.2 element⟩
  | reSchedule _ ih => exact ⟨reSchedule_placed ih.1, ih.2.congr rfl (fun _ hk => hk) fun _ => Iff.rfl⟩
  | step _ _ hstep ih =>
    obtain ⟨e₁, hschedule, hs⟩ := Option.bind_eq_some_iff.mp hstep
    obtain ⟨hplaced, ht⟩ := schedule_placed ih.1 hschedule
    have hblocked := (schedule_mutexes ih.2 hschedule).1
    exact ⟨executeInstruction_placed hplaced ht hs, (executeInstruction_mutexEffect hblocked hplaced ht hs).blocked⟩

/-- A thread is in the one place that its state stands for; `joinLists` are the lists in which joining threads wait. -/
structure ThreadPlacement (e : Executor) (joinLists : Nat → List Nat) (q : Nat) : Prop where
  queue : e.state.queue.count q =
    if e.state.stateOf q = some .runnable ∨ e.state.stateOf q = some .mutexBlocked then 1 else 0
  waiting : InOneOf e.waiters q (e.state.stateOf q = some .condBlocked)
  barrier : InOneOf e.arrivals q (e.state.stateOf q = some .barrierBlocked)
  join : InOneOf joinLists q (e.state.stateOf q = some .joinBlocked)
  terminated : q ∈ e.state.threadList → (e.state.stateOf q = some .terminated ↔
    q ∉ e.state.queue ∧ (∀ k, q ∉ e.waiters k) ∧ (∀ k, q ∉ e.arrivals k) ∧ ∀ k, q ∉ joinLists k)
  blocked : q ∈ e.mutexManager.blockedThreadPool ↔ e.state.stateOf q = some .mutexBlocked

/-- In every reachable state every thread is in the place that its state stands for, when only the lists of threads that
    have not ended count as lists of joining threads. -/
theorem thread_placement {C : List ExecStep → Executor → Nat → Inst → Prop} {steps : List ExecStep}
    (h : ExecutorRun C steps e) (q : Nat) : ThreadPlacement e e.joiners q := by
  obtain ⟨hplaced, hblocked⟩ := executorRun_placed h
  refine ⟨?_, hplaced.waiters.inOneOf q, hplaced.arrivals.inOneOf q, hplaced.joiners.inOneOf q, fun hq => ?_, hblocked.mem q⟩
  · split
    next hq => exact List.count_eq_one_of_mem hplaced.queue.nodup ((hplaced.queue.mem q).mpr hq)
    next hq => exact List.count_eq_zero.mpr fun hmem => hq ((hplaced.queue.mem q).mp hmem)
  · obtain ⟨st, hst⟩ := Option.isSome_iff_exists.mp (stateOf_isSome.mpr hq)
    have hqueue := hplaced.queue.mem q
    have hwaiters := hplaced.waiters.mem q
    have harrivals := hplaced.arrivals.mem q
    have hjoiners := hplaced.joiners.mem q
    rw [hst] at hwaiters harrivals hjoiners
    rw [Schedulable, hst] at hqueue
    simp only [← not_exists, ← hwaiters, ← harrivals, ← hjoiners, hqueue, hst]
    cases st <;> simp

/-- The main thread joins a thread, which ends. -/
def joinAndEnd : List (Nat × Inst) :=
  [(1, .call (.pthreadCreate ⟨2, 16, false⟩)), (1, .call (.pthreadJoin 2)), (2, .ret true)]

theorem thread_placement_joinAndEnd :
    ∃ steps e, Executor.run (fun _ _ _ _ => True) [] joinAndEnd = some (steps, e) ∧ ThreadPlacement e e.joiners 1 := by
  have hrun : (Executor.run (fun _ _ _ _ => True) [] joinAndEnd).isSome := by decide +kernel
  obtain ⟨⟨steps, e⟩, hsteps⟩ := Option.isSome_iff_exists.mp hrun
  exact ⟨steps, e, hsteps, thread_placement (run_executorRun hsteps) 1⟩

/-- The record of the joining threads is never cleared: the main thread can run and is in the record of the thread that
    it has joined. -/
theorem not_placed_in_joinRecord :
    ¬∀ steps e, ExecutorRun (fun _ _ _ _ => True) steps e → ∀ q, ThreadPlacement e (fun u => e.joinRecord.getD u []) q := by
  intro hall
  have hrun : (Executor.run (fun _ _ _ _ => True) [] joinAndEnd).isSome := by decide +kernel
  obtain ⟨⟨steps, e⟩, hsteps⟩ := Option.isSome_iff_exists.mp hrun
  have hshape : (Executor.run (fun _ _ _ _ => True) [] joinAndEnd).map
      (fun result => (result.2.state.stateOf 1, result.2.joinRecord.getD 2 [])) = some (some .runnable, [1]) := by
    decide +kernel
  rw [hsteps, Option.map_some, Option.some.injEq, Prod.mk.injEq] at hshape
  obtain ⟨hstate, hrecord : e.joinRecord.getD 2 [] = [1]⟩ := hshape
  rcases (hall steps e (run_executorRun hsteps) 1).join with ⟨hblocked, -⟩ | ⟨-, hnone⟩
  · rw [hstate] at hblocked
    cases hblocked
  · have hmem : 1 ∈ e.joinRecord.getD 2 [] := hrecord ▸ List.mem_cons_self
    exact hnone 2 hmem

end Executor
end CapTaint
