import CapTaint.ThreadScheduler
import CapTaint.Theorems.Threads

/-! # Copies of a state

What a forked state shares with the one it was copied from: the threads up to their clocks, and the queue, but not the
class of the scheduler. -/

namespace CapTaint
open Std ExecutionState

namespace ScheduledState

/-! ### Reachable states -/

/-- The states of a run: what the constructors build, with the operations as the executor calls them. A thread is swapped
    out while it is queued and swapped in while it is blocked, and clocks and the prefix change at any time. -/
inductive Reachable : ScheduledState → Prop
  | fifs : Reachable (main .fifs)
  | guided (current : Option Nat) : Reachable (main (.guided current))
  | copy {s c : ScheduledState} : Reachable s → s.copy = some c → Reachable c
  | getNextThread {s : ScheduledState} : Reachable s → Reachable s.getNextThread.2
  | reSchedule {s s' : ScheduledState} : Reachable s → s.reSchedule = some s' → Reachable s'
  | createThread {s : ScheduledState} {replayed : Option Nat} {threadId : Nat} {state : ExecutionState} : Reachable s →
      s.state.createThread replayed = some (threadId, state) → Reachable { s with state := state }
  | swapOut {s s' : ScheduledState} {threadId : Nat} {threadState : ThreadState} : Reachable s →
      threadId ∈ s.state.queue → threadState ∈ [.condBlocked, .barrierBlocked, .joinBlocked, .terminated] →
      s.swapOutThread threadId threadState = some s' → Reachable s'
  | swapIn {s s' : ScheduledState} {threadId : Nat} {blocked threadState : ThreadState} : Reachable s →
      blocked ∈ [.condBlocked, .barrierBlocked, .joinBlocked] → s.state.stateOf threadId = some blocked →
      threadState ∈ [.runnable, .mutexBlocked] → s.swapInThread threadId threadState = some s' → Reachable s'
  | switch {s : ScheduledState} {threadId : Nat} {old threadState : ThreadState} : Reachable s →
      old ∈ [.runnable, .mutexBlocked] → s.state.stateOf threadId = some old → threadState ∈ [.runnable, .mutexBlocked] →
      Reachable { s with state := s.state.modify threadId fun thread => { thread with threadState := threadState } }
  | clock {s : ScheduledState} {threadId : Nat} {clock : Vector Nat 5} : Reachable s →
      Reachable { s with state := s.state.modify threadId fun thread => { thread with vectorClock := clock } }
  | moveOn {s : ScheduledState} {current next : Option Nat} : Reachable s → s.scheduler = .guided current →
      Reachable { s with scheduler := .guided next }

/-- The queue holds threads that can be scheduled, each once, and the current thread is one of the threads unless a prefix
    selects it. -/
structure Queued (s : ScheduledState) : Prop where
  nodup : s.state.queue.Nodup
  schedulable : ∀ t ∈ s.state.queue, s.state.stateOf t = some .runnable ∨ s.state.stateOf t = some .mutexBlocked
  current : ∀ t, s.currentThread = some t → (∃ current, s.scheduler = .guided current) ∨ t ∈ s.state.threadList

variable {s s' c : ScheduledState} {t : Nat}

theorem Queued.mem (h : Queued s) (ht : t ∈ s.state.queue) : t ∈ s.state.threadList := by
  rw [← stateOf_isSome]
  rcases h.schedulable t ht with hstate | hstate
  · rw [hstate]
    rfl
  · rw [hstate]
    rfl

theorem Queued.unfinished (h : Queued s) (ht : t ∈ s.state.queue) : s.unfinished t = true := by
  unfold ScheduledState.unfinished
  rcases h.schedulable t ht with hstate | hstate
  · rw [hstate]
  · rw [hstate]

/-- What a copy is, if there is one. -/
theorem copy_eq (h : s.copy = some c) :
    (∀ current, s.scheduler ≠ .guided current) ∧ c.scheduler = .preemptive ∧ c.currentThread = s.currentThread ∧
      c.state.queue = s.state.queue ∧
      ∀ q, c.state.findThreadById q =
        (s.state.findThreadById q).map fun thread => { thread with vectorClock := Vector.replicate 5 0 } := by
  have hfind : ∀ q, (s.state.threadList.map fun _ thread => ({ thread with vectorClock := Vector.replicate 5 0 } : Thread))[q]? =
      (s.state.findThreadById q).map fun thread => { thread with vectorClock := Vector.replicate 5 0 } := by
    intro q
    rw [TreeMap.getElem?_map]
    rfl
  unfold copy at h
  split at h
  · cases h
  · cases h
  next hscheduler hcurrent =>
    rw [Option.ite_none_right_eq_some] at h
    obtain rfl := Option.some.inj h.2
    exact ⟨by simp [hscheduler], rfl, hcurrent.symm, rfl, hfind⟩
  next hscheduler hcurrent =>
    rw [Option.ite_none_right_eq_some] at h
    obtain rfl := Option.some.inj h.2
    exact ⟨by simp [hscheduler], rfl, hcurrent.symm, rfl, hfind⟩

theorem copy_stateOf (h : s.copy = some c) (q : Nat) : c.state.stateOf q = s.state.stateOf q := by
  rw [stateOf, stateOf, (copy_eq h).2.2.2.2, Option.map_map]
  rfl

theorem copy_mem (h : s.copy = some c) (q : Nat) : q ∈ c.state.threadList ↔ q ∈ s.state.threadList := by
  rw [← stateOf_isSome, ← stateOf_isSome, copy_stateOf h]

theorem reSchedule_perm {scheduler : ThreadScheduler} {queue queue' : List Nat}
    (h : scheduler.reSchedule queue = some queue') : queue'.Perm queue := by
  cases queue with
  | nil => cases scheduler <;> cases h
  | cons thread rest =>
    cases scheduler with
    | fifs | guided =>
      obtain rfl := Option.some.inj h
      exact List.perm_append_singleton _ _
    | preemptive =>
      obtain rfl := Option.some.inj h
      have hlast := List.dropLast_append_getLast (l := thread :: rest) (by simp)
      generalize (thread :: rest).getLast (by simp) = last at hlast ⊢
      rw [← hlast]
      rw [List.dropLast_concat]
      generalize hfront : (thread :: rest).dropLast = front at hlast ⊢
      cases front using List.reverseRecOn with
      | nil => simp
      | append_singleton front x =>
        simp only [List.dropLast_concat, List.getLast?_concat, Option.toList_some, List.append_assoc, List.singleton_append]
        exact List.Perm.append_left _ (List.Perm.swap _ _ _)

/-- A change of the threads that leaves each of them in the list, and the queued ones schedulable. -/
theorem Queued.of_threads (h : Queued s) {state : ExecutionState} (hqueue : state.queue = s.state.queue)
    (hmem : ∀ q, q ∈ s.state.threadList → q ∈ state.threadList)
    (hstate : ∀ q ∈ s.state.queue, state.stateOf q = some .runnable ∨ state.stateOf q = some .mutexBlocked) :
    Queued { s with state := state } where
  nodup := hqueue.symm ▸ h.nodup
  schedulable q hq := hstate q (hqueue ▸ hq)
  current q hq := (h.current q hq).imp_right (hmem q)

theorem reachable_queued (h : Reachable s) : Queued s := by
  induction h with
  | fifs | guided =>
    have hstate : Executor.start.state.stateOf 1 = some .runnable := rfl
    have hmem : 1 ∈ Executor.start.state.threadList := by
      rw [← stateOf_isSome, hstate]
      rfl
    refine ⟨List.nodup_singleton _, fun q hq => .inl ?_, fun q hq => .inr ?_⟩
    · rw [List.mem_singleton.mp hq]
      exact hstate
    · rw [← Option.some.inj hq]
      exact hmem
  | @copy s c _ hcopy ih =>
    obtain ⟨hguided, -, hcurrent, hqueue, -⟩ := copy_eq hcopy
    refine ⟨hqueue ▸ ih.nodup, fun q hq => ?_, fun q hq => .inr ?_⟩
    · rw [copy_stateOf hcopy]
      exact ih.schedulable q (hqueue ▸ hq)
    · rw [copy_mem hcopy]
      refine (ih.current q (hcurrent ▸ hq)).resolve_left ?_
      rintro ⟨current, hscheduler⟩
      exact hguided current hscheduler
  | @getNextThread s _ ih =>
    refine ⟨ih.nodup, ih.schedulable, fun q hq => ?_⟩
    simp only [getNextThread, Option.ite_none_left_eq_some] at hq ⊢
    cases hscheduler : s.scheduler with
    | guided current => exact .inl ⟨current, rfl⟩
    | fifs =>
      rw [hscheduler] at hq
      exact .inr (ih.mem (List.mem_of_mem_head? hq.2))
    | preemptive =>
      rw [hscheduler] at hq
      exact .inr (ih.mem (List.mem_of_mem_getLast? hq.2))
  | @reSchedule s s' _ hs ih =>
    obtain ⟨queue, hqueue, hs⟩ := Option.bind_eq_some_iff.mp hs
    obtain rfl := Option.some.inj hs
    have hperm := reSchedule_perm hqueue
    exact ⟨hperm.nodup_iff.mpr ih.nodup, fun q hq => ih.schedulable q (hperm.mem_iff.mp hq), ih.current⟩
  | @createThread s replayed threadId state _ hcreate ih =>
    obtain ⟨hfree, hlist, hqueue⟩ := createThread_eq hcreate
    have hstate : ∀ q, state.stateOf q = if q = threadId then some .runnable else s.state.stateOf q := by
      intro q
      rw [stateOf, findThreadById, hlist, TreeMap.getElem?_insert]
      by_cases hq : q = threadId
      · simp [hq]
      · simp [hq, Ne.symm hq, stateOf, findThreadById]
    refine ⟨?_, fun q hq => ?_, fun q hq => (ih.current q hq).imp_right fun hmem => ?_⟩
    · show state.queue.Nodup
      rw [hqueue, List.nodup_append]
      refine ⟨ih.nodup, List.nodup_singleton _, ?_⟩
      rintro a ha b hb rfl
      exact hfree (List.mem_singleton.mp hb ▸ ih.mem ha)
    · show state.stateOf q = _ ∨ state.stateOf q = _
      rw [hstate]
      split
      next => exact .inl rfl
      next hne =>
        have hq : q ∈ s.state.queue ++ [threadId] := hqueue ▸ hq
        rcases List.mem_append.mp hq with hq | hq
        · exact ih.schedulable q hq
        · exact absurd (List.mem_singleton.mp hq) hne
    · show q ∈ state.threadList
      rw [hlist]
      exact TreeMap.mem_insert.mpr (.inr hmem)
  | @swapOut s s' threadId threadState _ hqueued _ hs ih =>
    rw [swapOutThread, Option.ite_none_right_eq_some] at hs
    obtain rfl := Option.some.inj hs.2
    refine ⟨ih.nodup.erase _, fun q hq => ?_, fun q hq => (ih.current q hq).imp_right fun hmem => mem_modify.mpr hmem⟩
    obtain ⟨hne, hq⟩ := ih.nodup.mem_erase_iff.mp hq
    rw [swapOut_stateOf]
    simpa [hne] using ih.schedulable q hq
  | @swapIn s s' threadId blocked threadState _ hblocked hstate hnew hs ih =>
    rw [swapInThread, Option.ite_none_right_eq_some] at hs
    obtain rfl := Option.some.inj hs.2
    have hwoken := swapIn_woken s.state threadId threadState
    have hout : threadId ∉ s.state.queue := by
      intro hmem
      have hsched := ih.schedulable threadId hmem
      rw [hstate] at hsched
      revert hblocked
      rcases hsched with hsched | hsched
      · rw [Option.some.inj hsched]
        decide
      · rw [Option.some.inj hsched]
        decide
    refine ⟨?_, fun q hq => ?_, fun q hq => (ih.current q hq).imp_right fun hmem => mem_modify.mpr hmem⟩
    · show (s.state.queue ++ [threadId]).Nodup
      rw [List.nodup_append]
      refine ⟨ih.nodup, List.nodup_singleton _, ?_⟩
      rintro a ha b hb rfl
      exact hout (List.mem_singleton.mp hb ▸ ha)
    · show (s.state.swapInThread threadId threadState).stateOf q = _ ∨ _
      rw [hwoken.stateOf]
      by_cases hq' : q = threadId
      · rw [hq', hstate]
        simpa [eq_comm] using hnew
      · have hold : q ∈ s.state.queue := by
          rcases List.mem_append.mp hq with hq | hq
          · exact hq
          · exact absurd (List.mem_singleton.mp hq) hq'
        simpa [hq'] using ih.schedulable q hold
  | @switch s threadId old threadState _ _ _ hnew ih =>
    refine ih.of_threads rfl (fun q hq => mem_modify.mpr hq) fun q hq => ?_
    rw [stateOf_modify (g := fun _ => threadState) fun _ => rfl]
    rcases ih.schedulable q hq with hstate | hstate
    · rw [hstate]
      by_cases hq' : q = threadId
      · simpa [hq', eq_comm] using hnew
      · simp [hq']
    · rw [hstate]
      by_cases hq' : q = threadId
      · simpa [hq', eq_comm] using hnew
      · simp [hq']
  | @clock s threadId clock _ ih =>
    refine ih.of_threads rfl (fun q hq => mem_modify.mpr hq) fun q hq => ?_
    rw [stateOf_modify_same (f := fun thread => { thread with vectorClock := clock }) fun _ => rfl]
    exact ih.schedulable q hq
  | @moveOn s current next _ hscheduler ih =>
    exact ⟨ih.nodup, ih.schedulable, fun q _ => .inl ⟨next, rfl⟩⟩

/-! ### What a copy selects -/

theorem selections_getNextThread (ops : List SchedulerOp) (s : ScheduledState) :
    s.selections (.getNextThread :: ops) =
      (s.getNextThread.2.selections ops).bind fun rest => some (s.getNextThread.1 :: rest) := rfl

/-- The same threads and the same queue in a scheduler of the same class: nothing that is selected tells them apart. -/
structure Similar (s c : ScheduledState) : Prop where
  scheduler : c.scheduler = s.scheduler
  queue : c.state.queue = s.state.queue
  mem : ∀ q, q ∈ c.state.threadList ↔ q ∈ s.state.threadList

theorem Similar.selections (h : Similar s c) (ops : List SchedulerOp) : c.selections ops = s.selections ops := by
  induction ops generalizing s c with
  | nil => rfl
  | cons op ops ih =>
    cases op with
    | getNextThread =>
      have hselect : c.getNextThread.1 = s.getNextThread.1 := by
        simp only [getNextThread, h.scheduler, h.queue]
      have hnext : Similar s.getNextThread.2 c.getNextThread.2 := ⟨h.scheduler, h.queue, h.mem⟩
      rw [selections_getNextThread, selections_getNextThread, hselect, ih hnext]
    | reSchedule =>
      simp only [ScheduledState.selections, ScheduledState.reSchedule, h.scheduler, h.queue]
      cases s.scheduler.reSchedule s.state.queue with
      | none => rfl
      | some queue => exact ih ⟨rfl, rfl, h.mem⟩
    | swapIn threadId threadState =>
      simp only [ScheduledState.selections, ScheduledState.swapInThread, h.mem]
      split
      · refine ih ⟨h.scheduler, ?_, fun q => mem_modify.trans ((h.mem q).trans mem_modify.symm)⟩
        show c.state.queue ++ [threadId] = s.state.queue ++ [threadId]
        rw [h.queue]
      · rfl
    | swapOut threadId threadState =>
      simp only [ScheduledState.selections, ScheduledState.swapOutThread, h.mem]
      split
      · refine ih ⟨h.scheduler, ?_, fun q => mem_modify.trans ((h.mem q).trans mem_modify.symm)⟩
        show c.state.queue.erase threadId = s.state.queue.erase threadId
        rw [h.queue]
      · rfl

/-- The only thread of two states, which their queues hold as often. -/
structure Lonely (u : Nat) (s c : ScheduledState) : Prop where
  fifs : s.scheduler = .fifs
  preemptive : c.scheduler = .preemptive
  queue : ∃ n, s.state.queue = List.replicate n u ∧ c.state.queue = List.replicate n u
  mem : ∀ q, q ∈ s.state.threadList ↔ q = u
  mem_copy : ∀ q, q ∈ c.state.threadList ↔ q = u

theorem reSchedule_replicate (scheduler : ThreadScheduler) (n u : Nat) :
    scheduler.reSchedule (List.replicate (n + 1) u) = some (List.replicate (n + 1) u) := by
  have hrotate : List.replicate n u ++ [u] = List.replicate (n + 1) u := List.replicate_succ'.symm
  cases scheduler with
  | fifs | guided => exact congrArg some hrotate
  | preemptive =>
    obtain ⟨queue, hqueue⟩ : ∃ queue, ThreadScheduler.preemptive.reSchedule (List.replicate (n + 1) u) = some queue :=
      ⟨_, rfl⟩
    rw [hqueue, List.eq_replicate_of_mem fun q hq => List.eq_of_mem_replicate ((reSchedule_perm hqueue).mem_iff.mp hq),
      (reSchedule_perm hqueue).length_eq, List.length_replicate]

theorem Lonely.selections {u : Nat} (h : Lonely u s c) (ops : List SchedulerOp) : c.selections ops = s.selections ops := by
  induction ops generalizing s c with
  | nil => rfl
  | cons op ops ih =>
    obtain ⟨n, hs, hc⟩ := h.queue
    cases op with
    | getNextThread =>
      have hselect : c.getNextThread.1 = s.getNextThread.1 := by
        simp only [getNextThread, h.fifs, h.preemptive, hs, hc]
        cases n with
        | zero => rfl
        | succ n => simp [ThreadScheduler.selectNextItem, List.getLast?_replicate, List.head?_replicate]
      have hnext : Lonely u s.getNextThread.2 c.getNextThread.2 :=
        ⟨h.fifs, h.preemptive, ⟨n, hs, hc⟩, h.mem, h.mem_copy⟩
      rw [selections_getNextThread, selections_getNextThread, hselect, ih hnext]
    | reSchedule =>
      simp only [ScheduledState.selections, ScheduledState.reSchedule, hs, hc]
      cases n with
      | zero => cases s.scheduler <;> cases c.scheduler <;> rfl
      | succ n =>
        rw [reSchedule_replicate, reSchedule_replicate]
        exact ih ⟨h.fifs, h.preemptive, ⟨n + 1, rfl, rfl⟩, h.mem, h.mem_copy⟩
    | swapIn threadId threadState =>
      simp only [ScheduledState.selections, ScheduledState.swapInThread, h.mem, h.mem_copy]
      split
      next hid =>
        refine ih ⟨h.fifs, h.preemptive, ⟨n + 1, ?_, ?_⟩, fun q => mem_modify.trans (h.mem q),
          fun q => mem_modify.trans (h.mem_copy q)⟩
        · show s.state.queue ++ [threadId] = _
          rw [hs, hid, List.replicate_succ']
        · show c.state.queue ++ [threadId] = _
          rw [hc, hid, List.replicate_succ']
      next => rfl
    | swapOut threadId threadState =>
      simp only [ScheduledState.selections, ScheduledState.swapOutThread, h.mem, h.mem_copy]
      split
      next hid =>
        refine ih ⟨h.fifs, h.preemptive, ⟨n - 1, ?_, ?_⟩, fun q => mem_modify.trans (h.mem q),
          fun q => mem_modify.trans (h.mem_copy q)⟩
        · show s.state.queue.erase threadId = _
          rw [hs, hid, List.erase_replicate_self]
        · show c.state.queue.erase threadId = _
          rw [hc, hid, List.erase_replicate_self]
      next => rfl

/-- Two schedulers of different classes select different threads once two threads are queued. -/
theorem selections_ne (hs : s.scheduler = .fifs) (hc : c.scheduler = .preemptive) (hqueue : c.state.queue = s.state.queue)
    (hmem : ∀ q, q ∈ c.state.threadList ↔ q ∈ s.state.threadList) {a b : Nat} (ha : a ∈ s.state.threadList)
    (hb : b ∈ s.state.threadList) (hab : a ≠ b) : ∃ ops, c.selections ops ≠ s.selections ops := by
  cases hq : s.state.queue with
  | nil =>
    refine ⟨[.swapIn a .runnable, .swapIn b .runnable, .getNextThread], ?_⟩
    simp [ScheduledState.selections, ScheduledState.swapInThread, ExecutionState.swapInThread, hs, hc, hqueue, hq, hmem, ha, hb,
      mem_modify, getNextThread, ThreadScheduler.selectNextItem, Ne.symm hab]
  | cons first rest =>
    -- a thread that is not the first one comes to the end of the queue
    obtain ⟨x, hx, hne⟩ : ∃ x ∈ s.state.threadList, x ≠ first := by
      by_cases heq : a = first
      · exact ⟨b, hb, fun hbf => hab (heq.trans hbf.symm)⟩
      · exact ⟨a, ha, heq⟩
    refine ⟨[.swapIn x .runnable, .getNextThread], ?_⟩
    have hlast : (first :: (rest ++ [x])).getLast? = some x := by rw [← List.cons_append, List.getLast?_concat]
    simp [ScheduledState.selections, ScheduledState.swapInThread, ExecutionState.swapInThread, hs, hc, hqueue, hq, hmem, hx,
      getNextThread, ThreadScheduler.selectNextItem, hlast, hne]

/-! ### The result -/

/-- The copy of a state is one that nothing tells apart from it. -/
def CopiesAlike (s : ScheduledState) : Prop :=
  ∃ c, s.copy = some c ∧ (∀ q, c.state.findThreadById q = s.state.findThreadById q) ∧
    c.currentThread = s.currentThread ∧ ∀ ops, c.selections ops = s.selections ops

/-- No prefix guides the state, a thread is current, no clock has moved, and the scheduler is that of a copy already or has
    one thread only. -/
structure CopyKeeps (s : ScheduledState) : Prop where
  unguided : ∀ current, s.scheduler ≠ .guided current
  current : s.currentThread ≠ none
  clocks : ∀ q thread, s.state.findThreadById q = some thread → thread.vectorClock = Vector.replicate 5 0
  scheduler : s.scheduler = .preemptive ∨ ∀ a ∈ s.state.threadList, ∀ b ∈ s.state.threadList, a = b

theorem Queued.copy_isSome (h : Queued s) (hunguided : ∀ current, s.scheduler ≠ .guided current)
    (hcurrent : s.currentThread ≠ none) : ∃ c, s.copy = some c := by
  obtain ⟨t, ht⟩ := Option.ne_none_iff_exists'.mp hcurrent
  have hmem : t ∈ s.state.threadList := by
    refine (h.current t ht).resolve_left ?_
    rintro ⟨current, hguided⟩
    exact hunguided current hguided
  have hall : s.state.queue.all s.unfinished = true := List.all_eq_true.mpr fun q hq => h.unfinished hq
  unfold copy
  rw [ht]
  cases hscheduler : s.scheduler with
  | guided current => exact absurd hscheduler (hunguided current)
  | fifs => exact ⟨_, if_pos ⟨hmem, hall⟩⟩
  | preemptive => exact ⟨_, if_pos ⟨hmem, hall⟩⟩

theorem copiesAlike_iff (h : Reachable s) : CopiesAlike s ↔ CopyKeeps s := by
  have hqueued := reachable_queued h
  constructor
  · rintro ⟨c, hcopy, hthreads, hcurrent, hselect⟩
    obtain ⟨hunguided, hpreemptive, -, hqueue, hfind⟩ := copy_eq hcopy
    refine ⟨hunguided, fun hnone => ?_, fun q thread hthread => ?_, ?_⟩
    · rw [copy, hnone] at hcopy
      cases hscheduler : s.scheduler with
      | guided current => exact hunguided current hscheduler
      | fifs | preemptive => rw [hscheduler] at hcopy; cases hcopy
    · have hzero := hfind q
      rw [hthreads, hthread, Option.map_some, Option.some.injEq] at hzero
      rw [hzero]
    · by_contra hnot
      simp only [not_or, not_forall] at hnot
      obtain ⟨hother, a, ha, b, hb, hab⟩ := hnot
      have hfifs : s.scheduler = .fifs := by
        cases hscheduler : s.scheduler with
        | fifs => rfl
        | preemptive => exact absurd hscheduler hother
        | guided current => exact absurd hscheduler (hunguided current)
      obtain ⟨ops, hne⟩ := selections_ne hfifs hpreemptive hqueue (copy_mem hcopy) ha hb hab
      exact hne (hselect ops)
  · rintro ⟨hunguided, hcurrent, hclocks, hscheduler⟩
    obtain ⟨c, hcopy⟩ := hqueued.copy_isSome hunguided hcurrent
    obtain ⟨-, hpreemptive, hcurrent', hqueue, hfind⟩ := copy_eq hcopy
    refine ⟨c, hcopy, fun q => ?_, hcurrent', fun ops => ?_⟩
    · rw [hfind]
      cases hthread : s.state.findThreadById q with
      | none => rfl
      | some thread => rw [Option.map_some, ← hclocks q thread hthread]
    · rcases hscheduler with hsame | hlonely
      · exact Similar.selections ⟨by rw [hpreemptive, hsame], hqueue, copy_mem hcopy⟩ ops
      · cases hkind : s.scheduler with
        | preemptive => exact Similar.selections ⟨by rw [hpreemptive, hkind], hqueue, copy_mem hcopy⟩ ops
        | guided current => exact absurd hkind (hunguided current)
        | fifs =>
          obtain ⟨u, hu⟩ := Option.ne_none_iff_exists'.mp hcurrent
          have hmem : u ∈ s.state.threadList := by
            refine (hqueued.current u hu).resolve_left ?_
            rintro ⟨current, hguided⟩
            exact hunguided current hguided
          have honly : ∀ q, q ∈ s.state.threadList ↔ q = u :=
            fun q => ⟨fun hq => hlonely q hq u hmem, fun heq => heq ▸ hmem⟩
          have hreplicate : s.state.queue = List.replicate s.state.queue.length u :=
            List.eq_replicate_of_mem fun q hq => (honly q).mp (hqueued.mem hq)
          exact Lonely.selections ⟨hkind, hpreemptive, ⟨_, hreplicate, hqueue.trans hreplicate⟩, honly,
            fun q => (copy_mem hcopy q).trans (honly q)⟩ ops

/-- A copy of the first state in which two threads have been created and the queue has been rotated. -/
def threeThreads : Option ScheduledState :=
  (main .fifs).copy.bind fun s => (s.state.createThread none).bind fun second => (second.2.createThread none).bind fun third =>
    { s with state := third.2 }.reSchedule

/-- The scheduler of a copy is preemptive, and it selects the same of three threads as its own copy. -/
theorem copiesAlike_threeThreads : ∃ s, threeThreads = some s ∧ s.state.queue.length = 3 ∧ Reachable s ∧ CopiesAlike s := by
  obtain ⟨s, hs⟩ := Option.isSome_iff_exists.mp (show threeThreads.isSome = true by decide +kernel)
  have hlength : ∀ s ∈ threeThreads, s.state.queue.length = 3 := by decide +kernel
  have hcurrent : ∀ s ∈ threeThreads, s.scheduler = .preemptive ∧ s.currentThread = some 1 := by decide +kernel
  have hclocks : ∀ s ∈ threeThreads, ∀ entry ∈ s.state.threadList.toList, entry.2.vectorClock = Vector.replicate 5 0 := by
    decide +kernel
  have hreachable : Reachable s := by
    unfold threeThreads at hs
    obtain ⟨c, hcopy, hs⟩ := Option.bind_eq_some_iff.mp hs
    obtain ⟨second, hsecond, hs⟩ := Option.bind_eq_some_iff.mp hs
    obtain ⟨third, hthird, hs⟩ := Option.bind_eq_some_iff.mp hs
    exact .reSchedule (.createThread (.createThread (.copy .fifs hcopy) hsecond) hthird) hs
  refine ⟨s, hs, hlength s hs, hreachable, (copiesAlike_iff hreachable).mpr ⟨?_, ?_, fun q thread hthread => ?_, ?_⟩⟩
  · simp [(hcurrent s hs).1]
  · simp [(hcurrent s hs).2]
  · exact hclocks s hs (q, thread) (TreeMap.mem_toList_iff_getElem?_eq_some.mpr hthread)
  · exact .inl (hcurrent s hs).1

/-- With two threads in the queue the copy selects the other one. -/
theorem not_copiesAlike_twoThreads :
    ∃ threadId state, Executor.start.state.createThread none = some (threadId, state) ∧
      Reachable { main .fifs with state := state } ∧ ¬CopiesAlike { main .fifs with state := state } := by
  have hrun : (Executor.start.state.createThread none).isSome := by decide +kernel
  obtain ⟨⟨threadId, state⟩, hcreate⟩ := Option.isSome_iff_exists.mp hrun
  refine ⟨threadId, state, hcreate, .createThread .fifs hcreate, ?_⟩
  rintro ⟨c, hcopy, -, -, hselect⟩
  have hdiffer : (Executor.start.state.createThread none).map (fun result =>
      (({ main .fifs with state := result.2 } : ScheduledState).selections [.getNextThread],
        (({ main .fifs with state := result.2 } : ScheduledState).copy.bind (selections [.getNextThread])))) =
      some (some [some 1], some [some 2]) := by decide +kernel
  rw [hcreate, Option.map_some, hcopy] at hdiffer
  obtain ⟨hold, hnew⟩ := Prod.mk.inj (Option.some.inj hdiffer)
  have hsame := hselect [.getNextThread]
  rw [hold] at hsame
  rw [Option.bind_some, hsame] at hnew
  cases hnew

end ScheduledState
end CapTaint
