import CapTaint.Executor

/-! What the operations of the executor do to the states and to the clocks of threads. -/

namespace CapTaint
open Std

namespace ExecutionState

/-- What a thread knows of the count of `k`; 0 for a thread that does not exist. -/
def clock (s : ExecutionState) (q k : Nat) : Nat :=
  ((s.findThreadById q).bind fun thread => thread.vectorClock[k]?).getD 0

variable {s s' s'' : ExecutionState} {p q k : Nat}

/-! ### Single updates -/

theorem find_modify (f : Thread → Thread) :
    (s.modify p f).findThreadById q = (s.findThreadById q).map fun thread => if q = p then f thread else thread := by
  simp only [modify, findThreadById, TreeMap.getElem?_modify, Std.compare_eq_iff_eq]
  by_cases h : q = p
  · subst h
    simp
  · simp [h, Ne.symm h]

theorem mem_modify {f : Thread → Thread} : q ∈ (s.modify p f).threadList ↔ q ∈ s.threadList := by
  simp [modify, TreeMap.mem_modify]

theorem stateOf_isSome : (s.stateOf q).isSome ↔ q ∈ s.threadList := by
  rw [stateOf, Option.isSome_map, findThreadById, ← TreeMap.mem_iff_isSome_getElem?]

theorem stateOf_modify {f : Thread → Thread} {g : ThreadState → ThreadState}
    (hf : ∀ thread, (f thread).threadState = g thread.threadState) :
    (s.modify p f).stateOf q = (s.stateOf q).map fun old => if q = p then g old else old := by
  rw [stateOf, stateOf, find_modify]
  cases s.findThreadById q with
  | none => rfl
  | some thread =>
    simp only [Option.map_some]
    split
    · rw [hf]
    · rfl

theorem stateOf_modify_same {f : Thread → Thread} (hf : ∀ thread, (f thread).threadState = thread.threadState) :
    (s.modify p f).stateOf q = s.stateOf q := by
  rw [stateOf_modify (g := id) hf]
  cases s.stateOf q <;> simp

theorem clock_modify_same {f : Thread → Thread} (hf : ∀ thread, (f thread).vectorClock = thread.vectorClock) :
    (s.modify p f).clock q k = s.clock q k := by
  rw [clock, clock, find_modify]
  cases s.findThreadById q with
  | none => rfl
  | some thread =>
    simp only [Option.map_some, Option.bind_some]
    split
    · rw [hf]
    · rfl

theorem clock_eq (h : q ∉ s.threadList) : s.clock q k = 0 := by
  simp [clock, findThreadById, TreeMap.getElem?_eq_none h]

/-! ### A thread passes its clock on -/

/-- From `s` to `s'` the thread `p` has run, and the threads `targets` have taken over its clock. -/
structure Passes (p : Nat) (targets : List Nat) (s s' : ExecutionState) : Prop where
  mono : ∀ q k, s.clock q k ≤ s'.clock q k
  actor_others : ∀ k ≠ p, s'.clock p k = s.clock p k
  frame : ∀ q, q ≠ p → q ∉ targets → ∀ k, s'.clock q k = s.clock q k
  target : ∀ q ∈ targets, q ≠ p → ∀ k ≠ q, s'.clock q k ≤ max (s.clock q k) (s'.clock p k)

theorem Passes.of_clock_eq (h : ∀ q k, s'.clock q k = s.clock q k) (p : Nat) (targets : List Nat) :
    Passes p targets s s' where
  mono q k := (h q k).ge
  actor_others k _ := h p k
  frame q _ _ k := h q k
  target q _ _ k _ := (h q k).trans_le (le_max_left _ _)

theorem Passes.trans {targets targets' : List Nat} (h : Passes p targets s s') (h' : Passes p targets' s' s'') :
    Passes p (targets ++ targets') s s'' where
  mono q k := (h.mono q k).trans (h'.mono q k)
  actor_others k hk := (h'.actor_others k hk).trans (h.actor_others k hk)
  frame q hq hnot k := by
    rw [List.mem_append, not_or] at hnot
    rw [h'.frame q hq hnot.2, h.frame q hq hnot.1]
  target q hq hqp k hk := by
    have hfirst : s'.clock q k ≤ max (s.clock q k) (s''.clock p k) := by
      by_cases hmem : q ∈ targets
      · exact (h.target q hmem hqp k hk).trans (max_le_max le_rfl (h'.mono p k))
      · exact (h.frame q hqp hmem k).trans_le (le_max_left _ _)
    by_cases hmem : q ∈ targets'
    · exact (h'.target q hmem hqp k hk).trans (max_le hfirst (le_max_right _ _))
    · exact (h'.frame q hqp hmem k).trans_le hfirst

theorem tick_eq (h : s.tick p = some s') : p < 5 ∧ p ∈ s.threadList ∧ s'.queue = s.queue ∧
    (∀ q, q ∈ s'.threadList ↔ q ∈ s.threadList) ∧ (∀ q, s'.stateOf q = s.stateOf q) ∧
    ∀ q k, s'.clock q k = if q = p ∧ k = p then s.clock p p + 1 else s.clock q k := by
  unfold tick at h
  split at h
  swap
  · cases h
  case isTrue hp =>
  obtain rfl := Option.some.inj h
  refine ⟨hp.1, hp.2, rfl, fun q => mem_modify, fun q => stateOf_modify_same fun _ => rfl, fun q k => ?_⟩
  rw [clock, clock, clock, find_modify]
  by_cases hq : q = p
  · subst hq
    obtain ⟨thread, hthread⟩ := Option.isSome_iff_exists.mp (TreeMap.mem_iff_isSome_getElem?.mp hp.2)
    rw [findThreadById, hthread]
    simp only [Option.map_some, Option.bind_some, if_true, true_and, Vector.getElem?_set]
    by_cases hk : k = q
    · subst hk
      simp [hp.1]
    · simp [hk, Ne.symm hk]
  · simp [hq]

theorem tick_passes (h : s.tick p = some s') : Passes p [] s s' := by
  obtain ⟨_, _, _, _, _, hclock⟩ := tick_eq h
  refine ⟨fun q k => ?_, fun k hk => ?_, fun q hq _ k => ?_, by simp⟩
  · rw [hclock]
    split
    · next heq => rw [heq.1, heq.2]; exact Nat.le_succ _
    · exact le_rfl
  · rw [hclock, if_neg fun heq => hk heq.2]
  · rw [hclock, if_neg fun heq => hq heq.1]

/-! ### Waking -/

/-- The threads `ids` were woken to the state `threadState`. -/
structure Woken (threadState : ThreadState) (ids : List Nat) (s s' : ExecutionState) : Prop where
  mem : ∀ q, q ∈ s'.threadList ↔ q ∈ s.threadList
  stateOf : ∀ q, s'.stateOf q = (s.stateOf q).map fun old => if q ∈ ids then threadState else old
  queue : s'.queue = s.queue ++ ids

theorem Woken.nil (threadState : ThreadState) : Woken threadState [] s s where
  mem _ := Iff.rfl
  stateOf q := by cases s.stateOf q <;> simp
  queue := by simp

theorem Woken.trans {threadState : ThreadState} {ids ids' : List Nat} (h : Woken threadState ids s s')
    (h' : Woken threadState ids' s' s'') : Woken threadState (ids ++ ids') s s'' where
  mem q := (h'.mem q).trans (h.mem q)
  stateOf q := by
    rw [h'.stateOf, h.stateOf, Option.map_map]
    cases s.stateOf q with
    | none => rfl
    | some old =>
      simp only [Option.map_some, Function.comp_apply, List.mem_append]
      by_cases hq' : q ∈ ids'
      · simp [hq']
      · simp [hq']
  queue := by rw [h'.queue, h.queue, List.append_assoc]

theorem swapIn_woken (s : ExecutionState) (id : Nat) (threadState : ThreadState) :
    Woken threadState [id] s (s.swapInThread id threadState) where
  mem _ := mem_modify
  stateOf q := by
    have hstate : (s.swapInThread id threadState).stateOf q =
        (s.modify id fun thread => { thread with threadState := threadState }).stateOf q := rfl
    rw [hstate, stateOf_modify (g := fun _ => threadState) fun _ => rfl]
    simp
  queue := rfl

theorem swapIn_clock (id : Nat) (threadState : ThreadState) : (s.swapInThread id threadState).clock q k = s.clock q k :=
  clock_modify_same (s := s) (p := id) (f := fun thread => { thread with threadState := threadState }) fun _ => rfl

theorem swapOut_clock (id : Nat) (threadState : ThreadState) : (s.swapOutThread id threadState).clock q k = s.clock q k :=
  clock_modify_same (s := s) (p := id) (f := fun thread => { thread with threadState := threadState }) fun _ => rfl

theorem swapOut_stateOf (id : Nat) (threadState : ThreadState) :
    (s.swapOutThread id threadState).stateOf q = (s.stateOf q).map fun old => if q = id then threadState else old :=
  stateOf_modify (s := s) (p := id) (f := fun thread => { thread with threadState := threadState })
    (g := fun _ => threadState) fun _ => rfl

theorem wake_eq {id : Nat} {threadState : ThreadState} (h : s.wake p id threadState = some s') :
    Woken threadState [id] s s' ∧ Passes p [id] s s' ∧
      ∀ q k, s'.clock q k = if q = id then max (s.clock id k) (s.clock p k) else s.clock q k := by
  obtain ⟨thread, hthread, h⟩ := Option.bind_eq_some_iff.mp h
  obtain ⟨woken, hwoken, h⟩ := Option.bind_eq_some_iff.mp h
  obtain rfl := Option.some.inj h
  have hin := swapIn_woken s id threadState
  have hclock : ∀ q k, ((s.swapInThread id threadState).modify id fun woken => woken.merge thread.vectorClock).clock q k =
      if q = id then max (s.clock id k) (s.clock p k) else s.clock q k := by
    intro q k
    by_cases hq : q = id
    · subst hq
      rw [if_pos rfl, clock, find_modify]
      have hfind : (s.swapInThread q threadState).findThreadById q =
          some { woken with threadState := threadState } := by
        have heq : (s.swapInThread q threadState).findThreadById q =
          (s.modify q fun thread => { thread with threadState := threadState }).findThreadById q := rfl
        rw [heq, find_modify, hwoken]
        simp
      rw [hfind, clock, clock, hthread, hwoken]
      simp only [Option.map_some, if_true, Option.bind_some, Thread.merge, Vector.getElem?_zipWith]
      rcases Nat.lt_or_ge k 5 with hk | hk
      · simp [hk]
      · simp [Nat.not_lt.mpr hk]
    · rw [if_neg hq, clock, find_modify]
      simp only [hq, if_false, Option.map_id']
      exact swapIn_clock id threadState
  refine ⟨⟨fun q => mem_modify.trans (hin.mem q), fun q => ?_, hin.queue⟩, ⟨fun q k => ?_, fun k hk => ?_, ?_, ?_⟩, hclock⟩
  · exact (stateOf_modify_same (f := fun woken => woken.merge thread.vectorClock) fun _ => rfl).trans (hin.stateOf q)
  · rw [hclock]
    split
    · next heq => rw [heq]; exact le_max_left _ _
    · exact le_rfl
  · rw [hclock]
    split
    · next heq => rw [heq, Nat.max_self]
    · rfl
  · intro q _ hnot k
    rw [hclock, if_neg (by simpa using hnot)]
  · intro q hq hqp k _
    obtain rfl := List.mem_singleton.mp hq
    rw [hclock q k, if_pos rfl, hclock p k, if_neg (Ne.symm hqp)]

theorem wakeWaiter_eq {id : Nat} (h : wakeWaiter p s id = some s') :
    Woken .mutexBlocked [id] s s' ∧ Passes p [id] s s' := by
  obtain ⟨s₁, hwake, htick⟩ := Option.bind_eq_some_iff.mp h
  obtain ⟨hwoken, hpasses, _⟩ := wake_eq hwake
  obtain ⟨_, _, hqueue, hmem, hstate, _⟩ := tick_eq htick
  refine ⟨⟨fun q => (hmem q).trans (hwoken.mem q), fun q => (hstate q).trans (hwoken.stateOf q), ?_⟩, ?_⟩
  · rw [hqueue, hwoken.queue]
  · simpa using hpasses.trans (tick_passes htick)

/-- A loop that wakes one thread after the other. -/
theorem foldlM_woken {f : ExecutionState → Nat → Option ExecutionState} {threadState : ThreadState}
    (hf : ∀ s s' id, f s id = some s' → Woken threadState [id] s s' ∧ Passes p [id] s s') {ids : List Nat}
    (h : ids.foldlM f s = some s') : Woken threadState ids s s' ∧ Passes p ids s s' := by
  induction ids generalizing s with
  | nil =>
    obtain rfl := Option.some.inj h
    exact ⟨.nil _, .of_clock_eq (fun _ _ => rfl) _ _⟩
  | cons id ids ih =>
    rw [List.foldlM_cons] at h
    obtain ⟨s₁, hid, hrest⟩ := Option.bind_eq_some_iff.mp h
    obtain ⟨hwoken, hpasses⟩ := hf s s₁ id hid
    obtain ⟨hwoken', hpasses'⟩ := ih hrest
    exact ⟨hwoken.trans hwoken', hpasses.trans hpasses'⟩

theorem foldlM_wake_ge {threadState : ThreadState} {ids : List Nat}
    (h : ids.foldlM (fun s id => s.wake p id threadState) s = some s') :
    (∀ k, s'.clock p k = s.clock p k) ∧ ∀ q ∈ ids, ∀ k, s.clock p k ≤ s'.clock q k := by
  induction ids generalizing s with
  | nil =>
    obtain rfl := Option.some.inj h
    exact ⟨fun _ => rfl, by simp⟩
  | cons id ids ih =>
    rw [List.foldlM_cons] at h
    obtain ⟨s₁, hid, hrest⟩ := Option.bind_eq_some_iff.mp h
    obtain ⟨_, hpasses, hclock⟩ := wake_eq hid
    have hmono := (foldlM_woken (fun _ _ _ h => ⟨(wake_eq h).1, (wake_eq h).2.1⟩) hrest).2.mono
    obtain ⟨hsame, hge⟩ := ih hrest
    refine ⟨fun k => ?_, fun q hq k => ?_⟩
    · rw [hsame, hclock]
      split
      next heq => rw [← heq, Nat.max_self]
      next => rfl
    rcases List.mem_cons.mp hq with rfl | hq
    · refine Nat.le_trans ?_ (hmono q k)
      rw [hclock, if_pos rfl]
      exact le_max_right _ _
    · exact (hpasses.mono p k).trans (hge q hq k)

theorem foldl_swapIn_woken (threadState : ThreadState) (ids : List Nat) (s : ExecutionState) :
    Woken threadState ids s (ids.foldl (fun s id => s.swapInThread id threadState) s) ∧
      ∀ q k, (ids.foldl (fun s id => s.swapInThread id threadState) s).clock q k = s.clock q k := by
  induction ids generalizing s with
  | nil => exact ⟨.nil _, fun _ _ => rfl⟩
  | cons id ids ih =>
    obtain ⟨hwoken, hclock⟩ := ih (s.swapInThread id threadState)
    exact ⟨(swapIn_woken s id threadState).trans hwoken, fun q k => (hclock q k).trans (swapIn_clock id threadState)⟩

/-! ### New threads -/

theorem createThread_eq {replayed : Option Nat} {new : Nat} (h : s.createThread replayed = some (new, s')) :
    new ∉ s.threadList ∧ s'.threadList = s.threadList.insert new {} ∧ s'.queue = s.queue ++ [new] := by
  obtain ⟨⟨id, s₁⟩, hid, h⟩ := Option.bind_eq_some_iff.mp h
  have hlist : s₁.threadList = s.threadList ∧ s₁.queue = s.queue := by
    simp only [nextId, Option.ite_none_right_eq_some] at hid
    obtain ⟨-, rfl⟩ := Prod.mk.inj (Option.some.inj hid.2)
    exact ⟨rfl, rfl⟩
  simp only at h
  split at h
  · cases h
  case isFalse hfree =>
    obtain ⟨rfl, rfl⟩ := Prod.mk.inj (Option.some.inj h)
    rw [hlist.1] at hfree ⊢
    exact ⟨hfree, rfl, by rw [hlist.2]⟩

end ExecutionState

/-! ### One round of the run -/

namespace Executor
open ExecutionState

variable {e e' : Executor} {t : Nat} {o : Outcome}

/-- A thread is scheduled only if it can run: it is runnable then, and nothing else has changed. -/
theorem schedule_eq (h : e.schedule t = some e') :
    (e.state.stateOf t = some .runnable ∧ e' = e ∨ e.state.stateOf t = some .mutexBlocked ∧
      ∃ m, e.mutexManager.tryToLockForBlockedThread t = some (false, m) ∧
        e' = { e with
          mutexManager := m
          state := e.state.modify t fun thread => { thread with threadState := .runnable } }) := by
  unfold schedule at h
  split at h
  next hstate => exact .inl ⟨hstate, (Option.some.inj h).symm⟩
  next hstate =>
    split at h
    next m hm => exact .inr ⟨hstate, m, hm, (Option.some.inj h).symm⟩
    next => cases h
  next => cases h

theorem executePThreadCreate_eq {replayed : Option Nat} (h : e.executePThreadCreate t replayed = some (o, e')) :
    ∃ new s, o = { created := some new } ∧ e' = { e with state := s } ∧ new ∉ e.state.threadList ∧ t ∈ e.state.threadList ∧
      s.queue = e.state.queue ++ [new] ∧ (∀ q, q ∈ s.threadList ↔ q = new ∨ q ∈ e.state.threadList) ∧
      (∀ q, s.stateOf q = if q = new then some .runnable else e.state.stateOf q) ∧
      ∀ q k, s.clock q k = if q = new then e.state.clock t k + (if k = new then 1 else 0) else e.state.clock q k := by
  obtain ⟨thread, hthread, h⟩ := Option.bind_eq_some_iff.mp h
  obtain ⟨⟨new, s₁⟩, hcreate, h⟩ := Option.bind_eq_some_iff.mp h
  obtain ⟨s₂, htick, h⟩ := Option.bind_eq_some_iff.mp h
  obtain ⟨rfl, rfl⟩ := Prod.mk.inj (Option.some.inj h)
  obtain ⟨hfree, hlist, hqueue⟩ := createThread_eq hcreate
  obtain ⟨hlt, _, hqueue₂, hmem₂, hstate₂, hclock₂⟩ := tick_eq htick
  -- the new thread before it counts itself
  have hfind : ∀ q, (s₁.modify new fun new => { new with vectorClock := thread.vectorClock }).findThreadById q =
      if q = new then some { vectorClock := thread.vectorClock } else e.state.findThreadById q := by
    intro q
    rw [find_modify, findThreadById, hlist, TreeMap.getElem?_insert]
    by_cases hq : q = new
    · simp [hq]
    · simp [hq, Ne.symm hq, findThreadById]
  refine ⟨new, s₂, rfl, rfl, hfree, ?_, ?_, ?_, ?_, ?_⟩
  · exact TreeMap.mem_iff_isSome_getElem?.mpr (by rw [← findThreadById, hthread]; rfl)
  · rw [hqueue₂]
    exact hqueue
  · intro q
    rw [hmem₂, mem_modify, hlist, TreeMap.mem_insert, Std.compare_eq_iff_eq]
    exact or_congr eq_comm Iff.rfl
  · intro q
    rw [hstate₂, stateOf, hfind]
    split
    · rfl
    · rfl
  · intro q k
    have hclock : ∀ q k, (s₁.modify new fun new => { new with vectorClock := thread.vectorClock }).clock q k =
        if q = new then e.state.clock t k else e.state.clock q k := by
      intro q k
      rw [clock, hfind]
      split
      · simp [clock, hthread]
      · rfl
    rw [hclock₂, hclock, hclock]
    by_cases hq : q = new
    · by_cases hk : k = new
      · simp [hq, hk]
      · simp [hq, hk]
    · simp [hq]

theorem executePThreadJoin_eq {joined : Nat} (h : e.executePThreadJoin t joined = some (o, e')) :
    (e.state.stateOf joined = some .terminated ∧ o = {} ∧ e' = e) ∨
      (e.state.stateOf joined ≠ some .terminated ∧ joined ∈ e.state.threadList ∧ o = { blocked := true } ∧
        e' = { e with
          joinRecord := e.joinRecord.insert joined (e.joinRecord.getD joined [] ++ [t])
          state := e.state.swapOutThread t .joinBlocked }) := by
  obtain ⟨thread, hthread, h⟩ := Option.bind_eq_some_iff.mp h
  have hstate : e.state.stateOf joined = some thread.threadState := by rw [stateOf, hthread]; rfl
  split at h
  next hterminated =>
    obtain ⟨rfl, rfl⟩ := Prod.mk.inj (Option.some.inj h)
    exact .inl ⟨by rw [hstate, hterminated], rfl, rfl⟩
  next hrunning =>
    obtain ⟨rfl, rfl⟩ := Prod.mk.inj (Option.some.inj h)
    refine .inr ⟨by rw [hstate]; simpa using hrunning, ?_, rfl, rfl⟩
    exact stateOf_isSome.mp (by rw [hstate]; rfl)

theorem executePThreadCondWait_eq {cond mutex : Nat} (h : e.executePThreadCondWait t cond mutex = some (o, e')) :
    ∃ wps m state, e.condManager.condPool[cond]? = some wps ∧ e.mutexManager.mutexPool[mutex]? = some state ∧
      state.lockedThreadId = t ∧ e.mutexManager.unlock mutex = some m ∧ o = { blocked := true } ∧
      e' = { e with
        condManager := { condPool := e.condManager.condPool.insert cond (wps ++ [{ mutex := mutex, threadId := t }]) }
        mutexManager := m
        state := e.state.swapOutThread t .condBlocked } := by
  obtain ⟨⟨c, m⟩, hwait, h⟩ := Option.bind_eq_some_iff.mp h
  obtain ⟨rfl, rfl⟩ := Prod.mk.inj (Option.some.inj h)
  obtain ⟨state, hmutex, hwait⟩ := Option.bind_eq_some_iff.mp hwait
  obtain ⟨wps, hcond, hwait⟩ := Option.bind_eq_some_iff.mp hwait
  split at hwait
  swap
  · cases hwait
  next howner =>
  obtain ⟨m', hunlock, hwait⟩ := Option.bind_eq_some_iff.mp hwait
  obtain ⟨rfl, rfl⟩ := Prod.mk.inj (Option.some.inj hwait)
  exact ⟨wps, m', state, hcond, hmutex, howner, hunlock, rfl, rfl⟩

/-- A signal or a broadcast: `released` have left the waiting list `wps`, and `rest` stay. -/
structure Signalled (t cond : Nat) (released : List WaitParam) (o : Outcome) (e e' : Executor) : Prop where
  outcome : o = { released := released.map (·.threadId) }
  waiting : ∃ wps rest, e.condManager.condPool[cond]? = some wps ∧ rest.Sublist wps ∧ wps.Perm (released ++ rest) ∧
    ∀ k, e'.condManager.condPool[k]? = if k = cond then some rest else e.condManager.condPool[k]?
  blocked : released.foldlM (fun m wp => m.addBlockedThread wp.threadId wp.mutex) e.mutexManager = some e'.mutexManager
  woken : Woken .mutexBlocked (released.map (·.threadId)) e.state e'.state
  passes : Passes t (released.map (·.threadId)) e.state e'.state
  barriers : e'.barrierManager = e.barrierManager
  joins : e'.joinRecord = e.joinRecord

theorem getElem?_insert_eq {table : TreeMap Nat (List WaitParam)} {cond : Nat} {rest : List WaitParam} (k : Nat) :
    (table.insert cond rest)[k]? = if k = cond then some rest else table[k]? := by
  rw [TreeMap.getElem?_insert]
  by_cases hk : k = cond
  · simp [hk]
  · simp [hk, Ne.symm hk]

theorem executePThreadCondSignal_eq {cond waiter : Nat} (h : e.executePThreadCondSignal t cond waiter = some (o, e')) :
    ∃ released, released.length ≤ 1 ∧ Signalled t cond released o e e' := by
  obtain ⟨⟨id, c, m⟩, hsignal, h⟩ := Option.bind_eq_some_iff.mp h
  obtain ⟨s, hwake, h⟩ := Option.bind_eq_some_iff.mp h
  obtain ⟨rfl, rfl⟩ := Prod.mk.inj (Option.some.inj h)
  obtain ⟨wps, hcond, hsignal⟩ := Option.bind_eq_some_iff.mp hsignal
  obtain ⟨hwoken, hpasses⟩ := foldlM_woken (fun _ _ _ => wakeWaiter_eq) hwake
  split at hsignal
  next hempty =>
    subst hempty
    obtain ⟨rfl, rfl, rfl⟩ : id = none ∧ c = e.condManager ∧ m = e.mutexManager := by simpa [eq_comm] using hsignal
    refine ⟨[], by simp, rfl, ⟨[], [], hcond, .refl _, .refl _, fun k => ?_⟩, rfl, hwoken, hpasses, rfl, rfl⟩
    split
    next hk => rw [hk, hcond]
    next => rfl
  next =>
    obtain ⟨wp, hwp, hsignal⟩ := Option.bind_eq_some_iff.mp hsignal
    obtain ⟨m', hblocked, hsignal⟩ := Option.bind_eq_some_iff.mp hsignal
    obtain ⟨rfl, rfl, rfl⟩ : id = some wp.threadId ∧
        c = { condPool := e.condManager.condPool.insert cond (wps.eraseIdx waiter) } ∧ m = m' := by
      simpa [eq_comm] using hsignal
    obtain ⟨hlt, rfl⟩ := List.getElem?_eq_some_iff.mp hwp
    refine ⟨[wps[waiter]], le_rfl, rfl, ⟨wps, wps.eraseIdx waiter, hcond, List.eraseIdx_sublist _ _, ?_,
      getElem?_insert_eq⟩, ?_, hwoken, hpasses, rfl, rfl⟩
    · exact (List.getElem_cons_eraseIdx_perm hlt).symm
    · rw [List.foldlM_cons, hblocked]
      rfl

theorem executePThreadCondBroadcast_eq {cond : Nat} (h : e.executePThreadCondBroadcast t cond = some (o, e')) :
    ∃ released, e.condManager.condPool[cond]? = some released ∧ Signalled t cond released o e e' := by
  obtain ⟨⟨ids, c, m⟩, hbroadcast, h⟩ := Option.bind_eq_some_iff.mp h
  obtain ⟨s, hwake, h⟩ := Option.bind_eq_some_iff.mp h
  obtain ⟨rfl, rfl⟩ := Prod.mk.inj (Option.some.inj h)
  obtain ⟨wps, hcond, hbroadcast⟩ := Option.bind_eq_some_iff.mp hbroadcast
  obtain ⟨m', hblocked, hbroadcast⟩ := Option.bind_eq_some_iff.mp hbroadcast
  obtain ⟨rfl, rfl, rfl⟩ : ids = wps.map (·.threadId) ∧ c = { condPool := e.condManager.condPool.insert cond [] } ∧ m = m' := by
    simpa [eq_comm] using hbroadcast
  obtain ⟨hwoken, hpasses⟩ := foldlM_woken (fun _ _ _ => wakeWaiter_eq) hwake
  exact ⟨wps, hcond, rfl, ⟨wps, [], hcond, List.nil_sublist _, by simp, getElem?_insert_eq⟩, hblocked, hwoken, hpasses, rfl, rfl⟩

theorem executePThreadMutexLock_eq {mutex : Nat} (h : e.executePThreadMutexLock t mutex = some (o, e')) :
    ∃ isBlocked m, e.mutexManager.lock mutex t = some (isBlocked, m) ∧ o = { blocked := isBlocked } ∧
      e' = { e with
        mutexManager := m
        state := if isBlocked then e.state.modify t fun thread => { thread with threadState := .mutexBlocked }
          else e.state } := by
  obtain ⟨⟨isBlocked, m⟩, hlock, h⟩ := Option.bind_eq_some_iff.mp h
  obtain ⟨rfl, rfl⟩ := Prod.mk.inj (Option.some.inj h)
  exact ⟨isBlocked, m, hlock, rfl, rfl⟩

theorem executePThreadMutexUnlock_eq {mutex : Nat} (h : e.executePThreadMutexUnlock mutex = some (o, e')) :
    ∃ m, e.mutexManager.unlock mutex = some m ∧ o = {} ∧ e' = { e with mutexManager := m } := by
  obtain ⟨m, hunlock, h⟩ := Option.bind_eq_some_iff.mp h
  obtain ⟨rfl, rfl⟩ := Prod.mk.inj (Option.some.inj h)
  exact ⟨m, hunlock, rfl, rfl⟩

theorem executePThreadBarrierInit_eq {barrier count : Nat} (h : e.executePThreadBarrierInit barrier count = some (o, e')) :
    ∃ state, e.barrierManager.barrierPool[barrier]? = some state ∧ o = {} ∧
      e' = { e with barrierManager := { barrierPool := e.barrierManager.barrierPool.insert barrier { state with count := count } } } := by
  obtain ⟨b, hinit, h⟩ := Option.bind_eq_some_iff.mp h
  obtain ⟨rfl, rfl⟩ := Prod.mk.inj (Option.some.inj h)
  unfold BarrierManager.init at hinit
  split at hinit
  next => cases hinit
  next state hstate =>
    obtain rfl := Option.some.inj hinit
    exact ⟨state, hstate, rfl, rfl⟩

/-- A return from the outermost frame wakes the threads that joined this one; each has its clock then. -/
theorem executeExit_eq (h : e.executeExit t = some (o, e')) :
    ∃ s, o = { released := e.joinRecord.getD t [] } ∧ e' = { e with state := s.swapOutThread t .terminated } ∧
      Woken .runnable (e.joinRecord.getD t []) e.state s ∧ Passes t (e.joinRecord.getD t []) e.state s ∧
      (∀ k, s.clock t k = e.state.clock t k) ∧ ∀ q ∈ e.joinRecord.getD t [], ∀ k, e.state.clock t k ≤ s.clock q k := by
  obtain ⟨s, hwake, h⟩ := Option.bind_eq_some_iff.mp h
  obtain ⟨rfl, rfl⟩ := Prod.mk.inj (Option.some.inj h)
  obtain ⟨hwoken, hpasses⟩ := foldlM_woken (fun _ _ _ h => ⟨(wake_eq h).1, (wake_eq h).2.1⟩) hwake
  refine ⟨s, rfl, rfl, hwoken, hpasses, ?_⟩
  exact foldlM_wake_ge hwake

end Executor
end CapTaint
