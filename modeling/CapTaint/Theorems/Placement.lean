import CapTaint.Theorems.Threads

/-! Where threads are: a thread that can be scheduled is in the queue, and a blocked one in the one list that its state
    stands for. -/

namespace CapTaint
open Std ExecutionState

/-! ### Lists of blocked threads -/

/-- The lists of `table` hold the threads in `S`, each of them once. -/
structure Parked (table : Nat → List Nat) (S : Nat → Prop) : Prop where
  nodup : ∀ k, (table k).Nodup
  unique : ∀ {k k' q}, q ∈ table k → q ∈ table k' → k = k'
  mem : ∀ q, S q ↔ ∃ k, q ∈ table k

variable {table table' : Nat → List Nat} {S S' : Nat → Prop}

theorem Parked.congr (h : Parked table S) (htable : ∀ k, table' k = table k) (hS : ∀ q, S' q ↔ S q) :
    Parked table' S' := by
  refine ⟨fun k => ?_, fun hq hq' => ?_, fun q => ?_⟩
  · rw [htable]
    exact h.nodup k
  · rw [htable] at hq hq'
    exact h.unique hq hq'
  · simp only [hS, h.mem, htable]

/-- A thread that is in none of the lists is added to one. -/
theorem Parked.park (h : Parked table S) (k₀ : Nat) {t : Nat} (ht : ¬S t) (hk₀ : table' k₀ = table k₀ ++ [t])
    (hother : ∀ k ≠ k₀, table' k = table k) (hS : ∀ q, S' q ↔ S q ∨ q = t) : Parked table' S' := by
  have hout : ∀ k, t ∉ table k := fun k hmem => ht ((h.mem t).mpr ⟨k, hmem⟩)
  have hmem : ∀ k q, q ∈ table' k ↔ q ∈ table k ∨ k = k₀ ∧ q = t := by
    intro k q
    by_cases hk : k = k₀
    · rw [hk, hk₀]
      simp
    · rw [hother k hk]
      simp [hk]
  refine ⟨fun k => ?_, fun {k k' q} hq hq' => ?_, fun q => ?_⟩
  · by_cases hk : k = k₀
    · rw [hk, hk₀, List.nodup_append]
      refine ⟨h.nodup k₀, by simp, ?_⟩
      rintro a ha b hb rfl
      exact hout k₀ (List.mem_singleton.mp hb ▸ ha)
    · rw [hother k hk]
      exact h.nodup k
  · rcases (hmem k q).mp hq with hq | ⟨rfl, rfl⟩
    · rcases (hmem k' q).mp hq' with hq' | ⟨rfl, rfl⟩
      · exact h.unique hq hq'
      · exact absurd hq (hout k)
    · rcases (hmem k' q).mp hq' with hq' | ⟨rfl, _⟩
      · exact absurd hq' (hout k')
      · rfl
  · rw [hS, h.mem]
    simp only [hmem]
    constructor
    · rintro (⟨k, hk⟩ | rfl)
      · exact ⟨k, .inl hk⟩
      · exact ⟨k₀, .inr ⟨rfl, rfl⟩⟩
    · rintro ⟨k, hk | ⟨_, rfl⟩⟩
      · exact .inl ⟨k, hk⟩
      · exact .inr rfl

/-- Some threads of one list leave. -/
theorem Parked.release (h : Parked table S) (k₀ : Nat) (released : List Nat)
    (hperm : (table k₀).Perm (released ++ table' k₀)) (hother : ∀ k ≠ k₀, table' k = table k)
    (hS : ∀ q, S' q ↔ S q ∧ q ∉ released) : Parked table' S' := by
  have hnodup : (released ++ table' k₀).Nodup := hperm.nodup_iff.mp (h.nodup k₀)
  have hdisjoint := (List.nodup_append.mp hnodup).2.2
  have hsub : ∀ k, ∀ q ∈ table' k, q ∈ table k := by
    intro k q hq
    by_cases hk : k = k₀
    · rw [hk] at hq ⊢
      exact hperm.mem_iff.mpr (List.mem_append_right _ hq)
    · rwa [hother k hk] at hq
  refine ⟨fun k => ?_, fun hq hq' => h.unique (hsub _ _ hq) (hsub _ _ hq'), fun q => ?_⟩
  · by_cases hk : k = k₀
    · rw [hk]
      exact (List.nodup_append.mp hnodup).2.1
    · rw [hother k hk]
      exact h.nodup k
  · rw [hS, h.mem]
    constructor
    · rintro ⟨⟨k, hk⟩, hstay⟩
      by_cases hkk : k = k₀
      · subst hkk
        exact ⟨k, (List.mem_append.mp (hperm.mem_iff.mp hk)).resolve_left hstay⟩
      · exact ⟨k, by rwa [hother k hkk]⟩
    · rintro ⟨k, hk⟩
      refine ⟨⟨k, hsub k q hk⟩, fun hleft => ?_⟩
      have hk₀ : k = k₀ := h.unique (hsub k q hk) (hperm.mem_iff.mpr (List.mem_append_left _ hleft))
      exact hdisjoint q hleft q (hk₀ ▸ hk) rfl

/-- The thread is in one of the lists, and once in it, when `here` holds, and else in none. -/
def InOneOf (table : Nat → List Nat) (q : Nat) (here : Prop) : Prop :=
  (here ∧ ∃ k, ∀ k', (table k').count q = if k' = k then 1 else 0) ∨ (¬here ∧ ∀ k, q ∉ table k)

theorem Parked.inOneOf (h : Parked table S) (q : Nat) : InOneOf table q (S q) := by
  by_cases hq : S q
  · obtain ⟨k, hk⟩ := (h.mem q).mp hq
    refine .inl ⟨hq, k, fun k' => ?_⟩
    split
    next heq => rw [heq, List.count_eq_one_of_mem (h.nodup k) hk]
    next hne => exact List.count_eq_zero.mpr fun hk' => hne (h.unique hk' hk)
  · exact .inr ⟨hq, fun k hk => hq ((h.mem q).mpr ⟨k, hk⟩)⟩

/-- The list holds the threads in `S`, each of them once. -/
structure Listed (l : List Nat) (S : Nat → Prop) : Prop where
  nodup : l.Nodup
  mem : ∀ q, q ∈ l ↔ S q

theorem Listed.congr {l : List Nat} (h : Listed l S) (hS : ∀ q, S' q ↔ S q) : Listed l S' :=
  ⟨h.nodup, fun q => (h.mem q).trans (hS q).symm⟩

theorem Listed.erase {l : List Nat} (h : Listed l S) {t : Nat} (hS : ∀ q, S' q ↔ S q ∧ q ≠ t) : Listed (l.erase t) S' := by
  refine ⟨h.nodup.erase t, fun q => ?_⟩
  rw [h.nodup.mem_erase_iff, h.mem, hS, and_comm]

theorem Listed.append {l ids : List Nat} (h : Listed l S) (hids : ids.Nodup) (hout : ∀ q ∈ ids, ¬S q)
    (hS : ∀ q, S' q ↔ S q ∨ q ∈ ids) : Listed (l ++ ids) S' := by
  refine ⟨List.nodup_append.mpr ⟨h.nodup, hids, ?_⟩, fun q => ?_⟩
  · rintro a ha b hb rfl
    exact hout a hb ((h.mem a).mp ha)
  · rw [List.mem_append, h.mem, hS]

/-! ### States that change together -/

/-- The threads `ids`, which were in the state `old`, are in the state `new`. -/
structure Turned (old new : ThreadState) (ids : List Nat) (s s' : ExecutionState) : Prop where
  before : ∀ q ∈ ids, s.stateOf q = some old
  after : ∀ q, s'.stateOf q = (s.stateOf q).map fun st => if q ∈ ids then new else st

namespace Turned
variable {old new : ThreadState} {ids : List Nat} {s s' : ExecutionState} {q : Nat}

theorem stateOf_of_mem (h : Turned old new ids s s') (hq : q ∈ ids) : s'.stateOf q = some new := by
  rw [h.after, h.before q hq, Option.map_some, if_pos hq]

theorem stateOf_of_notMem (h : Turned old new ids s s') (hq : q ∉ ids) : s'.stateOf q = s.stateOf q := by
  rw [h.after]
  cases s.stateOf q <;> simp [hq]

theorem same (h : Turned old new ids s s') {st : ThreadState} (hold : old ≠ st) (hnew : new ≠ st) :
    s'.stateOf q = some st ↔ s.stateOf q = some st := by
  by_cases hq : q ∈ ids
  · rw [h.stateOf_of_mem hq, h.before q hq]
    simp [hold, hnew]
  · rw [h.stateOf_of_notMem hq]

theorem to_new (h : Turned old new ids s s') : s'.stateOf q = some new ↔ s.stateOf q = some new ∨ q ∈ ids := by
  by_cases hq : q ∈ ids
  · simp [h.stateOf_of_mem hq, hq]
  · simp [h.stateOf_of_notMem hq, hq]

theorem from_old (h : Turned old new ids s s') (hne : new ≠ old) :
    s'.stateOf q = some old ↔ s.stateOf q = some old ∧ q ∉ ids := by
  by_cases hq : q ∈ ids
  · simp [h.stateOf_of_mem hq, hq, hne]
  · simp [h.stateOf_of_notMem hq, hq]

end Turned

theorem turned_of_modify {old new : ThreadState} {t : Nat} {s s' : ExecutionState} (ht : s.stateOf t = some old)
    (h : ∀ q, s'.stateOf q = (s.stateOf q).map fun st => if q = t then new else st) : Turned old new [t] s s' where
  before q hq := by rwa [List.mem_singleton.mp hq]
  after q := by simp only [h, List.mem_singleton]

/-! ### The invariant -/

namespace Executor

/-- The waiting list of a condition. -/
def waiters (e : Executor) (cond : Nat) : List Nat := (e.condManager.condPool.getD cond []).map (·.threadId)

/-- The threads that wait for the end of a thread; nothing leaves its list, but an ended thread has no joiners. -/
def joiners (e : Executor) (t : Nat) : List Nat :=
  if e.state.stateOf t = some .terminated then [] else e.joinRecord.getD t []

/-- The threads at a barrier that is not complete. -/
def arrivals (e : Executor) (barrier : Nat) : List Nat := (e.barrierManager.barrierPool.getD barrier {}).blockedList

/-- A thread that the scheduler may pick. -/
def Schedulable (e : Executor) (q : Nat) : Prop :=
  e.state.stateOf q = some .runnable ∨ e.state.stateOf q = some .mutexBlocked

structure Placed (e : Executor) : Prop where
  queue : Listed e.state.queue e.Schedulable
  waiters : Parked e.waiters fun q => e.state.stateOf q = some .condBlocked
  joiners : Parked e.joiners fun q => e.state.stateOf q = some .joinBlocked
  arrivals : Parked e.arrivals fun q => e.state.stateOf q = some .barrierBlocked

variable {e e' : Executor} {t : Nat} {o : Outcome}

theorem mem_joiners {u q : Nat} : q ∈ e.joiners u ↔ e.state.stateOf u ≠ some .terminated ∧ q ∈ e.joinRecord.getD u [] := by
  unfold joiners
  split
  next h => simp [h]
  next h => simp [h]

theorem joiners_congr (hstate : ∀ q, e'.state.stateOf q = some .terminated ↔ e.state.stateOf q = some .terminated)
    (hjoin : e'.joinRecord = e.joinRecord) (u : Nat) : e'.joiners u = e.joiners u := by
  simp only [joiners, hstate, hjoin]

theorem start_placed : Placed start := by
  have hstate : ∀ q, start.state.stateOf q = if q = 1 then some .runnable else none := by
    intro q
    by_cases hq : q = 1
    · subst hq
      rfl
    · simp [start, stateOf, findThreadById, hq, Ne.symm hq]
  have hempty : ∀ st, st ≠ .runnable → Parked (fun _ => []) fun q => start.state.stateOf q = some st := by
    intro st hst
    refine ⟨by simp, by simp, fun q => ?_⟩
    rw [hstate]
    split <;> simp [Ne.symm hst]
  refine ⟨⟨by decide, fun q => ?_⟩, ?_, ?_, ?_⟩
  · rw [Schedulable, hstate]
    by_cases hq : q = 1
    · simp [hq, start]
    · simp [hq, start]
  · exact (hempty .condBlocked (by decide)).congr (fun _ => by simp [Executor.waiters, start]) fun _ => Iff.rfl
  · exact (hempty .joinBlocked (by decide)).congr (fun _ => by simp [Executor.joiners, start]) fun _ => Iff.rfl
  · exact (hempty .barrierBlocked (by decide)).congr (fun _ => by simp [Executor.arrivals, start]) fun _ => Iff.rfl

/-- Among schedulable states nothing moves. -/
theorem Placed.turn_schedulable (h : Placed e) {old new : ThreadState} (hold : old = .runnable ∨ old = .mutexBlocked)
    (hnew : new = .runnable ∨ new = .mutexBlocked) {ids : List Nat} (hturned : Turned old new ids e.state e'.state)
    (hqueue : e'.state.queue = e.state.queue) (hcond : e'.condManager = e.condManager)
    (hjoin : e'.joinRecord = e.joinRecord) (hbarrier : e'.barrierManager = e.barrierManager) : Placed e' := by
  have hsame : ∀ {st : ThreadState}, st ≠ .runnable → st ≠ .mutexBlocked →
      ∀ q, e'.state.stateOf q = some st ↔ e.state.stateOf q = some st := by
    intro st hrun hblock q
    refine hturned.same ?_ ?_
    · rcases hold with rfl | rfl
      · exact Ne.symm hrun
      · exact Ne.symm hblock
    · rcases hnew with rfl | rfl
      · exact Ne.symm hrun
      · exact Ne.symm hblock
  refine ⟨?_, h.waiters.congr ?_ (hsame (by decide) (by decide)), h.joiners.congr ?_ (hsame (by decide) (by decide)),
    h.arrivals.congr ?_ (hsame (by decide) (by decide))⟩
  · rw [hqueue]
    refine h.queue.congr fun q => ?_
    by_cases hq : q ∈ ids
    · have hafter := hturned.stateOf_of_mem hq
      have hbefore := hturned.before q hq
      rw [Schedulable, Schedulable, hafter, hbefore]
      rcases hold with rfl | rfl <;> rcases hnew with rfl | rfl <;> simp
    · rw [Schedulable, Schedulable, hturned.stateOf_of_notMem hq]
  · intro k
    rw [Executor.waiters, Executor.waiters, hcond]
  · exact joiners_congr (hsame (by decide) (by decide)) hjoin
  · intro k
    rw [Executor.arrivals, Executor.arrivals, hbarrier]

theorem schedule_placed (h : Placed e) (hs : e.schedule t = some e') :
    Placed e' ∧ e'.state.stateOf t = some .runnable := by
  rcases schedule_eq hs with ⟨hrun, rfl⟩ | ⟨hblocked, m, _, rfl⟩
  · exact ⟨h, hrun⟩
  · have hturned : Turned .mutexBlocked .runnable [t] e.state
        (e.state.modify t fun thread => { thread with threadState := .runnable }) :=
      turned_of_modify hblocked fun q => stateOf_modify (g := fun _ => .runnable) fun _ => rfl
    exact ⟨h.turn_schedulable (.inr rfl) (.inl rfl) hturned rfl rfl rfl rfl, hturned.stateOf_of_mem List.mem_cons_self⟩

/-- The running thread leaves the queue for a list of its own state. -/
theorem Placed.queue_swapOut (h : Placed e) {new : ThreadState} (hnew : new ≠ .runnable ∧ new ≠ .mutexBlocked)
    (hturned : Turned .runnable new [t] e.state e'.state) (hqueue : e'.state.queue = e.state.queue.erase t) :
    Listed e'.state.queue e'.Schedulable := by
  rw [hqueue]
  refine h.queue.erase fun q => ?_
  rw [Schedulable, Schedulable]
  by_cases hq : q = t
  · subst hq
    rw [hturned.stateOf_of_mem List.mem_cons_self]
    simp [hnew.1, hnew.2]
  · rw [hturned.stateOf_of_notMem (by simpa using hq)]
    simp [hq]

theorem swapOut_turned (ht : e.state.stateOf t = some .runnable) (new : ThreadState) :
    Turned .runnable new [t] e.state (e.state.swapOutThread t new) :=
  turned_of_modify ht fun _ => swapOut_stateOf t new

/-- Threads that come back from a list of their state join the queue. -/
theorem Placed.queue_woken (h : Placed e) (e' : Executor) {old new : ThreadState} (hold : old ≠ .runnable ∧ old ≠ .mutexBlocked)
    (hnew : new = .runnable ∨ new = .mutexBlocked) {ids : List Nat} (hids : ids.Nodup)
    (hturned : Turned old new ids e.state e'.state) (hqueue : e'.state.queue = e.state.queue ++ ids) :
    Listed e'.state.queue e'.Schedulable := by
  rw [hqueue]
  refine h.queue.append hids (fun q hq => ?_) fun q => ?_
  · rw [Schedulable, hturned.before q hq]
    simp [hold.1, hold.2]
  · rw [Schedulable, Schedulable]
    by_cases hq : q ∈ ids
    · rw [hturned.stateOf_of_mem hq]
      rcases hnew with rfl | rfl <;> simp [hq]
    · rw [hturned.stateOf_of_notMem hq]
      simp [hq]

theorem create_placed (h : Placed e) {replayed : Option Nat} (hs : e.executePThreadCreate t replayed = some (o, e')) :
    Placed e' := by
  obtain ⟨new, s, -, rfl, hfree, -, hqueue, -, hstate, -⟩ := executePThreadCreate_eq hs
  have hnone : e.state.stateOf new = none := by
    rw [← Option.not_isSome_iff_eq_none, stateOf_isSome]
    exact hfree
  have hsame : ∀ {st : ThreadState}, st ≠ .runnable → ∀ q, s.stateOf q = some st ↔ e.state.stateOf q = some st := by
    intro st hst q
    rw [hstate]
    split
    next hq => simp [hq, hnone, Ne.symm hst]
    next => rfl
  refine ⟨?_, h.waiters.congr (fun _ => rfl) (hsame (by decide)),
    h.joiners.congr (joiners_congr (hsame (by decide)) rfl) (hsame (by decide)),
    h.arrivals.congr (fun _ => rfl) (hsame (by decide))⟩
  show Listed s.queue _
  rw [hqueue]
  refine h.queue.append (by simp) (fun q hq => ?_) fun q => ?_
  · rw [Schedulable, List.mem_singleton.mp hq, hnone]
    simp
  · simp only [Schedulable, hstate, List.mem_singleton]
    by_cases hq : q = new
    · simp [hq]
    · simp [hq]

theorem join_placed (h : Placed e) (ht : e.state.stateOf t = some .runnable) {joined : Nat}
    (hs : e.executePThreadJoin t joined = some (o, e')) : Placed e' := by
  rcases executePThreadJoin_eq hs with ⟨-, -, rfl⟩ | ⟨hrunning, -, -, rfl⟩
  · exact h
  have hturned := swapOut_turned ht .joinBlocked
  have hterminated : ∀ q, (e.state.swapOutThread t .joinBlocked).stateOf q = some .terminated ↔
      e.state.stateOf q = some .terminated := fun q => hturned.same (by decide) (by decide)
  refine ⟨h.queue_swapOut (by decide) hturned rfl, h.waiters.congr (fun _ => rfl) fun q => hturned.same (by decide) (by decide),
    h.joiners.park joined (t := t) (by simp [ht]) ?_ (fun k hk => ?_) fun q => ?_,
    h.arrivals.congr (fun _ => rfl) fun q => hturned.same (by decide) (by decide)⟩
  · simp only [Executor.joiners, hterminated, hrunning, if_false, TreeMap.getD_insert_self]
  · simp only [Executor.joiners, hterminated, TreeMap.getD_insert, Std.compare_eq_iff_eq, Ne.symm hk, if_false]
  · exact hturned.to_new.trans (by rw [List.mem_singleton])

theorem wait_placed (h : Placed e) (ht : e.state.stateOf t = some .runnable) {cond mutex : Nat}
    (hs : e.executePThreadCondWait t cond mutex = some (o, e')) : Placed e' := by
  obtain ⟨wps, m, state, hcond, -, -, -, -, rfl⟩ := executePThreadCondWait_eq hs
  have hturned := swapOut_turned ht .condBlocked
  refine ⟨h.queue_swapOut (by decide) hturned rfl,
    h.waiters.park cond (t := t) (by simp [ht]) ?_ (fun k hk => ?_) fun q => ?_,
    h.joiners.congr (joiners_congr (fun q => hturned.same (by decide) (by decide)) rfl) fun q =>
      hturned.same (by decide) (by decide),
    h.arrivals.congr (fun _ => rfl) fun q => hturned.same (by decide) (by decide)⟩
  · simp [Executor.waiters, TreeMap.getD_eq_getD_getElem?, hcond]
  · simp [Executor.waiters, TreeMap.getD_insert, Ne.symm hk]
  · exact hturned.to_new.trans (by rw [List.mem_singleton])

theorem Signalled.turned (h : Placed e) {cond : Nat} {released : List WaitParam} (hs : Signalled t cond released o e e') :
    Turned .condBlocked .mutexBlocked (released.map (·.threadId)) e.state e'.state ∧
      (e.waiters cond).Perm (released.map (·.threadId) ++ e'.waiters cond) := by
  obtain ⟨wps, rest, hcond, _, hperm, hafter⟩ := hs.waiting
  have hperm' : (e.waiters cond).Perm (released.map (·.threadId) ++ e'.waiters cond) := by
    have hmap := hperm.map (·.threadId)
    rw [List.map_append] at hmap
    simpa [Executor.waiters, TreeMap.getD_eq_getD_getElem?, hcond, hafter cond] using hmap
  refine ⟨⟨fun q hq => ?_, hs.woken.stateOf⟩, hperm'⟩
  exact (h.waiters.mem q).mpr ⟨cond, hperm'.mem_iff.mpr (List.mem_append_left _ hq)⟩

theorem signalled_placed (h : Placed e) {cond : Nat} {released : List WaitParam}
    (hs : Signalled t cond released o e e') : Placed e' := by
  obtain ⟨hturned, hperm⟩ := hs.turned h
  obtain ⟨wps, rest, _, _, _, hafter⟩ := hs.waiting
  have hnodup : (released.map (·.threadId)).Nodup :=
    (List.nodup_append.mp (hperm.nodup_iff.mp (h.waiters.nodup cond))).1
  refine ⟨h.queue_woken _ (by decide) (.inr rfl) hnodup hturned hs.woken.queue,
    h.waiters.release _ _ hperm (fun k hk => ?_) fun q => hturned.from_old (by decide),
    h.joiners.congr (joiners_congr (fun q => hturned.same (by decide) (by decide)) hs.joins) fun q =>
      hturned.same (by decide) (by decide),
    h.arrivals.congr (fun k => ?_) fun q => hturned.same (by decide) (by decide)⟩
  · simp [Executor.waiters, TreeMap.getD_eq_getD_getElem?, hafter k, hk]
  · rw [Executor.arrivals, Executor.arrivals, hs.barriers]

/-- The end of a thread: its joiners can run, then it leaves. -/
theorem exit_turned (h : Placed e) (ht : e.state.stateOf t = some .runnable) {s : ExecutionState}
    (hwoken : Woken .runnable (e.joinRecord.getD t []) e.state s) :
    e.joiners t = e.joinRecord.getD t [] ∧ Turned .joinBlocked .runnable (e.joinRecord.getD t []) e.state s ∧
      Turned .runnable .terminated [t] s (s.swapOutThread t .terminated) := by
  have hlist : e.joiners t = e.joinRecord.getD t [] := by simp [Executor.joiners, ht]
  have hturned : Turned .joinBlocked .runnable (e.joinRecord.getD t []) e.state s :=
    ⟨fun q hq => (h.joiners.mem q).mpr ⟨t, by rwa [hlist]⟩, hwoken.stateOf⟩
  have hself : t ∉ e.joinRecord.getD t [] := by
    intro hmem
    have hblocked := hturned.before t hmem
    rw [ht] at hblocked
    cases hblocked
  have ht' : s.stateOf t = some .runnable := by rw [hturned.stateOf_of_notMem hself, ht]
  exact ⟨hlist, hturned, turned_of_modify ht' fun _ => swapOut_stateOf t .terminated⟩

theorem exit_placed (h : Placed e) (ht : e.state.stateOf t = some .runnable) (hs : e.executeExit t = some (o, e')) :
    Placed e' := by
  obtain ⟨s, -, rfl, hwoken, -, -, -⟩ := executeExit_eq hs
  obtain ⟨hlist, hturned, hend⟩ := exit_turned h ht hwoken
  have hsame : ∀ {st : ThreadState}, st ≠ .joinBlocked → st ≠ .runnable → st ≠ .terminated →
      ∀ q, (s.swapOutThread t .terminated).stateOf q = some st ↔ e.state.stateOf q = some st :=
    fun hjoin hrun hterm q => (hend.same (Ne.symm hrun) (Ne.symm hterm)).trans (hturned.same (Ne.symm hjoin) (Ne.symm hrun))
  refine ⟨?_, h.waiters.congr (fun _ => rfl) (hsame (by decide) (by decide) (by decide)),
    h.joiners.release t (e.joinRecord.getD t []) ?_ (fun k hk => ?_) fun q => ?_,
    h.arrivals.congr (fun _ => rfl) (hsame (by decide) (by decide) (by decide))⟩
  · -- the joiners come to the queue before the thread leaves it
    have hnodup : (e.joinRecord.getD t []).Nodup := hlist ▸ h.joiners.nodup t
    have hqueue := h.queue_woken { e with state := s } (by decide) (.inl rfl) hnodup hturned hwoken.queue
    refine hqueue.erase fun q => ?_
    simp only [Schedulable]
    by_cases hq : q = t
    · subst hq
      rw [hend.stateOf_of_mem List.mem_cons_self]
      simp
    · rw [hend.stateOf_of_notMem (by simpa using hq)]
      simp [hq]
  · rw [hlist]
    simp [Executor.joiners, hend.stateOf_of_mem List.mem_cons_self]
  · have hterm : (s.swapOutThread t .terminated).stateOf k = some .terminated ↔ e.state.stateOf k = some .terminated := by
      rw [hend.stateOf_of_notMem (by simpa using hk)]
      exact hturned.same (by decide) (by decide)
    simp only [Executor.joiners, hterm]
  · exact (hend.same (by decide) (by decide)).trans (hturned.from_old (by decide))

/-- A change of the managers that leaves every list as it is. -/
theorem Placed.of_managers (h : Placed e) (hstate : e'.state = e.state) (hjoin : e'.joinRecord = e.joinRecord)
    (hwaiters : ∀ k, e'.waiters k = e.waiters k) (harrivals : ∀ k, e'.arrivals k = e.arrivals k) : Placed e' := by
  refine ⟨?_, h.waiters.congr hwaiters fun q => by rw [hstate],
    h.joiners.congr (joiners_congr (fun q => by rw [hstate]) hjoin) fun q => by rw [hstate],
    h.arrivals.congr harrivals fun q => by rw [hstate]⟩
  rw [hstate]
  exact h.queue.congr fun q => by rw [Schedulable, Schedulable, hstate]

theorem lock_placed (h : Placed e) (ht : e.state.stateOf t = some .runnable) {mutex : Nat}
    (hs : e.executePThreadMutexLock t mutex = some (o, e')) : Placed e' := by
  obtain ⟨isBlocked, m, -, -, rfl⟩ := executePThreadMutexLock_eq hs
  cases isBlocked with
  | false => exact h.of_managers rfl rfl (fun _ => rfl) fun _ => rfl
  | true =>
    have hturned : Turned .runnable .mutexBlocked [t] e.state
        (e.state.modify t fun thread => { thread with threadState := .mutexBlocked }) :=
      turned_of_modify ht fun q => stateOf_modify (g := fun _ => .mutexBlocked) fun _ => rfl
    exact h.turn_schedulable (.inl rfl) (.inr rfl) hturned rfl rfl rfl rfl

/-- A thread at a barrier: the barrier is not known, or the thread waits for others, or all the others go on. -/
theorem barrierWait_eq (h : Placed e) (ht : e.state.stateOf t = some .runnable) (barrier : Nat) :
    (e.arrivals barrier = [] ∧ e.executePThreadBarrierWait t barrier = ({}, e)) ∨
      ∃ state, e.barrierManager.barrierPool[barrier]? = some state ∧
      e.arrivals barrier = state.blockedList ∧
      (e.executePThreadBarrierWait t barrier = ({ blocked := true },
          { e with
            barrierManager :=
              ⟨e.barrierManager.barrierPool.insert barrier
                { state with current := state.current + 1, blockedList := state.blockedList ++ [t] }⟩
            state := e.state.swapOutThread t .barrierBlocked }) ∨
        ∃ s, Woken .runnable state.blockedList e.state s ∧ (∀ q k, s.clock q k = e.state.clock q k) ∧
          Turned .barrierBlocked .runnable state.blockedList e.state s ∧
          e.executePThreadBarrierWait t barrier = ({ released := state.blockedList },
            { e with
              barrierManager :=
                ⟨e.barrierManager.barrierPool.insert barrier { state with current := 0, blockedList := [] }⟩
              state := s })) := by
  unfold executePThreadBarrierWait BarrierManager.wait
  cases hbarrier : e.barrierManager.barrierPool[barrier]? with
  | none => exact .inl ⟨by simp [Executor.arrivals, TreeMap.getD_eq_getD_getElem?, hbarrier], rfl⟩
  | some state =>
    have hlist : e.arrivals barrier = state.blockedList := by
      simp [Executor.arrivals, TreeMap.getD_eq_getD_getElem?, hbarrier]
    refine .inr ⟨state, rfl, hlist, ?_⟩
    by_cases hfull : state.current + 1 = state.count
    swap
    · exact .inl (by simp only [hfull, if_false])
    have hself : t ∉ state.blockedList := by
      intro hmem
      have hblocked := (h.arrivals.mem t).mpr ⟨barrier, by rwa [hlist]⟩
      rw [ht] at hblocked
      cases hblocked
    have hreleased : (state.blockedList ++ [t]).filter (· ≠ t) = state.blockedList := by
      have hothers : state.blockedList.filter (· ≠ t) = state.blockedList := by
        refine List.filter_eq_self.mpr fun q hq => ?_
        have hne : q ≠ t := fun heq => hself (heq ▸ hq)
        simpa using hne
      rw [List.filter_append, hothers]
      simp
    obtain ⟨hwoken, hclock⟩ := foldl_swapIn_woken .runnable state.blockedList e.state
    refine .inr ⟨_, hwoken, hclock, ⟨fun q hq => ?_, hwoken.stateOf⟩, by simp only [hfull, if_true, hreleased]⟩
    exact (h.arrivals.mem q).mpr ⟨barrier, by rwa [hlist]⟩

theorem barrierWait_placed (h : Placed e) (ht : e.state.stateOf t = some .runnable) (barrier : Nat) :
    Placed (e.executePThreadBarrierWait t barrier).2 := by
  obtain ⟨-, heq⟩ | ⟨state, -, hlist, heq | ⟨s, hwoken, -, hturned, heq⟩⟩ := barrierWait_eq h ht barrier
  · rw [heq]
    exact h
  · rw [heq]
    have hturned := swapOut_turned ht .barrierBlocked
    refine ⟨h.queue_swapOut (by decide) hturned rfl,
      h.waiters.congr (fun _ => rfl) fun q => hturned.same (by decide) (by decide),
      h.joiners.congr (joiners_congr (fun q => hturned.same (by decide) (by decide)) rfl) fun q =>
        hturned.same (by decide) (by decide),
      h.arrivals.park barrier (t := t) (by simp [ht]) ?_ (fun k hk => ?_) fun q => ?_⟩
    · rw [hlist]
      simp [Executor.arrivals]
    · simp [Executor.arrivals, TreeMap.getD_insert, Ne.symm hk]
    · exact hturned.to_new.trans (by rw [List.mem_singleton])
  · rw [heq]
    have hnodup : state.blockedList.Nodup := hlist ▸ h.arrivals.nodup barrier
    refine ⟨h.queue_woken _ (by decide) (.inl rfl) hnodup hturned hwoken.queue,
      h.waiters.congr (fun _ => rfl) fun q => hturned.same (by decide) (by decide),
      h.joiners.congr (joiners_congr (fun q => hturned.same (by decide) (by decide)) rfl) fun q =>
        hturned.same (by decide) (by decide),
      h.arrivals.release barrier state.blockedList ?_ (fun k hk => ?_) fun q =>
        hturned.from_old (by decide)⟩
    · rw [hlist]
      simp [Executor.arrivals]
    · simp [Executor.arrivals, TreeMap.getD_insert, Ne.symm hk]

theorem executeInstruction_placed (h : Placed e) (ht : e.state.stateOf t = some .runnable) {inst : Inst} {choice : Choice}
    (hs : e.executeInstruction t inst choice = some (o, e')) : Placed e' := by
  unfold executeInstruction at hs
  split at hs
  next => exact create_placed h hs
  next => exact join_placed h ht hs
  next => exact wait_placed h ht hs
  next =>
    obtain ⟨_, _, hsignalled⟩ := executePThreadCondSignal_eq hs
    exact signalled_placed h hsignalled
  next =>
    obtain ⟨_, _, hsignalled⟩ := executePThreadCondBroadcast_eq hs
    exact signalled_placed h hsignalled
  next => exact lock_placed h ht hs
  next =>
    obtain ⟨m, -, -, rfl⟩ := executePThreadMutexUnlock_eq hs
    exact h.of_managers rfl rfl (fun _ => rfl) fun _ => rfl
  next barrier count =>
    obtain ⟨state, hstate, -, rfl⟩ := executePThreadBarrierInit_eq hs
    refine h.of_managers rfl rfl (fun _ => rfl) fun k => ?_
    simp only [Executor.arrivals, TreeMap.getD_insert, Std.compare_eq_iff_eq]
    split
    next hk => rw [← hk, TreeMap.getD_eq_getD_getElem?, hstate]; rfl
    next => rfl
  next barrier =>
    have hplaced := barrierWait_placed h ht barrier
    rwa [Option.some.inj hs] at hplaced
  next => exact exit_placed h ht hs
  next =>
    obtain ⟨-, rfl⟩ := Prod.mk.inj (Option.some.inj hs)
    exact h

theorem createSpecialElement_placed (h : Placed e) (element : SpecialElement) : Placed (e.createSpecialElement element) := by
  cases element with
  | mutex => exact h.of_managers rfl rfl (fun _ => rfl) fun _ => rfl
  | cond address =>
    refine h.of_managers rfl rfl (fun k => ?_) fun _ => rfl
    simp only [Executor.waiters, createSpecialElement, CondManager.addCondition, TreeMap.getD_insertIfNew]
    split
    next hk => rw [TreeMap.getD_eq_fallback (by rw [← Std.compare_eq_iff_eq.mp hk.1]; exact hk.2)]
    next => rfl
  | barrier address =>
    refine h.of_managers rfl rfl (fun _ => rfl) fun k => ?_
    simp only [Executor.arrivals, createSpecialElement, BarrierManager.addBarrier, TreeMap.getD_insertIfNew]
    split
    next hk => rw [TreeMap.getD_eq_fallback (by rw [← Std.compare_eq_iff_eq.mp hk.1]; exact hk.2)]
    next => rfl

end Executor
end CapTaint
