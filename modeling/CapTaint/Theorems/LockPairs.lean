import CapTaint.Theorems.Locks
import CapTaint.Theorems.Generations

/-! # The pairs of locks and unlocks

Each unlock is looked for the newest pair of its thread. It closes the newest open one, if the thread has locked the mutex
and has not locked it again before it was unlocked. -/

namespace CapTaint
open Std

variable {l : PSOListener} {threadId : Nat} {event : Event} {pairs rest : List LockPair} {lp : LockPair} {mutex : String}

/-- The mutex that an instruction unlocks. -/
def Inst.unlocks : Inst → Option Location
  | .call (.pthreadMutexUnlock mutex) | .call (.pthreadCondWait _ mutex) => some mutex
  | _ => none

/-! ### The pair of an unlock -/

/-- The pair is one of the thread and has no unlock. -/
def LockPair.isOpen (threadId : Nat) (lp : LockPair) : Bool := lp.threadId == threadId && lp.unlockEvent.isNone

/-- The newest pair of the thread. -/
def lastPair (threadId : Nat) : List LockPair → Option LockPair
  | [] => none
  | lp :: rest => (lastPair threadId rest).or (if lp.threadId = threadId then some lp else none)

/-- What an unlock is for: the newest open pair of the thread gets the event. -/
def closeLatest (threadId : Nat) (event : Event) : List LockPair → List LockPair
  | [] => []
  | lp :: rest =>
    if rest.any (·.isOpen threadId) then lp :: closeLatest threadId event rest
    else if lp.isOpen threadId then { lp with unlockEvent := some event } :: rest
    else lp :: rest

theorem lastPair_isSome : (lastPair threadId pairs).isSome = true ↔ ∃ lp ∈ pairs, lp.threadId = threadId := by
  induction pairs with
  | nil => simp [lastPair]
  | cons lp rest ih =>
    rw [lastPair, Option.isSome_or, Bool.or_eq_true, ih, List.exists_mem_cons_iff, or_comm]
    exact or_congr_left (by by_cases h : lp.threadId = threadId <;> simp [h])

theorem any_threadId : rest.any (·.threadId == threadId) = (lastPair threadId rest).isSome :=
  Bool.eq_iff_iff.mpr (by rw [lastPair_isSome]; simp)

theorem lastPair_cons (lp : LockPair) (rest : List LockPair) : lastPair threadId (lp :: rest) =
    if rest.any (·.threadId == threadId) then lastPair threadId rest else if lp.threadId = threadId then some lp else none := by
  rw [any_threadId, lastPair]
  cases lastPair threadId rest <;> rfl

theorem lastPair_mem (h : lastPair threadId pairs = some lp) : lp ∈ pairs ∧ lp.threadId = threadId := by
  induction pairs with
  | nil => cases h
  | cons first rest ih =>
    rw [lastPair_cons] at h
    split at h
    case isTrue => exact (ih h).imp_left (List.mem_cons_of_mem first)
    case isFalse =>
      obtain ⟨htid, rfl⟩ := Option.ite_none_right_eq_some.mp h |>.imp_right Option.some.inj
      exact ⟨List.mem_cons_self, htid⟩

/-- A closed pair is left as it is, whatever pairs there are before it. -/
theorem setUnlock_of_closed (h : lastPair threadId pairs = some lp) (hclosed : lp.unlockEvent.isSome = true) :
    Trace.setUnlock threadId event pairs = pairs := by
  induction pairs with
  | nil => rfl
  | cons first rest ih =>
    rw [lastPair_cons] at h
    rw [Trace.setUnlock]
    split at h
    case isTrue hany => rw [if_pos hany, ih h]
    case isFalse hany =>
      obtain ⟨-, rfl⟩ := Option.ite_none_right_eq_some.mp h |>.imp_right Option.some.inj
      rw [if_neg hany, if_neg (by simp [Option.isSome_iff_ne_none.mp hclosed])]

theorem setUnlock_of_open (h : lastPair threadId pairs = some lp) (hopen : lp.unlockEvent = none) :
    Trace.setUnlock threadId event pairs = closeLatest threadId event pairs := by
  induction pairs with
  | nil => rfl
  | cons first rest ih =>
    rw [lastPair_cons] at h
    rw [Trace.setUnlock, closeLatest]
    split at h
    case isTrue hany =>
      obtain ⟨hmem, htid⟩ := lastPair_mem h
      have hopens : rest.any (·.isOpen threadId) = true :=
        List.any_eq_true.mpr ⟨lp, hmem, by simp [LockPair.isOpen, htid, hopen]⟩
      rw [if_pos hany, if_pos hopens, ih h]
    case isFalse hany =>
      obtain ⟨htid, rfl⟩ := Option.ite_none_right_eq_some.mp h |>.imp_right Option.some.inj
      have hopens : ¬rest.any (·.isOpen threadId) = true := fun hopens => by
        obtain ⟨lp, hmem, hlp⟩ := List.any_eq_true.mp hopens
        exact hany (List.any_eq_true.mpr ⟨lp, hmem, (Bool.and_eq_true _ _ ▸ hlp).1⟩)
      rw [if_neg hany, if_neg hopens]
      rfl

theorem closeLatest_eq_self_iff : closeLatest threadId event pairs = pairs ↔ pairs.any (·.isOpen threadId) = false := by
  induction pairs with
  | nil => exact iff_of_true rfl rfl
  | cons first rest ih =>
    rw [closeLatest, List.any_cons]
    by_cases hrest : rest.any (·.isOpen threadId) = true
    · rw [if_pos hrest, hrest, Bool.or_true, List.cons.injEq, and_iff_right rfl, ih, hrest]
    · rw [if_neg hrest, Bool.eq_false_iff.mpr hrest, Bool.or_false]
      cases hfirst : first.isOpen threadId with
      | false => simp
      | true =>
        have hnone : first.unlockEvent = none := Option.isNone_iff_eq_none.mp (Bool.and_eq_true _ _ ▸ hfirst).2
        refine iff_of_false (fun heq => ?_) Bool.true_eq_false.mp
        rw [if_pos rfl] at heq
        have hunlock := congrArg LockPair.unlockEvent (List.cons.inj heq).1
        rw [hnone] at hunlock
        cases hunlock

theorem insertUnlock_getD (trace : Trace) : (trace.insertLockOrUnlock threadId mutex event false).allLockUnlock.getD mutex [] =
    Trace.setUnlock threadId event (trace.allLockUnlock.getD mutex []) := by
  unfold Trace.insertLockOrUnlock
  dsimp only
  split
  · cases ‹false = true›
  split
  · rename_i hnone
    rw [TreeMap.getD_eq_getD_getElem?, hnone]
    rfl
  · rename_i pairs hpairs
    rw [TreeMap.getD_insert_self, getD_of_getElem? hpairs]

/-- The pair that the unlock looks for is not missing, and the newest open pair of the thread is closed. -/
def UnlocksLatest (trace : Trace) (threadId : Nat) (mutex : String) (event : Event) : Prop :=
  (trace.allLockUnlock.getD mutex [] ≠ [] → ∃ lp ∈ trace.allLockUnlock.getD mutex [], lp.threadId = threadId) ∧
    (trace.insertLockOrUnlock threadId mutex event false).allLockUnlock.getD mutex [] =
      closeLatest threadId event (trace.allLockUnlock.getD mutex [])

/-- If the mutex has pairs, then the thread has one, and its newest one is open unless all of its pairs are closed. -/
def LocksInTurn (trace : Trace) (threadId : Nat) (mutex : String) : Prop :=
  trace.allLockUnlock.getD mutex [] ≠ [] → ∃ lp, lastPair threadId (trace.allLockUnlock.getD mutex []) = some lp ∧
    (lp.unlockEvent = none ∨ (trace.allLockUnlock.getD mutex []).any (·.isOpen threadId) = false)

theorem unlocksLatest_iff {trace : Trace} : UnlocksLatest trace threadId mutex event ↔ LocksInTurn trace threadId mutex := by
  rw [UnlocksLatest, LocksInTurn, insertUnlock_getD]
  generalize trace.allLockUnlock.getD mutex [] = pairs
  constructor
  · rintro ⟨hpair, heq⟩ hne
    obtain ⟨lp, hlast⟩ := Option.isSome_iff_exists.mp (lastPair_isSome.mpr (hpair hne))
    refine ⟨lp, hlast, or_iff_not_imp_left.mpr fun hclosed => ?_⟩
    rw [setUnlock_of_closed hlast (Option.isSome_iff_ne_none.mpr hclosed)] at heq
    exact closeLatest_eq_self_iff.mp heq.symm
  · intro h
    by_cases hne : pairs = []
    · subst hne
      exact ⟨fun hne => absurd rfl hne, rfl⟩
    · obtain ⟨lp, hlast, hor⟩ := h hne
      refine ⟨fun _ => lastPair_isSome.mp (Option.isSome_iff_exists.mpr ⟨lp, hlast⟩), ?_⟩
      cases hunlock : lp.unlockEvent with
      | none => exact setUnlock_of_open hlast hunlock
      | some unlock =>
        have hclosed := hor.resolve_left (by simp [hunlock])
        rw [setUnlock_of_closed hlast (by simp [hunlock]), closeLatest_eq_self_iff.mpr hclosed]

/-! ### Tables -/

/-- An unlock has a greater number than the lock. -/
def UnlockedLater (table : TreeMap String (List LockPair)) : Prop :=
  ∀ (mutex : String) (k : Nat) (lp : LockPair) (unlock : Event), (table.getD mutex [])[k]? = some lp → lp.unlockEvent = some unlock →
    lp.lockEvent.eventId < unlock.eventId

variable {table : TreeMap String (List LockPair)}

theorem UnlockedLater.lock (h : UnlockedLater table) :
    UnlockedLater (pushAt table mutex { threadId, mutex, lockEvent := event, unlockEvent := none }) := by
  intro mutex' k lp unlock hlp hunlock
  rw [getD_pushAt] at hlp
  split at hlp
  · rcases List.mem_append.mp (List.mem_of_getElem? hlp) with hmem | hmem
    · obtain ⟨k, hk⟩ := List.mem_iff_getElem?.mp hmem
      exact h mutex' k lp unlock hk hunlock
    · obtain rfl := List.mem_singleton.mp hmem
      cases hunlock
  · rw [List.append_nil] at hlp
    exact h mutex' k lp unlock hlp hunlock

theorem UnlockedLater.unlock (h : UnlockedLater table) (hpairs : table[mutex]? = some pairs)
    (hevent : ∀ lp ∈ pairs, lp.lockEvent.eventId < event.eventId) :
    UnlockedLater (table.insert mutex (Trace.setUnlock threadId event pairs)) := by
  have hget : table.getD mutex [] = pairs := getD_of_getElem? hpairs
  have hold : ∀ (k : Nat) (lp : LockPair) (unlock : Event), pairs[k]? = some lp → lp.unlockEvent = some unlock →
      lp.lockEvent.eventId < unlock.eventId := fun k lp unlock hk => h mutex k lp unlock (hget ▸ hk)
  intro mutex' k lp unlock hlp hunlock
  rw [TreeMap.getD_insert] at hlp
  split at hlp
  case isFalse => exact h mutex' k lp unlock hlp hunlock
  case isTrue =>
    rcases @setUnlock_cases threadId event pairs with heq | ⟨k₀, lp₀, hk₀, -, -, heq⟩
    · exact hold k lp unlock (heq ▸ hlp) hunlock
    · rw [heq] at hlp
      rcases List.mem_or_eq_of_mem_set (List.mem_of_getElem? hlp) with hmem | rfl
      · obtain ⟨k, hk⟩ := List.mem_iff_getElem?.mp hmem
        exact hold k lp unlock hk hunlock
      · obtain rfl := Option.some.inj hunlock
        exact hevent lp₀ (List.mem_of_getElem? hk₀)

/-- The locks of a recorded table have numbers below the next one. -/
theorem lockEvent_lt (h : Recorded l) (hpairs : l.trace.allLockUnlock[mutex]? = some pairs) :
    ∀ lp ∈ pairs, lp.lockEvent.eventId < l.trace.nextEventId := by
  intro lp hmem
  obtain ⟨k, hk⟩ := List.mem_iff_getElem?.mp hmem
  have huse := @LockTable.uses _ _ (recorded_lockTable h) _ _ _ true _ ((getD_of_getElem? hpairs).symm ▸ hk) rfl
  exact (recorded_wellFormed h).eventId_lt huse.1

theorem UnlockedLater.insertUnlock (h : UnlockedLater l.trace.allLockUnlock) (hl : Recorded l) (threadId : Nat) (mutex : String)
    (hevent : event.eventId = l.trace.nextEventId) :
    UnlockedLater (l.trace.insertLockOrUnlock threadId mutex event false).allLockUnlock := by
  unfold Trace.insertLockOrUnlock
  dsimp only
  split
  · cases ‹false = true›
  split
  · exact h
  · exact h.unlock ‹_› fun lp hlp => hevent ▸ lockEvent_lt hl ‹_› lp hlp

theorem recorded_unlockedLater (h : Recorded l) : UnlockedLater l.trace.allLockUnlock := by
  induction h with
  | start inits =>
    obtain ⟨set, hset⟩ := @foldl_insertGlobalVariableInitializer inits {}
    rw [hset]
    intro mutex k lp unlock hlp
    simp at hlp
  | @create l newThreadId hl ih =>
    obtain ⟨points, hpoints⟩ := @createThread_eq l newThreadId
    rw [hpoints]
    exact ih
  | @execute l threadId ki hl ih =>
    rw [executeInstruction_tables.1]
    split
    · exact ih.lock
    · exact ih.insertUnlock hl _ _ item_eventId
    · exact (ih.insertUnlock hl _ _ item_eventId).lock
    · exact ih

/-! ### Runs -/

/-- The unlock of each pair is one of its thread after its lock, and no event is the lock or the unlock of two pairs. -/
structure PairsWellFormed (l : PSOListener) : Prop where
  thread : ∀ (mutex : String) (k : Nat) (lp : LockPair) (unlock : Event), (l.trace.allLockUnlock.getD mutex [])[k]? = some lp →
    lp.unlockEvent = some unlock → unlock.threadId = lp.threadId ∧ lp.lockEvent.eventId < unlock.eventId
  unique : ∀ (mutex mutex' : String) (k k' : Nat) (lp lp' : LockPair) (isLock isLock' : Bool) (event : Event),
    (l.trace.allLockUnlock.getD mutex [])[k]? = some lp → lp.Uses isLock event →
    (l.trace.allLockUnlock.getD mutex' [])[k']? = some lp' → lp'.Uses isLock' event → mutex = mutex' ∧ k = k' ∧ isLock = isLock'

theorem recorded_pairsWellFormed (h : Recorded l) : PairsWellFormed l where
  thread mutex k lp unlock hlp hunlock := by
    have huse := @LockTable.uses _ _ (recorded_lockTable h) _ _ _ false _ hlp hunlock
    exact ⟨(recorded_wellFormed h).threadId_eq huse.1, recorded_unlockedLater h mutex k lp unlock hlp hunlock⟩
  unique mutex mutex' k k' lp lp' isLock isLock' event hlp huse hlp' huse' :=
    (recorded_lockTable h).unique hlp huse hlp' huse' rfl

/-- The steps of a run that unlock a mutex meet `P`, each with the listener before it and its event. -/
def EachUnlock (inits : List String) (ignored : Nat → Bool) (P : Trace → Nat → String → Event → Prop) (steps : List ExecStep) : Prop :=
  ∀ before step after mutex, steps = before ++ step :: after → step.inst.unlocks = some mutex →
    P (listenerAfter inits ignored before).trace step.threadId (createVarName mutex)
      ((listenerAfter inits ignored before).item step.threadId ⟨step.inst, ignored before.length⟩)

/-- The pairs are well formed at each time, and each unlock closes the newest open pair of its thread. -/
def LocksPaired (inits : List String) (ignored : Nat → Bool) (steps : List ExecStep) : Prop :=
  (∀ before, before <+: steps → PairsWellFormed (listenerAfter inits ignored before)) ∧
    EachUnlock inits ignored UnlocksLatest steps

theorem locksPaired_iff (inits : List String) (ignored : Nat → Bool) (steps : List ExecStep) :
    LocksPaired inits ignored steps ↔
      EachUnlock inits ignored (fun trace threadId mutex _ => LocksInTurn trace threadId mutex) steps := by
  constructor
  · rintro ⟨-, h⟩ before step after mutex hsplit hunlocks
    exact unlocksLatest_iff.mp (h before step after mutex hsplit hunlocks)
  · intro h
    refine ⟨fun before _ => recorded_pairsWellFormed listenerAfter_recorded, fun before step after mutex hsplit hunlocks => ?_⟩
    exact unlocksLatest_iff.mpr (h before step after mutex hsplit hunlocks)

/-- The main thread locks a mutex, and another one unlocks it. -/
def unlockByOther : List (Nat × Inst) :=
  [(1, .call (.pthreadCreate ⟨2, 16, false⟩)), (1, .call (.pthreadMutexLock ⟨3, 8, true⟩)),
    (2, .call (.pthreadMutexUnlock ⟨3, 8, true⟩))]

theorem not_locksPaired_unlockByOther :
    ∃ steps e, Executor.run (fun _ _ _ _ => True) [.mutex 8] unlockByOther = some (steps, e) ∧
      ¬LocksPaired [] (fun _ => false) steps := by
  have hrun : (Executor.run (fun _ _ _ _ => True) [.mutex 8] unlockByOther).map (·.1) =
      some [⟨1, .call (.pthreadCreate ⟨2, 16, false⟩), { created := some 2 }, none⟩,
        ⟨1, .call (.pthreadMutexLock ⟨3, 8, true⟩), {}, none⟩, ⟨2, .call (.pthreadMutexUnlock ⟨3, 8, true⟩), {}, none⟩] := rfl
  obtain ⟨⟨steps, e⟩, hsteps, rfl⟩ := Option.map_eq_some_iff.mp hrun
  refine ⟨_, e, hsteps, fun ⟨_, hunlock⟩ => ?_⟩
  obtain ⟨hpair, -⟩ := hunlock _ _ [] ⟨3, 8, true⟩ (List.append_cons [_, _] _ []).symm rfl
  revert hpair
  decide +kernel

end CapTaint
