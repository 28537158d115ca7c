import CapTaint.Theorems.Cluster
import CapTaint.Encode.Synchronize

/-! # Lock pairs

The lock formula excludes two pairs of different threads from each other exactly when the earlier one in the
list of the mutex has an unlock. For the converse a schedule runs the pairs of each mutex one after the other;
it needs that the lock and unlock events of all pairs have different names. -/

namespace CapTaint
open Std Smt

/-! ### The lock table of a recorded trace -/

/-- `event` is the lock (`isLock`) or the unlock of the pair. -/
def LockPair.Uses (lp : LockPair) (isLock : Bool) (event : Event) : Prop :=
  if isLock then lp.lockEvent = event else lp.unlockEvent = some event

/-- The events of the table satisfy `R` with the thread of their pair, and no event is used twice. -/
structure LockTable (table : TreeMap String (List LockPair)) (R : Nat → Event → Prop) : Prop where
  uses : ∀ {mutex : String} {k : Nat} {lp : LockPair} {isLock : Bool} {event : Event},
    (table.getD mutex [])[k]? = some lp → lp.Uses isLock event → R lp.threadId event
  unique : ∀ {mutex mutex' : String} {k k' : Nat} {lp lp' : LockPair} {isLock isLock' : Bool} {event event' : Event},
    (table.getD mutex [])[k]? = some lp → lp.Uses isLock event →
    (table.getD mutex' [])[k']? = some lp' → lp'.Uses isLock' event' → event.eventId = event'.eventId →
    mutex = mutex' ∧ k = k' ∧ isLock = isLock'

/-- An unlock completes one pair, or none. -/
theorem setUnlock_cases {threadId : Nat} {event : Event} {pairs : List LockPair} :
    Trace.setUnlock threadId event pairs = pairs ∨
    ∃ k lp, pairs[k]? = some lp ∧ lp.threadId = threadId ∧ lp.unlockEvent = none ∧
      Trace.setUnlock threadId event pairs = pairs.set k { lp with unlockEvent := some event } := by
  induction pairs with
  | nil => exact .inl rfl
  | cons lp rest ih =>
    unfold Trace.setUnlock
    split
    · rcases ih with heq | ⟨k, lp', hk, htid, hnone, heq⟩
      · exact .inl (by rw [heq])
      · exact .inr ⟨k + 1, lp', hk, htid, hnone, by rw [heq]; rfl⟩
    · split
      · rename_i hopen
        rw [Bool.and_eq_true, beq_iff_eq, Option.isNone_iff_eq_none] at hopen
        exact .inr ⟨0, lp, rfl, hopen.1, hopen.2, rfl⟩
      · exact .inl rfl

section LockTable
variable {table : TreeMap String (List LockPair)} {R R' : Nat → Event → Prop}

theorem LockTable.mono (h : LockTable table R) (hR : ∀ {t : Nat} {event : Event}, R t event → R' t event) :
    LockTable table R' where
  uses hlp huse := hR (h.uses hlp huse)
  unique := h.unique

/-- A table whose uses are old ones or one use of a fresh event keeps its events apart. -/
theorem LockTable.extend {table' : TreeMap String (List LockPair)} {fresh : Event} {mutex₀ : String} {k₀ : Nat}
    {isLock₀ : Bool} (h : LockTable table R) (hR : ∀ {t : Nat} {event : Event}, R t event → R' t event)
    (hfresh : ∀ {t : Nat} {event : Event}, R t event → event.eventId ≠ fresh.eventId)
    (hnew : ∀ {mutex : String} {k : Nat} {lp' : LockPair} {isLock : Bool} {event : Event},
      (table'.getD mutex [])[k]? = some lp' → lp'.Uses isLock event →
      (∃ lp, (table.getD mutex [])[k]? = some lp ∧ lp.threadId = lp'.threadId ∧ lp.Uses isLock event) ∨
      (event = fresh ∧ R' lp'.threadId fresh ∧ mutex = mutex₀ ∧ k = k₀ ∧ isLock = isLock₀)) : LockTable table' R' where
  uses hlp huse := by
    rcases hnew hlp huse with ⟨lp, hold, htid, huse⟩ | ⟨rfl, hR', -⟩
    · exact htid ▸ hR (h.uses hold huse)
    · exact hR'
  unique hlp huse hlp' huse' heq := by
    rcases hnew hlp huse with ⟨lp, hold, htid, huse⟩ | ⟨rfl, -, hm, hk, hl⟩ <;>
      rcases hnew hlp' huse' with ⟨lp', hold', htid', huse'⟩ | ⟨rfl, -, hm', hk', hl'⟩
    · exact h.unique hold huse hold' huse' heq
    · exact absurd heq (hfresh (h.uses hold huse))
    · exact absurd heq.symm (hfresh (h.uses hold' huse'))
    · exact ⟨hm.trans hm'.symm, hk.trans hk'.symm, hl.trans hl'.symm⟩

theorem LockTable.lock {threadId : Nat} {mutex : String} {event : Event} (h : LockTable table R)
    (hR : ∀ {t : Nat} {event : Event}, R t event → R' t event) (hevent : R' threadId event)
    (hfresh : ∀ {t : Nat} {event' : Event}, R t event' → event'.eventId ≠ event.eventId) :
    LockTable (pushAt table mutex
      { threadId := threadId, mutex := mutex, lockEvent := event, unlockEvent := none }) R' := by
  refine @LockTable.extend table R R' _ event mutex (table.getD mutex []).length true h hR hfresh ?_
  intro mutex' k lp isLock used hlp huse
  rw [getD_pushAt] at hlp
  split at hlp
  · rename_i hm
    subst hm
    rcases Nat.lt_trichotomy k (table.getD mutex' []).length with hlt | rfl | hgt
    · rw [List.getElem?_append_left hlt] at hlp
      exact .inl ⟨lp, hlp, rfl, huse⟩
    · rw [List.getElem?_concat_length, Option.some.injEq] at hlp
      subst hlp
      cases isLock with
      | false => cases huse
      | true => exact .inr ⟨Eq.symm huse, hevent, rfl, rfl, rfl⟩
    · rw [List.getElem?_eq_none (by simp; omega)] at hlp
      cases hlp
  · rw [List.append_nil] at hlp
    exact .inl ⟨lp, hlp, rfl, huse⟩

theorem LockTable.unlock {threadId : Nat} {mutex : String} {event : Event} {pairs : List LockPair}
    (h : LockTable table R) (hpairs : table[mutex]? = some pairs)
    (hR : ∀ {t : Nat} {event : Event}, R t event → R' t event) (hevent : R' threadId event)
    (hfresh : ∀ {t : Nat} {event' : Event}, R t event' → event'.eventId ≠ event.eventId) :
    LockTable (table.insert mutex (Trace.setUnlock threadId event pairs)) R' := by
  have hget : table.getD mutex [] = pairs := getD_of_getElem? hpairs
  rcases @setUnlock_cases threadId event pairs with heq | ⟨k₀, lp₀, hk₀, htid, hnone, heq⟩
  · refine @LockTable.extend table R R' _ event mutex 0 true h hR hfresh ?_
    intro mutex' k lp isLock used hlp huse
    rw [heq, TreeMap.getD_insert] at hlp
    split at hlp
    · rename_i hm
      obtain rfl : mutex = mutex' := by simpa using hm
      exact .inl ⟨lp, hget ▸ hlp, rfl, huse⟩
    · exact .inl ⟨lp, hlp, rfl, huse⟩
  · refine @LockTable.extend table R R' _ event mutex k₀ false h hR hfresh ?_
    intro mutex' k lp isLock used hlp huse
    rw [heq, TreeMap.getD_insert] at hlp
    split at hlp
    · rename_i hm
      obtain rfl : mutex = mutex' := by simpa using hm
      rw [List.getElem?_set] at hlp
      split at hlp
      · rename_i hk
        subst hk
        split at hlp
        · cases hlp
          cases isLock with
          | true => exact .inl ⟨lp₀, hget ▸ hk₀, rfl, huse⟩
          | false =>
            obtain rfl : event = used := Option.some.inj huse
            exact .inr ⟨rfl, htid ▸ hevent, rfl, rfl, rfl⟩
        · cases hlp
      · exact .inl ⟨lp, hget ▸ hlp, rfl, huse⟩
    · exact .inl ⟨lp, hlp, rfl, huse⟩

end LockTable

/-- A recorded thread operation. -/
def ThreadOpOf (l : PSOListener) (t : Nat) (event : Event) : Prop :=
  event ∈ l.trace.thread t ∧ event.instOpType = .threadOp

section Step
variable {l : PSOListener} {threadId : Nat} {ki : KInstruction}

theorem ThreadOpOf.execute {t : Nat} {event : Event} (h : ThreadOpOf l t event) :
    ThreadOpOf (l.executeInstruction threadId ki) t event :=
  ⟨mem_thread_mono h.1, h.2⟩

/-- The calls that synchronize, other than by creating a thread, are thread operations. -/
theorem instOpType_of_synchronizes {event : Event} (hglobal : event.isGlobal = false)
    (hsync : event.inst.synchronizes = true) : event.instOpType = .threadOp := by
  unfold Event.instOpType
  rw [hglobal, if_neg Bool.false_ne_true]
  cases hinst : event.inst with
  | call f =>
    rw [hinst] at hsync
    have hpthread : "pthread".toList.isPrefixOf f.name.toList = true := by
      cases f with
      | pthreadJoin | pthreadCondWait | pthreadCondSignal | pthreadCondBroadcast | pthreadMutexLock | pthreadMutexUnlock
      | pthreadBarrierWait =>
        simp only [Function.name]
        decide
      | _ => cases hsync
    simp only [Inst.calledFunction, hpthread, if_true]
  | _ => rw [hinst] at hsync; cases hsync

theorem item_isGlobal (hsync : ki.inst.synchronizes = true) : (l.item threadId ki).isGlobal = false := by
  obtain ⟨inst, ignored⟩ := ki
  cases inst with
  | call f =>
    cases f with
    | pthreadJoin | pthreadCondWait | pthreadCondSignal | pthreadCondBroadcast | pthreadMutexLock | pthreadMutexUnlock
    | pthreadBarrierWait => rfl
    | _ => cases hsync
  | _ => cases hsync

theorem threadOpOf_item (hsync : ki.inst.synchronizes = true) :
    ThreadOpOf (l.executeInstruction threadId ki) threadId (l.item threadId ki) :=
  ⟨item_mem_thread, instOpType_of_synchronizes (item_isGlobal hsync) (by rw [item_inst]; exact hsync)⟩

/-- The numbers from the next one on are fresh. -/
theorem ThreadOpOf.eventId_ne (h : Recorded l) {t : Nat} {event fresh : Event} (hop : ThreadOpOf l t event)
    (hfresh : l.trace.nextEventId ≤ fresh.eventId) : event.eventId ≠ fresh.eventId := by
  have := (recorded_wellFormed h).eventId_lt hop.1
  omega

theorem threadOpOf_back {cond mutex : Location} (hinst : ki.inst = .call (.pthreadCondWait cond mutex)) :
    ThreadOpOf (l.executeInstruction threadId ki) threadId
      { threadId := threadId, eventId := l.trace.nextEventId + 1, inst := ki.inst, eventType := .virtual } := by
  constructor
  · rw [executeInstruction_thread, if_pos rfl, hinst]
    simp [backVirtualEvents]
  · exact instOpType_of_synchronizes rfl (by rw [hinst]; rfl)

end Step

theorem recorded_lockTable {l : PSOListener} (h : Recorded l) : LockTable l.trace.allLockUnlock (ThreadOpOf l) := by
  induction h with
  | start inits =>
    obtain ⟨set, hset⟩ := @foldl_insertGlobalVariableInitializer inits {}
    rw [hset]
    constructor
    · intro mutex k lp isLock event hlp
      simp at hlp
    · intro mutex mutex' k k' lp lp' isLock isLock' event event' hlp
      simp at hlp
  | @create l newThreadId hl ih =>
    obtain ⟨points, hpoints⟩ := @createThread_eq l newThreadId
    rw [hpoints]
    exact ih.mono fun h => h
  | @execute l threadId ki hl ih =>
    have hmono : ∀ {t : Nat} {event : Event}, ThreadOpOf l t event →
        ThreadOpOf (l.executeInstruction threadId ki) t event := ThreadOpOf.execute
    rw [executeInstruction_tables.1]
    split
    · rename_i mutex hinst
      refine ih.lock hmono (threadOpOf_item (by rw [hinst]; rfl)) fun hop => ?_
      exact hop.eventId_ne hl item_eventId.ge
    · rename_i mutex hinst
      unfold Trace.insertLockOrUnlock
      dsimp only
      split
      · cases ‹false = true›
      split
      · exact ih.mono hmono
      · refine ih.unlock ‹_› hmono (threadOpOf_item (by rw [hinst]; rfl)) fun hop => ?_
        exact hop.eventId_ne hl item_eventId.ge
    · rename_i cond mutex hinst
      -- the wait unlocks first; its event is known when the virtual lock is entered
      have hitem := @threadOpOf_item l threadId ki (by rw [hinst]; rfl)
      have hunlock : LockTable
          (l.trace.insertLockOrUnlock threadId (createVarName mutex) (l.item threadId ki) false).allLockUnlock
          fun t event => ThreadOpOf l t event ∨ t = threadId ∧ event = l.item threadId ki := by
        unfold Trace.insertLockOrUnlock
        dsimp only
        split
        · cases ‹false = true›
        split
        · exact ih.mono .inl
        · exact ih.unlock ‹_› .inl (.inr ⟨rfl, rfl⟩) fun hop => hop.eventId_ne hl item_eventId.ge
      refine hunlock.lock ?_ (threadOpOf_back hinst) ?_
      · rintro t event (hop | ⟨rfl, rfl⟩)
        · exact hmono hop
        · exact hitem
      · rintro t event (hop | ⟨rfl, rfl⟩)
        · exact hop.eventId_ne hl (Nat.le_succ _)
        · rw [item_eventId]
          exact (Nat.lt_succ_self _).ne
    · exact ih.mono hmono

/-! ### Mutual exclusion -/

namespace Encode
variable {V : Type}

/-- Two pairs do not overlap: one is released before the other is taken. A pair that is never released comes
    last, so two such pairs overlap. -/
def Excluded (trace : Trace) (σ : Assignment V) (one two : LockPair) : Prop :=
  let position := fun event => σ.int (trace.eventName event)
  match one.unlockEvent, two.unlockEvent with
  | some oneUnlock, some twoUnlock =>
    position oneUnlock < position two.lockEvent ∨ position twoUnlock < position one.lockEvent
  | some oneUnlock, none => position oneUnlock < position two.lockEvent
  | none, some twoUnlock => position twoUnlock < position one.lockEvent
  | none, none => False

instance (trace : Trace) (σ : Assignment V) (one two : LockPair) : Decidable (Excluded trace σ one two) := by
  unfold Excluded
  cases one.unlockEvent <;> cases two.unlockEvent <;> exact inferInstance

/-- No schedule that satisfies the lock formula lets two threads overlap in a mutex. -/
def MutualExclusion (V : Type) (trace : Trace) : Prop :=
  ∀ σ : Assignment V, Satisfies σ (lockFormula trace) → ∀ mutex,
    (trace.allLockUnlock.getD mutex []).Pairwise fun one two => one.threadId ≠ two.threadId → Excluded trace σ one two

theorem satisfies_lockOrders {trace : Trace} {σ : Assignment V} {pairs : List LockPair} :
    Satisfies σ (lockOrders trace pairs) ↔ pairs.Pairwise fun one two =>
      one.unlockEvent ≠ none → one.threadId ≠ two.threadId → Excluded trace σ one two := by
  induction pairs with
  | nil => simp [lockOrders]
  | cons one rest ih =>
    rw [lockOrders, satisfies_append, List.pairwise_cons, ih]
    refine and_congr_left fun _ => ?_
    cases hone : one.unlockEvent with
    | none => simp
    | some oneUnlock =>
      rw [satisfies_flatMap]
      refine forall₂_congr fun two _ => ?_
      unfold twinLockPairOrder Excluded
      rw [hone]
      by_cases htid : one.threadId = two.threadId
      · simp [htid]
      · cases two.unlockEvent <;> simp [htid, order]

theorem satisfies_lockFormula {trace : Trace} {σ : Assignment V} : Satisfies σ (lockFormula trace) ↔
    ∀ mutex, (trace.allLockUnlock.getD mutex []).Pairwise fun one two =>
      one.unlockEvent ≠ none → one.threadId ≠ two.threadId → Excluded trace σ one two := by
  unfold lockFormula
  rw [satisfies_flatMap]
  constructor
  · intro h mutex
    exact forall_getD .nil (fun entry hentry => satisfies_lockOrders.mp (h entry hentry)) mutex
  · rintro h ⟨mutex, pairs⟩ hmem
    have hpairs := h mutex
    rw [getD_of_getElem? (TreeMap.mem_toList_iff_getElem?_eq_some.mp hmem)] at hpairs
    exact satisfies_lockOrders.mpr hpairs

/-- The schedule that runs the pairs of each mutex one after the other, in the order of their locks. -/
theorem exists_sequential [Inhabited V] {l : PSOListener} (h : Recorded l) :
    ∃ σ : Assignment V, ∀ {mutex : String} {k : Nat} {lp : LockPair},
      (l.trace.allLockUnlock.getD mutex [])[k]? = some lp →
      σ.int (l.trace.eventName lp.lockEvent) = 2 * k ∧
      ∀ unlock, lp.unlockEvent = some unlock → σ.int (l.trace.eventName unlock) = 2 * k + 1 := by
  have wf := recorded_wellFormed h
  have table := recorded_lockTable h
  obtain ⟨f, hf⟩ := @exists_values String Int _
    (fun name v => ∃ (mutex : String) (k : Nat) (lp : LockPair) (isLock : Bool) (event : Event),
      (l.trace.allLockUnlock.getD mutex [])[k]? = some lp ∧
      lp.Uses isLock event ∧ l.trace.eventName event = name ∧ v = 2 * (k : Int) + if isLock then 0 else 1) (by
    rintro name v v' ⟨mutex, k, lp, isLock, event, hlp, huse, hname, rfl⟩
      ⟨mutex', k', lp', isLock', event', hlp', huse', hname', rfl⟩
    obtain ⟨hmem, hop⟩ := table.uses hlp huse
    obtain ⟨hmem', hop'⟩ := table.uses hlp' huse'
    have heq := wf.eventName_inj hmem hmem' (by rw [hop]; decide) (by rw [hop']; decide) (hname.trans hname'.symm)
    obtain ⟨-, rfl, rfl⟩ := table.unique hlp huse hlp' huse' (heq ▸ rfl)
    rfl)
  refine ⟨{ int := f, bool := fun _ => false, value := fun _ => default }, fun {mutex k lp} hlp => ⟨?_, ?_⟩⟩
  · exact hf ⟨mutex, k, lp, true, lp.lockEvent, hlp, rfl, rfl, by simp⟩
  · exact fun unlock hunlock => hf ⟨mutex, k, lp, false, unlock, hlp, hunlock, rfl, by simp⟩

/-- The lock formula of a recorded trace excludes overlaps exactly when no pair without an unlock is followed by
    a pair of another thread: the loop skips such a pair as the first of two. -/
theorem mutualExclusion_iff [Inhabited V] {l : PSOListener} (h : Recorded l) : MutualExclusion V l.trace ↔
    ∀ mutex, (l.trace.allLockUnlock.getD mutex []).Pairwise fun one two =>
      one.unlockEvent = none → one.threadId = two.threadId := by
  constructor
  · intro hexcl mutex
    obtain ⟨σ, hσ⟩ := @exists_sequential V _ l h
    have hsat : Satisfies σ (lockFormula l.trace) := by
      rw [satisfies_lockFormula]
      intro mutex
      rw [List.pairwise_iff_getElem]
      intro i j hi hj hij hcomplete htid
      obtain ⟨-, hunlock⟩ := hσ (List.getElem?_eq_getElem hi)
      obtain ⟨hlock, -⟩ := hσ (List.getElem?_eq_getElem hj)
      obtain ⟨oneUnlock, hone⟩ := Option.ne_none_iff_exists'.mp hcomplete
      have hlt : σ.int (l.trace.eventName oneUnlock) <
          σ.int (l.trace.eventName (l.trace.allLockUnlock.getD mutex [])[j].lockEvent) := by
        rw [hunlock oneUnlock hone, hlock]
        omega
      unfold Excluded
      rw [hone]
      cases (l.trace.allLockUnlock.getD mutex [])[j].unlockEvent with
      | none => exact hlt
      | some twoUnlock => exact .inl hlt
    have hall := hexcl σ hsat mutex
    rw [List.pairwise_iff_getElem] at hall ⊢
    intro i j hi hj hij hnone
    by_contra htid
    have hover := hall i j hi hj hij htid
    obtain ⟨hlock, -⟩ := hσ (List.getElem?_eq_getElem hi)
    obtain ⟨-, hunlock⟩ := hσ (List.getElem?_eq_getElem hj)
    unfold Excluded at hover
    rw [hnone] at hover
    cases htwo : (l.trace.allLockUnlock.getD mutex [])[j].unlockEvent with
    | none => rw [htwo] at hover; exact hover
    | some twoUnlock =>
      rw [htwo] at hover
      dsimp only at hover
      rw [hlock, hunlock twoUnlock htwo] at hover
      omega
  · intro hcond σ hσ mutex
    refine ((hcond mutex).and (satisfies_lockFormula.mp hσ mutex)).imp ?_
    rintro one two ⟨hsame, hcomplete⟩ htid
    exact hcomplete (fun hnone => htid (hsame hnone)) htid

/-- A mutex that is handed over: each pair is released before the next lock is asked for. -/
def handoverRun : PSOListener :=
  PSOListener.record []
    [(1, { inst := .call (.pthreadMutexLock ⟨9, 90, true⟩) }, none),
      (1, { inst := .call (.pthreadMutexUnlock ⟨9, 90, true⟩) }, none),
      (2, { inst := .call (.pthreadMutexLock ⟨9, 90, true⟩) }, none),
      (2, { inst := .call (.pthreadMutexUnlock ⟨9, 90, true⟩) }, none)]

theorem mutualExclusion_handoverRun : MutualExclusion Unit handoverRun.trace := by
  refine (mutualExclusion_iff (record_recorded _ _)).mpr (forall_getD .nil ?_)
  decide +kernel

/-- Thread 2 asks for a mutex that thread 1 holds and is still blocked when the run ends; thread 1 takes the
    mutex once more in between. -/
def abandonedRun : PSOListener :=
  PSOListener.record []
    [(1, { inst := .call (.pthreadMutexLock ⟨9, 90, true⟩) }, none),
      (2, { inst := .call (.pthreadMutexLock ⟨9, 90, true⟩) }, none),
      (1, { inst := .call (.pthreadMutexUnlock ⟨9, 90, true⟩) }, none),
      (1, { inst := .call (.pthreadMutexLock ⟨9, 90, true⟩) }, none),
      (1, { inst := .call (.pthreadMutexUnlock ⟨9, 90, true⟩) }, none)]

/-- The lock of thread 2 before the second pair of thread 1. -/
def abandonedSchedule : Assignment Unit where
  int name := if name = "E0" then 1 else if name = "E2" then 2 else if name = "E1" then 3 else
    if name = "E3" then 4 else if name = "E4" then 5 else 0
  bool _ := false
  value _ := ()

theorem not_mutualExclusion_abandonedRun : ¬MutualExclusion Unit abandonedRun.trace := by
  intro h
  have hpairs := h abandonedSchedule (by decide +kernel) "G9_90"
  revert hpairs
  decide +kernel

end Encode

end CapTaint
