import CapTaint.PSOListener

/-! # Recorded traces

A listener is recorded when a run of executed instructions has filled it. Every invariant of a trace is an
induction over `Recorded`; `executeInstruction_appended` says once what an instruction adds to the threads. -/

namespace CapTaint
open Std

/-- The listeners that a run fills. -/
inductive Recorded : PSOListener → Prop
  | start (inits : List String) : Recorded { trace := inits.foldl Trace.insertGlobalVariableInitializer {} }
  | execute {l : PSOListener} (threadId : Nat) (ki : KInstruction) : Recorded l →
      Recorded (l.executeInstruction threadId ki)
  | create {l : PSOListener} (newThreadId : Nat) : Recorded l → Recorded (l.createThread newThreadId)

theorem record_recorded (inits : List String) (steps : List (Nat × KInstruction × Option Nat)) :
    Recorded (PSOListener.record inits steps) := by
  unfold PSOListener.record
  generalize hl : ({ trace := inits.foldl Trace.insertGlobalVariableInitializer {} } : PSOListener) = l
  have h : Recorded l := hl ▸ .start inits
  clear hl
  induction steps generalizing l with
  | nil => exact h
  | cons step steps ih =>
    obtain ⟨threadId, ki, created⟩ := step
    refine ih _ ?_
    cases created with
    | none => exact .execute threadId ki h
    | some newThreadId => exact .create newThreadId (.execute threadId ki h)

/-! ### Tables of lists -/

section Tables
variable {κ α : Type} [Ord κ] [TransOrd κ] [LawfulEqOrd κ] [DecidableEq κ] {table : TreeMap κ (List α)}

theorem getElem?_pushAt {key k : κ} {item : α} :
    (pushAt table key item)[k]? = if k = key then some (table.getD key [] ++ [item]) else table[k]? := by
  unfold pushAt
  rw [TreeMap.getElem?_insert]
  by_cases h : key = k
  · simp [h]
  · have hk : ¬k = key := fun e => h e.symm
    simp [hk, h]

theorem getD_pushAt {key k : κ} {item : α} :
    (pushAt table key item).getD k [] = table.getD k [] ++ (if k = key then [item] else []) := by
  rw [TreeMap.getD_eq_getD_getElem?, getElem?_pushAt, TreeMap.getD_eq_getD_getElem?]
  by_cases h : k = key
  · simp [h, TreeMap.getD_eq_getD_getElem?]
  · simp [h, TreeMap.getD_eq_getD_getElem?]

omit [LawfulEqOrd κ] [DecidableEq κ] in
theorem getD_of_getElem? {k : κ} {l : List α} (h : table[k]? = some l) : table.getD k [] = l := by
  rw [TreeMap.getD_eq_getD_getElem?, h]
  rfl

omit [DecidableEq κ] in
/-- What holds of all lists of a table holds of what is looked up in it. -/
theorem forall_getD {P : List α → Prop} (hnil : P []) (h : ∀ p ∈ table.toList, P p.2) (k : κ) :
    P (table.getD k []) := by
  rw [TreeMap.getD_eq_getD_getElem?]
  cases hget : table[k]? with
  | none => exact hnil
  | some l => exact h (k, l) (TreeMap.mem_toList_iff_getElem?_eq_some.mpr hget)

end Tables

/-- The invariants of a table of recorded items: each entry satisfies `P` with its key, two entries of a key are
    related by `S` in their order, and a key of the table has an entry. -/
structure EntryTable {α : Type} (table : TreeMap String (List α)) (P : String → α → Prop) (S : α → α → Prop) :
    Prop where
  entry : ∀ {key : String} {x : α}, x ∈ table.getD key [] → P key x
  pairwise : ∀ key, (table.getD key []).Pairwise S
  nonempty : ∀ {key : String} {l : List α}, table[key]? = some l → l ≠ []

section EntryTable
variable {α : Type} {table : TreeMap String (List α)} {P P' : String → α → Prop} {S : α → α → Prop}

theorem EntryTable.empty : EntryTable (∅ : TreeMap String (List α)) P S where
  entry h := by simp at h
  pairwise key := by simp
  nonempty h := by simp at h

theorem EntryTable.mono (h : EntryTable table P S) (hP : ∀ {key : String} {x : α}, P key x → P' key x) :
    EntryTable table P' S where
  entry hx := hP (h.entry hx)
  pairwise := h.pairwise
  nonempty := h.nonempty

theorem EntryTable.push {key : String} {item : α} (h : EntryTable table P S)
    (hP : ∀ {k : String} {x : α}, P k x → P' k x) (hitem : P' key item) (hS : ∀ {x : α}, P key x → S x item) :
    EntryTable (pushAt table key item) P' S where
  entry {k x} hx := by
    rw [getD_pushAt, List.mem_append] at hx
    rcases hx with hx | hx
    · exact hP (h.entry hx)
    · split at hx
      · rename_i hk
        exact hk ▸ List.mem_singleton.mp hx ▸ hitem
      · cases hx
  pairwise k := by
    rw [getD_pushAt, List.pairwise_append]
    refine ⟨h.pairwise k, ?_, ?_⟩
    · split
      · exact List.pairwise_singleton _ _
      · exact .nil
    · intro x hx y hy
      split at hy
      · rename_i hk
        exact List.mem_singleton.mp hy ▸ hS (hk ▸ h.entry hx)
      · cases hy
  nonempty {k l} hl := by
    rw [getElem?_pushAt] at hl
    split at hl
    · cases hl
      simp
    · exact h.nonempty hl

end EntryTable

/-! ### What one instruction appends -/

/-- The event of an instruction, its virtual events, and the tables before the events are appended. -/
def PSOListener.completed (l : PSOListener) (threadId : Nat) (ki : KInstruction) : Event × List Event × PSOListener :=
  let (item, l) := l.createEvent threadId ki.inst (if ki.ignored then .ignore else .normal)
  l.executeOpcode item ki.inst

/-- The event that an instruction writes. -/
def PSOListener.item (l : PSOListener) (threadId : Nat) (ki : KInstruction) : Event := (l.completed threadId ki).1

/-- The virtual events that follow it: the lock at the end of a wait. -/
def backVirtualEvents (threadId nextEventId : Nat) (inst : Inst) : List Event :=
  match inst with
  | .call (.pthreadCondWait _ _) =>
    [{ threadId := threadId, eventId := nextEventId + 1, inst := inst, eventType := .virtual }]
  | _ => []

theorem executeInstruction_eq (l : PSOListener) (threadId : Nat) (ki : KInstruction) :
    l.executeInstruction threadId ki =
      (l.completed threadId ki).2.2.insertItem (l.item threadId ki) (l.completed threadId ki).2.1 := rfl

theorem foldl_insertEvent {trace : Trace} {events : List Event} {threadId : Nat} :
    events.foldl (fun trace event => trace.insertEvent event threadId) trace =
      { trace with eventList := events.foldl (fun list event => pushAt list threadId event) trace.eventList } := by
  induction events generalizing trace with
  | nil => rfl
  | cons event events ih =>
    rw [List.foldl_cons, ih]
    rfl

theorem getD_foldl_pushAt {list : TreeMap Nat (List Event)} {events : List Event} {threadId t : Nat} :
    (events.foldl (fun list event => pushAt list threadId event) list).getD t [] =
      list.getD t [] ++ if t = threadId then events else [] := by
  induction events generalizing list with
  | nil => simp
  | cons event events ih =>
    rw [List.foldl_cons, ih, getD_pushAt]
    by_cases h : t = threadId <;> simp [h]

/-- `r` is the completed `item` with its virtual events, and a listener with the threads of `l`. -/
structure Completed (l : PSOListener) (item : Event) (inst : Inst) (r : Event × List Event × PSOListener) :
    Prop where
  back_eq : r.2.1 = backVirtualEvents item.threadId (l.trace.nextEventId - 1) inst
  threadId_eq : r.1.threadId = item.threadId
  eventId_eq : r.1.eventId = item.eventId
  inst_eq : r.1.inst = item.inst
  eventType_eq : r.1.eventType = item.eventType
  nextEventId_eq : r.2.2.trace.nextEventId = l.trace.nextEventId + r.2.1.length
  eventList_eq : r.2.2.trace.eventList = l.trace.eventList
  path_eq : r.2.2.trace.path = l.trace.path

section Counters
variable {l : PSOListener}

@[simp] theorem getStoreTime_trace {address : Nat} : (l.getStoreTime address).2.trace = l.trace := rfl

@[simp] theorem getLoadTime_trace {address : Nat} : (l.getLoadTime address).2.trace = l.trace := rfl

@[simp] theorem nameAccess_trace {item : Event} {loc : Location} {isStore : Bool} :
    (l.nameAccess item loc isStore).2.trace = l.trace := by
  unfold PSOListener.nameAccess
  cases loc.isGlobal <;> cases isStore <;> rfl

theorem nameAccess_item {item : Event} {loc : Location} {isStore : Bool} :
    (l.nameAccess item loc isStore).1 =
      { item with
        isGlobal := if loc.isGlobal then true else item.isGlobal
        isLocal := if loc.isGlobal then item.isLocal else true
        varName := createVarName loc
        globalVarFullName :=
          if loc.isGlobal then
            createGlobalVarFullName (createVarName loc)
              ((if isStore then l.storeRecord.getD loc.address 0 else l.loadRecord.getD loc.address 0) + 1) isStore
          else item.globalVarFullName } := by
  unfold PSOListener.nameAccess
  cases loc.isGlobal <;> cases isStore <;> rfl

@[simp] theorem nameWrites_trace {countLocal : Bool} {locs : List Location} :
    (l.nameWrites countLocal locs).2.trace = l.trace := by
  induction locs generalizing l with
  | nil => rfl
  | cons loc rest ih =>
    unfold PSOListener.nameWrites
    cases loc.isGlobal <;> cases countLocal <;> simp [ih]

end Counters

section ImplicitWrites
variable {l : PSOListener} {item : Event}

/-- The writes of a call change the write set and nothing else. -/
@[simp] theorem insertImplicitWrites_trace {names : List (Location × String)} :
    (l.insertImplicitWrites item names).trace =
      { l.trace with
        writeSet := names.foldl
          (fun table entry => if entry.1.isGlobal then pushAt table (createVarName entry.1) item else table)
          l.trace.writeSet } := by
  unfold PSOListener.insertImplicitWrites
  induction names generalizing l with
  | nil => rfl
  | cons entry names ih =>
    cases hglobal : entry.1.isGlobal
    · simpa [hglobal] using ih (l := l)
    · simpa [hglobal, Trace.insertWriteSet] using
        ih (l := { l with trace := l.trace.insertWriteSet (createVarName entry.1) item })

@[simp] theorem insertImplicitWrites_lastEvent {names : List (Location × String)} :
    (l.insertImplicitWrites item names).lastEvent = l.lastEvent := rfl

end ImplicitWrites

/-- A call completes the event that it was handed, and only a wait has a virtual event. -/
theorem executeCall_completed {l : PSOListener} {item : Event} {f : Function} (hnext : 0 < l.trace.nextEventId)
    (hinst : item.inst = .call f) : Completed l item (.call f) (l.executeCall item f) := by
  cases f with
  | pthreadCondWait cond mutex =>
    have hid : l.trace.nextEventId - 1 + 1 = l.trace.nextEventId := Nat.sub_add_cancel hnext
    constructor
    case back_eq => simp [PSOListener.executeCall, PSOListener.createEvent, backVirtualEvents, hinst, hid]
    all_goals rfl
  | pthreadCreate thread => constructor <;> simp [PSOListener.executeCall, nameAccess_item, backVirtualEvents]
  | makeTaint loc => constructor <;> simp only [PSOListener.executeCall] <;> cases loc.isGlobal <;> rfl
  | strcpy dest length => constructor <;> simp [PSOListener.executeCall, backVirtualEvents]
  | fillBuffer name fields => constructor <;> simp [PSOListener.executeCall, backVirtualEvents]
  | _ => constructor <;> rfl

/-- A load or a store completes its event and may enter it into one of the two access tables. -/
theorem nameAccess_completed {l l' : PSOListener} {item : Event} {inst : Inst} {loc : Location} {isStore : Bool}
    (hback : backVirtualEvents item.threadId (l.trace.nextEventId - 1) inst = [])
    (hnext : l'.trace.nextEventId = l.trace.nextEventId) (hlist : l'.trace.eventList = l.trace.eventList)
    (hpath : l'.trace.path = l.trace.path) :
    Completed l item inst ((l.nameAccess item loc isStore).1, [], l') := by
  constructor
  case back_eq => exact hback.symm
  case nextEventId_eq => exact hnext
  case eventList_eq => exact hlist
  case path_eq => exact hpath
  all_goals simp [nameAccess_item]

theorem executeOpcode_completed {l : PSOListener} {item : Event} {inst : Inst} (hnext : 0 < l.trace.nextEventId)
    (hinst : item.inst = inst) : Completed l item inst (l.executeOpcode item inst) := by
  cases inst with
  | load loc isPointerTy =>
    unfold PSOListener.executeOpcode
    dsimp only
    split
    · exact nameAccess_completed rfl (by simp [Trace.insertReadSet]) (by simp [Trace.insertReadSet])
        (by simp [Trace.insertReadSet])
    · exact nameAccess_completed rfl (by simp) (by simp) (by simp)
  | store loc isPointerTy =>
    unfold PSOListener.executeOpcode
    dsimp only
    split
    · exact nameAccess_completed rfl (by simp [Trace.insertWriteSet]) (by simp [Trace.insertWriteSet])
        (by simp [Trace.insertWriteSet])
    · exact nameAccess_completed rfl (by simp) (by simp) (by simp)
  | call f => exact executeCall_completed hnext hinst
  | _ => constructor <;> rfl

/-- The instructions that are entered into a table other than those of reads and writes. -/
def Inst.synchronizes : Inst → Bool
  | .call (.pthreadJoin _) | .call (.pthreadCondWait _ _) | .call (.pthreadCondSignal _)
  | .call (.pthreadCondBroadcast _) | .call (.pthreadMutexLock _) | .call (.pthreadMutexUnlock _)
  | .call (.pthreadBarrierWait _) => true
  | _ => false

/-- The other instructions change the tables of reads and writes at most. -/
theorem executeOpcode_trace {l : PSOListener} {item : Event} {inst : Inst} (hsync : inst.synchronizes = false) :
    ∃ reads writes, (l.executeOpcode item inst).2.2.trace = { l.trace with readSet := reads, writeSet := writes } := by
  cases inst with
  | load loc isPointerTy =>
    unfold PSOListener.executeOpcode
    dsimp only
    split
    · exact ⟨_, l.trace.writeSet, by rw [nameAccess_trace]; rfl⟩
    · exact ⟨l.trace.readSet, l.trace.writeSet, nameAccess_trace⟩
  | store loc isPointerTy =>
    unfold PSOListener.executeOpcode
    dsimp only
    split
    · exact ⟨l.trace.readSet, _, by rw [nameAccess_trace]; rfl⟩
    · exact ⟨l.trace.readSet, l.trace.writeSet, nameAccess_trace⟩
  | call f =>
    cases f with
    | pthreadCreate thread => exact ⟨l.trace.readSet, l.trace.writeSet, nameAccess_trace⟩
    | makeTaint loc =>
      refine ⟨l.trace.readSet, l.trace.writeSet, ?_⟩
      unfold PSOListener.executeOpcode PSOListener.executeCall
      dsimp only
      split <;> rfl
    | strcpy dest length =>
      exact ⟨l.trace.readSet, (l.executeCall item (.strcpy dest length)).2.2.trace.writeSet, by
        simp [PSOListener.executeOpcode, PSOListener.executeCall]⟩
    | fillBuffer name fields =>
      exact ⟨l.trace.readSet, (l.executeCall item (.fillBuffer name fields)).2.2.trace.writeSet, by
        simp [PSOListener.executeOpcode, PSOListener.executeCall]⟩
    | pthreadBarrierInit barrier count => exact ⟨l.trace.readSet, l.trace.writeSet, rfl⟩
    | other name => exact ⟨l.trace.readSet, l.trace.writeSet, rfl⟩
    | _ => cases hsync
  | _ => exact ⟨l.trace.readSet, l.trace.writeSet, rfl⟩

section Step
variable {l : PSOListener} {threadId : Nat} {ki : KInstruction}

theorem completed_spec : Completed (l.createEvent threadId ki.inst (if ki.ignored then .ignore else .normal)).2
    (l.createEvent threadId ki.inst (if ki.ignored then .ignore else .normal)).1 ki.inst (l.completed threadId ki) :=
  executeOpcode_completed (Nat.succ_pos _) rfl

theorem item_threadId : (l.item threadId ki).threadId = threadId := completed_spec.threadId_eq

theorem item_eventId : (l.item threadId ki).eventId = l.trace.nextEventId := completed_spec.eventId_eq

theorem item_inst : (l.item threadId ki).inst = ki.inst := completed_spec.inst_eq

theorem completed_back :
    (l.completed threadId ki).2.1 = backVirtualEvents threadId l.trace.nextEventId ki.inst :=
  completed_spec.back_eq

theorem executeInstruction_trace : (l.executeInstruction threadId ki).trace =
    { (l.completed threadId ki).2.2.trace with
      eventList := (l.item threadId ki :: backVirtualEvents threadId l.trace.nextEventId ki.inst).foldl
        (fun list event => pushAt list threadId event) l.trace.eventList
      path := l.trace.path ++ [l.item threadId ki] } := by
  rw [executeInstruction_eq, completed_back]
  have hlist : (l.completed threadId ki).2.2.trace.eventList = l.trace.eventList := completed_spec.eventList_eq
  have hpath : (l.completed threadId ki).2.2.trace.path = l.trace.path := completed_spec.path_eq
  simp only [PSOListener.insertItem, foldl_insertEvent]
  simp only [Trace.insertPath, Trace.insertEvent, item_threadId, hlist, hpath, List.foldl_cons]

theorem executeInstruction_nextEventId : (l.executeInstruction threadId ki).trace.nextEventId =
    l.trace.nextEventId + 1 + (backVirtualEvents threadId l.trace.nextEventId ki.inst).length := by
  rw [executeInstruction_trace, ← completed_back]
  exact completed_spec.nextEventId_eq

theorem executeInstruction_thread {t : Nat} : (l.executeInstruction threadId ki).trace.thread t =
    l.trace.thread t ++
      if t = threadId then l.item threadId ki :: backVirtualEvents threadId l.trace.nextEventId ki.inst else [] := by
  rw [Trace.thread, executeInstruction_trace, getD_foldl_pushAt]
  rfl

/-- An instruction that is entered into no other table leaves all but the threads, the path, the reads and the
    writes as they are. -/
theorem executeInstruction_frame (hsync : ki.inst.synchronizes = false) :
    (l.executeInstruction threadId ki).trace.createThreadPoint = l.trace.createThreadPoint ∧
    (l.executeInstruction threadId ki).trace.joinThreadPoint = l.trace.joinThreadPoint ∧
    (l.executeInstruction threadId ki).trace.allLockUnlock = l.trace.allLockUnlock ∧
    (l.executeInstruction threadId ki).trace.allWait = l.trace.allWait ∧
    (l.executeInstruction threadId ki).trace.allSignal = l.trace.allSignal ∧
    (l.executeInstruction threadId ki).trace.allBarrier = l.trace.allBarrier := by
  obtain ⟨reads, writes, hframe⟩ := @executeOpcode_trace
    (l.createEvent threadId ki.inst (if ki.ignored then .ignore else .normal)).2
    (l.createEvent threadId ki.inst (if ki.ignored then .ignore else .normal)).1 ki.inst hsync
  have hcompleted : (l.completed threadId ki).2.2.trace = _ := hframe
  rw [executeInstruction_trace, hcompleted]
  exact ⟨rfl, rfl, rfl, rfl, rfl, rfl⟩

/-- The tables of locks, waits, signals and barriers: a wait is also an unlock and a later lock. -/
theorem executeInstruction_tables :
    (l.executeInstruction threadId ki).trace.allLockUnlock =
      (match ki.inst with
      | .call (.pthreadMutexLock mutex) =>
        (l.trace.insertLockOrUnlock threadId (createVarName mutex) (l.item threadId ki) true).allLockUnlock
      | .call (.pthreadMutexUnlock mutex) =>
        (l.trace.insertLockOrUnlock threadId (createVarName mutex) (l.item threadId ki) false).allLockUnlock
      | .call (.pthreadCondWait _ mutex) =>
        ((l.trace.insertLockOrUnlock threadId (createVarName mutex) (l.item threadId ki) false).insertLockOrUnlock threadId
          (createVarName mutex)
          { threadId := threadId, eventId := l.trace.nextEventId + 1, inst := ki.inst, eventType := .virtual }
          true).allLockUnlock
      | _ => l.trace.allLockUnlock) ∧
    (l.executeInstruction threadId ki).trace.allWait =
      (match ki.inst with
      | .call (.pthreadCondWait cond _) =>
        pushAt l.trace.allWait (createVarName cond)
          { wait := l.item threadId ki
            lockByWait :=
              { threadId := threadId, eventId := l.trace.nextEventId + 1, inst := ki.inst, eventType := .virtual } }
      | _ => l.trace.allWait) ∧
    (l.executeInstruction threadId ki).trace.allSignal =
      (match ki.inst with
      | .call (.pthreadCondSignal cond) | .call (.pthreadCondBroadcast cond) =>
        pushAt l.trace.allSignal (createVarName cond) (l.item threadId ki)
      | _ => l.trace.allSignal) ∧
    (l.executeInstruction threadId ki).trace.allBarrier =
      match ki.inst with
      | .call (.pthreadBarrierWait barrier) =>
        pushAt l.trace.allBarrier (createBarrierName barrier (l.barrierRecord.getD barrier {}).releasedCount)
          (l.item threadId ki)
      | _ => l.trace.allBarrier := by
  obtain ⟨inst, ignored⟩ := ki
  cases inst with
  | call f =>
    cases f with
    | pthreadJoin | pthreadCondWait | pthreadCondSignal | pthreadCondBroadcast | pthreadMutexLock | pthreadMutexUnlock
    | pthreadBarrierWait =>
      rw [executeInstruction_trace]
      exact ⟨rfl, rfl, rfl, rfl⟩
    | _ => exact (executeInstruction_frame rfl).2.2
  | _ => exact (executeInstruction_frame rfl).2.2

theorem mem_backVirtualEvents {nextEventId : Nat} {inst : Inst} {event : Event}
    (h : event ∈ backVirtualEvents threadId nextEventId inst) :
    ∃ cond mutex, inst = .call (.pthreadCondWait cond mutex) ∧
      event = { threadId := threadId, eventId := nextEventId + 1, inst := inst, eventType := .virtual } := by
  unfold backVirtualEvents at h
  split at h
  · exact ⟨_, _, rfl, List.mem_singleton.mp h⟩
  · cases h

/-- An event of the new listener is an old one, the event of the instruction, or the virtual lock behind it. -/
theorem mem_executeInstruction_thread {t : Nat} {event : Event}
    (h : event ∈ (l.executeInstruction threadId ki).trace.thread t) :
    event ∈ l.trace.thread t ∨ t = threadId ∧ (event = l.item threadId ki ∨
      event ∈ backVirtualEvents threadId l.trace.nextEventId ki.inst) := by
  rw [executeInstruction_thread, List.mem_append] at h
  rcases h with h | h
  · exact .inl h
  · split at h
    · exact .inr ⟨‹_›, List.mem_cons.mp h⟩
    · cases h

theorem mem_thread_mono {t : Nat} {event : Event} (h : event ∈ l.trace.thread t) :
    event ∈ (l.executeInstruction threadId ki).trace.thread t := by
  rw [executeInstruction_thread]
  exact List.mem_append_left _ h

theorem item_mem_thread : l.item threadId ki ∈ (l.executeInstruction threadId ki).trace.thread threadId := by
  rw [executeInstruction_thread, if_pos rfl]
  exact List.mem_append_right _ List.mem_cons_self

end Step

/-! ### Threads of a recorded trace -/

/-- The events of each thread carry its id and ascending numbers, all below the next one; no number is used
    twice, and no entry of `eventList` is empty. -/
structure Trace.WellFormed (trace : Trace) : Prop where
  threadId_eq : ∀ {t : Nat} {event : Event}, event ∈ trace.thread t → event.threadId = t
  ascending : ∀ t, (trace.thread t).Pairwise fun a b => a.eventId < b.eventId
  eventId_lt : ∀ {t : Nat} {event : Event}, event ∈ trace.thread t → event.eventId < trace.nextEventId
  unique : ∀ {t u : Nat} {a b : Event}, a ∈ trace.thread t → b ∈ trace.thread u → a.eventId = b.eventId → t = u
  nonempty : ∀ {t : Nat} {events : List Event}, trace.eventList[t]? = some events → events ≠ []

theorem foldl_insertGlobalVariableInitializer {inits : List String} {trace : Trace} :
    ∃ set, inits.foldl Trace.insertGlobalVariableInitializer trace = { trace with globalVariableInitializer := set } := by
  induction inits generalizing trace with
  | nil => exact ⟨trace.globalVariableInitializer, rfl⟩
  | cons name inits ih =>
    obtain ⟨set, hset⟩ := @ih (trace.insertGlobalVariableInitializer name)
    exact ⟨set, by rw [List.foldl_cons, hset]; rfl⟩

theorem createThread_eq {l : PSOListener} {newThreadId : Nat} :
    ∃ points, l.createThread newThreadId = { l with trace := { l.trace with createThreadPoint := points } } := by
  unfold PSOListener.createThread
  split
  · exact ⟨l.trace.createThreadPoint, rfl⟩
  · exact ⟨_, rfl⟩

theorem nonempty_foldl_pushAt {list : TreeMap Nat (List Event)} {events : List Event} {threadId : Nat}
    (h : ∀ {t : Nat} {es : List Event}, list[t]? = some es → es ≠ []) {t : Nat} {es : List Event}
    (hes : (events.foldl (fun list event => pushAt list threadId event) list)[t]? = some es) : es ≠ [] := by
  induction events generalizing list with
  | nil => exact h hes
  | cons event events ih =>
    refine ih (fun {u us} hus => ?_) hes
    rw [getElem?_pushAt] at hus
    split at hus
    · cases hus
      simp
    · exact h hus

theorem recorded_wellFormed {l : PSOListener} (h : Recorded l) : l.trace.WellFormed := by
  induction h with
  | start inits =>
    obtain ⟨set, hset⟩ := @foldl_insertGlobalVariableInitializer inits {}
    rw [hset]
    have hthread : ∀ t, ({ globalVariableInitializer := set } : Trace).thread t = [] := fun t => rfl
    exact {
      threadId_eq := fun hmem => by rw [hthread] at hmem; cases hmem
      ascending := fun t => by rw [hthread]; exact .nil
      eventId_lt := fun hmem => by rw [hthread] at hmem; cases hmem
      unique := fun hmem => by rw [hthread] at hmem; cases hmem
      nonempty := fun hget => by simp at hget }
  | @create l newThreadId hl ih =>
    obtain ⟨points, hpoints⟩ := @createThread_eq l newThreadId
    rw [hpoints]
    exact { ih with }
  | @execute l threadId ki hl ih =>
    have hnext := @executeInstruction_nextEventId l threadId ki
    -- the numbers of the new events, all of one thread
    have hnew : ∀ {t : Nat} {event : Event}, event ∈ (l.executeInstruction threadId ki).trace.thread t →
        event ∈ l.trace.thread t ∨ t = threadId ∧ event.threadId = threadId ∧
          l.trace.nextEventId ≤ event.eventId ∧ event.eventId < (l.executeInstruction threadId ki).trace.nextEventId := by
      intro t event hmem
      rcases mem_executeInstruction_thread hmem with hold | ⟨ht, rfl | hback⟩
      · exact .inl hold
      · refine .inr ⟨ht, item_threadId, ?_, ?_⟩
        · exact item_eventId.ge
        · rw [hnext, item_eventId]
          omega
      · obtain ⟨cond, mutex, hinst, rfl⟩ := mem_backVirtualEvents hback
        have hlen : (backVirtualEvents threadId l.trace.nextEventId ki.inst).length = 1 := by rw [hinst]; rfl
        exact .inr ⟨ht, rfl, Nat.le_succ _, by rw [hnext, hlen]; exact Nat.lt_succ_self _⟩
    constructor
    case threadId_eq =>
      intro t event hmem
      rcases hnew hmem with hold | ⟨ht, htid, -, -⟩
      · exact ih.threadId_eq hold
      · exact htid.trans ht.symm
    case ascending =>
      intro t
      rw [executeInstruction_thread]
      refine List.pairwise_append.mpr ⟨ih.ascending t, ?_, ?_⟩
      · split
        · refine List.pairwise_cons.mpr ⟨?_, ?_⟩
          · intro event hmem
            obtain ⟨cond, mutex, -, rfl⟩ := mem_backVirtualEvents hmem
            rw [item_eventId]
            exact Nat.lt_succ_self _
          · unfold backVirtualEvents
            split
            · exact List.pairwise_singleton _ _
            · exact .nil
        · exact .nil
      · intro a ha b hb
        have hlt := ih.eventId_lt ha
        split at hb
        · rcases List.mem_cons.mp hb with rfl | hb
          · rw [item_eventId]
            exact hlt
          · obtain ⟨cond, mutex, -, rfl⟩ := mem_backVirtualEvents hb
            exact Nat.lt_succ_of_lt hlt
        · cases hb
    case eventId_lt =>
      intro t event hmem
      rcases hnew hmem with hold | ⟨-, -, -, hlt⟩
      · have := ih.eventId_lt hold
        omega
      · exact hlt
    case unique =>
      intro t u a b ha hb heq
      rcases hnew ha with hoa | ⟨hta, -, hga, -⟩ <;> rcases hnew hb with hob | ⟨htb, -, hgb, -⟩
      · exact ih.unique hoa hob heq
      · have := ih.eventId_lt hoa
        omega
      · have := ih.eventId_lt hob
        omega
      · exact hta.trans htb.symm
    case nonempty =>
      intro t events hget
      rw [executeInstruction_trace] at hget
      exact nonempty_foldl_pushAt ih.nonempty hget

section WellFormed
variable {trace : Trace} (wf : trace.WellFormed)

theorem mem_threads {events : List Event} : events ∈ trace.threads ↔ ∃ t : Nat, trace.eventList[t]? = some events := by
  unfold Trace.threads
  rw [List.mem_map]
  constructor
  · rintro ⟨⟨t, es⟩, hmem, rfl⟩
    exact ⟨t, TreeMap.mem_toList_iff_getElem?_eq_some.mp hmem⟩
  · rintro ⟨t, hget⟩
    exact ⟨(t, events), TreeMap.mem_toList_iff_getElem?_eq_some.mpr hget, rfl⟩

theorem mem_threads_flatten {event : Event} : event ∈ trace.threads.flatten ↔ ∃ t, event ∈ trace.thread t := by
  rw [List.mem_flatten]
  constructor
  · rintro ⟨events, hevents, hmem⟩
    obtain ⟨t, hget⟩ := mem_threads.mp hevents
    exact ⟨t, by rwa [Trace.thread, getD_of_getElem? hget]⟩
  · rintro ⟨t, hmem⟩
    unfold Trace.thread at hmem
    rw [TreeMap.getD_eq_getD_getElem?] at hmem
    cases hget : trace.eventList[t]? with
    | none => rw [hget] at hmem; cases hmem
    | some events => exact ⟨events, mem_threads.mpr ⟨t, hget⟩, by rwa [hget] at hmem⟩

include wf in
/-- Two events of a trace with one number are one event. -/
theorem Trace.WellFormed.event_eq {t u : Nat} {a b : Event} (ha : a ∈ trace.thread t) (hb : b ∈ trace.thread u)
    (heq : a.eventId = b.eventId) : a = b := by
  have htu := wf.unique ha hb heq
  subst htu
  have hnodup : ((trace.thread t).map (·.eventId)).Nodup :=
    List.pairwise_map.mpr ((wf.ascending t).imp Nat.ne_of_lt)
  exact List.inj_on_of_nodup_map hnodup ha hb heq

include wf in
theorem Trace.WellFormed.mem_of_threadId {event : Event} (h : event ∈ trace.threads.flatten) :
    event ∈ trace.thread event.threadId := by
  obtain ⟨t, ht⟩ := mem_threads_flatten.mp h
  rwa [wf.threadId_eq ht]

end WellFormed

end CapTaint
