import CapTaint.Theorems.Recorded

/-! # Reads and writes of a recorded trace

What the two access tables hold: non-pointer loads and stores of shared memory, and the calls that write shared
memory through their arguments. -/

namespace CapTaint
open Std

section Step
variable {l : PSOListener} {threadId : Nat} {ki : KInstruction}

theorem nameWrites_fst {countLocal : Bool} {locs : List Location} :
    (l.nameWrites countLocal locs).1.map (·.1) = locs := by
  induction locs generalizing l with
  | nil => rfl
  | cons loc rest ih =>
    unfold PSOListener.nameWrites
    cases loc.isGlobal <;> cases countLocal <;> simp [ih]

/-- The entries that a call adds to the write set. -/
def pushGlobals (table : TreeMap String (List Event)) (item : Event) (locs : List Location) : TreeMap String (List Event) :=
  locs.foldl (fun table loc => if loc.isGlobal then pushAt table (createVarName loc) item else table) table

theorem foldl_names {table : TreeMap String (List Event)} {item : Event} {names : List (Location × String)} :
    names.foldl (fun table entry => if entry.1.isGlobal then pushAt table (createVarName entry.1) item else table) table =
      pushGlobals table item (names.map (·.1)) := by
  rw [pushGlobals, List.foldl_map]

/-- The event that an access completes: named, and global exactly when its location is. -/
theorem nameAccess_global {item : Event} {loc : Location} {isStore : Bool} (hglobal : item.isGlobal = false) :
    (l.nameAccess item loc isStore).1.isGlobal = loc.isGlobal ∧
      (l.nameAccess item loc isStore).1.varName = createVarName loc := by
  rw [nameAccess_item]
  cases loc.isGlobal <;> simp [hglobal]

theorem executeOpcode_readSet {item : Event} {inst : Inst} (hglobal : item.isGlobal = false) :
    (l.executeOpcode item inst).2.2.trace.readSet =
      match inst with
      | .load loc isPointerTy =>
        if !isPointerTy && loc.isGlobal then pushAt l.trace.readSet (createVarName loc) (l.executeOpcode item inst).1
        else l.trace.readSet
      | _ => l.trace.readSet := by
  cases inst with
  | load loc isPointerTy =>
    obtain ⟨hg, hname⟩ := @nameAccess_global l item loc false hglobal
    unfold PSOListener.executeOpcode
    dsimp only
    rw [hg]
    split
    · simp only [Trace.insertReadSet, hname, nameAccess_trace]
    · rw [nameAccess_trace]
  | store loc isPointerTy =>
    unfold PSOListener.executeOpcode
    dsimp only
    split <;> simp [Trace.insertWriteSet]
  | call f =>
    cases f with
    | pthreadCreate thread => exact congrArg _ nameAccess_trace
    | makeTaint loc =>
      simp only [PSOListener.executeOpcode, PSOListener.executeCall]
      split <;> rfl
    | strcpy dest length => simp [PSOListener.executeOpcode, PSOListener.executeCall]
    | fillBuffer name fields => simp [PSOListener.executeOpcode, PSOListener.executeCall]
    | _ => rfl
  | _ => rfl

theorem executeOpcode_writeSet {item : Event} {inst : Inst} (hglobal : item.isGlobal = false) :
    (l.executeOpcode item inst).2.2.trace.writeSet =
      match inst with
      | .store loc isPointerTy =>
        if !isPointerTy && loc.isGlobal then pushAt l.trace.writeSet (createVarName loc) (l.executeOpcode item inst).1
        else l.trace.writeSet
      | .call (.strcpy dest length) =>
        pushGlobals l.trace.writeSet (l.executeOpcode item inst).1 (PSOListener.copiedBytes dest length)
      | .call (.fillBuffer _ fields) => pushGlobals l.trace.writeSet (l.executeOpcode item inst).1 fields
      | _ => l.trace.writeSet := by
  cases inst with
  | store loc isPointerTy =>
    obtain ⟨hg, hname⟩ := @nameAccess_global l item loc true hglobal
    unfold PSOListener.executeOpcode
    dsimp only
    rw [hg]
    split
    · simp only [Trace.insertWriteSet, hname, nameAccess_trace]
    · rw [nameAccess_trace]
  | load loc isPointerTy =>
    unfold PSOListener.executeOpcode
    dsimp only
    split <;> simp [Trace.insertReadSet]
  | call f =>
    cases f with
    | pthreadCreate thread => exact congrArg _ nameAccess_trace
    | makeTaint loc =>
      simp only [PSOListener.executeOpcode, PSOListener.executeCall]
      split <;> rfl
    | strcpy dest length | fillBuffer name fields =>
      simp only [PSOListener.executeOpcode, PSOListener.executeCall, insertImplicitWrites_trace, foldl_names,
        nameWrites_fst, nameWrites_trace]
    | _ => rfl
  | _ => rfl

theorem executeInstruction_readSet : (l.executeInstruction threadId ki).trace.readSet =
    match ki.inst with
    | .load loc isPointerTy =>
      if !isPointerTy && loc.isGlobal then pushAt l.trace.readSet (createVarName loc) (l.item threadId ki)
      else l.trace.readSet
    | _ => l.trace.readSet := by
  rw [executeInstruction_trace]
  exact executeOpcode_readSet rfl

theorem executeInstruction_writeSet : (l.executeInstruction threadId ki).trace.writeSet =
    match ki.inst with
    | .store loc isPointerTy =>
      if !isPointerTy && loc.isGlobal then pushAt l.trace.writeSet (createVarName loc) (l.item threadId ki)
      else l.trace.writeSet
    | .call (.strcpy dest length) =>
      pushGlobals l.trace.writeSet (l.item threadId ki) (PSOListener.copiedBytes dest length)
    | .call (.fillBuffer _ fields) => pushGlobals l.trace.writeSet (l.item threadId ki) fields
    | _ => l.trace.writeSet := by
  rw [executeInstruction_trace]
  exact executeOpcode_writeSet rfl

end Step

theorem EntryTable.pushGlobals {table : TreeMap String (List Event)} {P P' : String → Event → Prop}
    {S : Event → Event → Prop} {item : Event} {locs : List Location} (h : EntryTable table P S)
    (hP : ∀ {key : String} {x : Event}, P key x → P' key x)
    (hitem : ∀ loc ∈ locs, loc.isGlobal = true → P' (createVarName loc) item)
    (hS : ∀ {key : String} {x : Event}, P key x → S x item) (hself : S item item) :
    EntryTable (CapTaint.pushGlobals table item locs) P' S := by
  suffices hall : EntryTable (CapTaint.pushGlobals table item locs) (fun key x => P key x ∨ P' key x ∧ x = item) S from
    hall.mono fun hx => hx.elim hP And.left
  have hstart : EntryTable table (fun key x => P key x ∨ P' key x ∧ x = item) S := h.mono .inl
  clear h
  unfold CapTaint.pushGlobals
  induction locs generalizing table with
  | nil => exact hstart
  | cons loc locs ih =>
    rw [List.foldl_cons]
    refine ih (fun loc' hloc' => hitem loc' (List.mem_cons_of_mem _ hloc')) ?_
    split
    · refine hstart.push (fun hx => hx) (.inr ⟨hitem loc List.mem_cons_self ‹_›, rfl⟩) ?_
      rintro x (hx | ⟨-, rfl⟩)
      · exact hS hx
      · exact hself
    · exact hstart

/-- The reads and the writes of a variable are recorded events, in the order of their numbers. -/
theorem recorded_accessTables {l : PSOListener} (h : Recorded l) :
    EntryTable l.trace.readSet (fun _ event => event ∈ l.trace.thread event.threadId) (fun a b => a.eventId < b.eventId) ∧
    EntryTable l.trace.writeSet (fun _ event => event ∈ l.trace.thread event.threadId)
      (fun a b => a.eventId ≤ b.eventId) := by
  induction h with
  | start inits =>
    obtain ⟨set, hset⟩ := @foldl_insertGlobalVariableInitializer inits {}
    rw [hset]
    exact ⟨.empty, .empty⟩
  | @create l newThreadId hl ih =>
    obtain ⟨points, hpoints⟩ := @createThread_eq l newThreadId
    rw [hpoints]
    exact ih
  | @execute l threadId ki hl ih =>
    obtain ⟨hreads, hwrites⟩ := ih
    have hmono : ∀ {event : Event}, event ∈ l.trace.thread event.threadId →
        event ∈ (l.executeInstruction threadId ki).trace.thread event.threadId := mem_thread_mono
    have hitem : l.item threadId ki ∈
        (l.executeInstruction threadId ki).trace.thread (l.item threadId ki).threadId := by
      rw [item_threadId]
      exact item_mem_thread
    have hlt : ∀ {event : Event}, event ∈ l.trace.thread event.threadId → event.eventId < (l.item threadId ki).eventId := by
      intro event hevent
      rw [item_eventId]
      exact (recorded_wellFormed hl).eventId_lt hevent
    constructor
    · rw [executeInstruction_readSet]
      split
      · split
        · exact hreads.push hmono hitem hlt
        · exact hreads.mono hmono
      · exact hreads.mono hmono
    · rw [executeInstruction_writeSet]
      split
      · split
        · exact hwrites.push hmono hitem fun hx => (hlt hx).le
        · exact hwrites.mono hmono
      · exact hwrites.pushGlobals hmono (fun _ _ _ => hitem) (fun hx => (hlt hx).le) le_rfl
      · exact hwrites.pushGlobals hmono (fun _ _ _ => hitem) (fun hx => (hlt hx).le) le_rfl
      · exact hwrites.mono hmono

end CapTaint
