import CapTaint.Theorems.Accesses
import CapTaint.Lib.Names

/-! # Names of shared accesses

A full name tells the location, whether it is read or written, and the number of the access. So no two accesses of a
trace have the same one. -/

namespace CapTaint
open Std

/-! ### Reading a name back -/

theorem createVarName_toList {loc : Location} (h : loc.isGlobal = true) :
    (createVarName loc).toList = 'G' :: ((toString loc.memoryId).toList ++ '_' :: (toString loc.address).toList) := by
  simp [createVarName, h]

theorem createGlobalVarFullName_toList (varName : String) (time : Nat) (isStore : Bool) :
    (createGlobalVarFullName varName time isStore).toList =
      varName.toList ++ (if isStore then 'S' else 'L') :: (toString time).toList := by
  cases isStore <;> simp [createGlobalVarFullName]

/-- A character that is no digit and not one of those of a name does not occur in it. -/
theorem notMem_createVarName {loc : Location} (h : loc.isGlobal = true) {c : Char} (hdigit : c.isDigit = false)
    (hG : c ≠ 'G') (hmark : c ≠ '_') : c ∉ (createVarName loc).toList := by
  rw [createVarName_toList h, List.mem_cons, List.mem_append, List.mem_cons]
  rintro (hc | hc | hc | hc)
  · exact hG hc
  · exact Names.notMem_toString hdigit hc
  · exact hmark hc
  · exact Names.notMem_toString hdigit hc

theorem toString_injective {m n : Nat} (h : (toString m).toList = (toString n).toList) : m = n :=
  Nat.repr_injective (String.toList_inj.mp h)

theorem createVarName_inj {loc loc' : Location} (h : loc.isGlobal = true) (h' : loc'.isGlobal = true)
    (hname : createVarName loc = createVarName loc') : loc = loc' := by
  have hlist := congrArg String.toList hname
  rw [createVarName_toList h, createVarName_toList h'] at hlist
  obtain ⟨hid, haddress⟩ := Names.append_cons_cancel_last (Names.notMem_toString (by decide))
    (Names.notMem_toString (by decide)) (List.cons.inj hlist).2
  obtain ⟨memoryId, address, isGlobal⟩ := loc
  obtain ⟨memoryId', address', isGlobal'⟩ := loc'
  obtain rfl := toString_injective hid
  obtain rfl := toString_injective haddress
  obtain rfl : isGlobal = isGlobal' := h.trans h'.symm
  rfl

theorem createGlobalVarFullName_inj {loc loc' : Location} {time time' : Nat} {isStore isStore' : Bool}
    (h : loc.isGlobal = true) (h' : loc'.isGlobal = true)
    (hname : createGlobalVarFullName (createVarName loc) time isStore =
      createGlobalVarFullName (createVarName loc') time' isStore') : isStore = isStore' ∧ loc = loc' ∧ time = time' := by
  have hlist := congrArg String.toList hname
  rw [createGlobalVarFullName_toList, createGlobalVarFullName_toList] at hlist
  -- only the name of a store has an `S`
  have hS : ∀ {loc : Location} {time : Nat}, loc.isGlobal = true →
      'S' ∉ (createVarName loc).toList ++ 'L' :: (toString time).toList := by
    intro loc time hloc hmem
    rw [List.mem_append, List.mem_cons] at hmem
    rcases hmem with hmem | hmem | hmem
    · exact notMem_createVarName hloc (by decide) (by decide) (by decide) hmem
    · exact absurd hmem (by decide)
    · exact Names.notMem_toString (by decide) hmem
  have hkind : isStore = isStore' := by
    cases isStore with
    | true =>
      cases isStore' with
      | true => rfl
      | false => exact absurd (hlist ▸ List.mem_append_right _ List.mem_cons_self) (hS h')
    | false =>
      cases isStore' with
      | true => exact absurd (hlist.symm ▸ List.mem_append_right _ List.mem_cons_self) (hS h)
      | false => rfl
  subst hkind
  have hdigit : (if isStore then 'S' else 'L').isDigit = false := by cases isStore <;> rfl
  obtain ⟨hvar, htime⟩ := Names.append_cons_cancel_last (Names.notMem_toString hdigit) (Names.notMem_toString hdigit) hlist
  exact ⟨rfl, createVarName_inj h h' (String.toList_inj.mp hvar), toString_injective htime⟩

/-! ### Counters -/

/-- The location of a counted access, and whether it is written. -/
def Inst.access : Inst → Option (Location × Bool)
  | .load loc _ => some (loc, false)
  | .store loc _ => some (loc, true)
  | .call (.pthreadCreate thread) => some (thread, false)
  | _ => none

/-- How often the address has been read, or written. -/
def PSOListener.times (l : PSOListener) (isStore : Bool) (address : Nat) : Nat :=
  (if isStore then l.storeRecord else l.loadRecord).getD address 0

section
variable {l : PSOListener} {threadId : Nat} {ki : KInstruction}

theorem getStoreTime_times (l : PSOListener) (address : Nat) (isStore : Bool) (a : Nat) :
    l.times isStore a ≤ (l.getStoreTime address).2.times isStore a := by
  cases isStore with
  | false => exact Nat.le_refl _
  | true =>
    simp only [PSOListener.getStoreTime, PSOListener.times, if_true, TreeMap.getD_insert, Std.compare_eq_iff_eq]
    split
    next heq =>
      rw [heq]
      exact Nat.le_succ _
    next => exact Nat.le_refl _

theorem nameAccess_times (l : PSOListener) (item : Event) (loc : Location) (store isStore : Bool) (a : Nat) :
    l.times isStore a ≤ (l.nameAccess item loc store).2.times isStore a := by
  unfold PSOListener.nameAccess
  cases loc.isGlobal with
  | false => exact Nat.le_refl _
  | true =>
    cases store with
    | true => exact getStoreTime_times l loc.address isStore a
    | false =>
      cases isStore with
      | true => exact Nat.le_refl _
      | false =>
        simp only [PSOListener.getLoadTime, PSOListener.times, if_true, Bool.false_eq_true, if_false, TreeMap.getD_insert,
          Std.compare_eq_iff_eq]
        split
        next heq =>
          rw [heq]
          exact Nat.le_succ _
        next => exact Nat.le_refl _

theorem nameWrites_times (l : PSOListener) (countLocal : Bool) (locs : List Location) (isStore : Bool) (a : Nat) :
    l.times isStore a ≤ (l.nameWrites countLocal locs).2.times isStore a := by
  induction locs generalizing l with
  | nil => exact Nat.le_refl _
  | cons loc rest ih =>
    unfold PSOListener.nameWrites
    cases loc.isGlobal with
    | true => exact (getStoreTime_times l loc.address isStore a).trans (ih _)
    | false =>
      cases countLocal with
      | true => exact (getStoreTime_times l loc.address isStore a).trans (ih _)
      | false => exact ih _

theorem executeInstruction_times (isStore : Bool) (a : Nat) :
    l.times isStore a ≤ (l.executeInstruction threadId ki).times isStore a := by
  have hopcode : ∀ (l : PSOListener) (item : Event) (inst : Inst),
      l.times isStore a ≤ (l.executeOpcode item inst).2.2.times isStore a := by
    intro l item inst
    cases inst with
    | load loc isPointerTy =>
      refine (nameAccess_times l item loc false isStore a).trans (Nat.le_of_eq ?_)
      simp only [PSOListener.executeOpcode]
      split <;> rfl
    | store loc isPointerTy =>
      refine (nameAccess_times l item loc true isStore a).trans (Nat.le_of_eq ?_)
      simp only [PSOListener.executeOpcode]
      split <;> rfl
    | call f =>
      cases f with
      | pthreadCreate thread => exact nameAccess_times l item thread false isStore a
      | makeTaint loc =>
        refine Nat.le_of_eq ?_
        simp only [PSOListener.executeOpcode, PSOListener.executeCall]
        split <;> rfl
      | strcpy dest length => exact nameWrites_times l false _ isStore a
      | fillBuffer name fields => exact nameWrites_times l true fields isStore a
      | _ => exact Nat.le_refl _
    | _ => exact Nat.le_refl _
  exact hopcode (l.createEvent threadId ki.inst (if ki.ignored then .ignore else .normal)).2 _ _

/-! ### The names of a recorded trace -/

/-- The event is the access number `time` of the shared location. -/
structure SharedAccess (event : Event) (loc : Location) (isStore : Bool) (time : Nat) : Prop where
  access : event.inst.access = some (loc, isStore)
  shared : loc.isGlobal = true
  isGlobal : event.isGlobal = true
  varName : event.varName = createVarName loc
  fullName : event.globalVarFullName = createGlobalVarFullName (createVarName loc) time isStore

theorem nameAccess_shared (l : PSOListener) (item : Event) {loc : Location} {isStore : Bool}
    (haccess : item.inst.access = some (loc, isStore)) (hshared : loc.isGlobal = true) :
    SharedAccess (l.nameAccess item loc isStore).1 loc isStore (l.times isStore loc.address + 1) ∧
      l.times isStore loc.address + 1 ≤ (l.nameAccess item loc isStore).2.times isStore loc.address := by
  constructor
  · rw [nameAccess_item]
    refine ⟨haccess, hshared, by simp [hshared], rfl, ?_⟩
    cases isStore <;> simp [hshared, PSOListener.times]
  · cases isStore <;>
      simp [PSOListener.nameAccess, hshared, PSOListener.getStoreTime, PSOListener.getLoadTime, PSOListener.times]

/-- The opcodes of accesses name their event, and then change the tables only. -/
theorem executeOpcode_access (l : PSOListener) (item : Event) {inst : Inst} {loc : Location} {isStore : Bool}
    (haccess : inst.access = some (loc, isStore)) :
    (l.executeOpcode item inst).1 = (l.nameAccess item loc isStore).1 ∧
      (l.executeOpcode item inst).2.2.times = (l.nameAccess item loc isStore).2.times := by
  cases inst with
  | load loc' isPointerTy | store loc' isPointerTy =>
    obtain ⟨rfl, rfl⟩ := Prod.mk.inj (Option.some.inj haccess)
    refine ⟨rfl, ?_⟩
    simp only [PSOListener.executeOpcode]
    split <;> rfl
  | call f =>
    cases f with
    | pthreadCreate thread =>
      obtain ⟨rfl, rfl⟩ := Prod.mk.inj (Option.some.inj haccess)
      exact ⟨rfl, rfl⟩
    | _ => cases haccess
  | _ => cases haccess

/-- The new access gets the next number, and is counted. -/
theorem item_sharedAccess (l : PSOListener) (threadId : Nat) {loc : Location} {isStore : Bool} (haccess : ki.inst.access = some (loc, isStore))
    (hshared : loc.isGlobal = true) :
    SharedAccess (l.item threadId ki) loc isStore (l.times isStore loc.address + 1) ∧
      l.times isStore loc.address + 1 ≤ (l.executeInstruction threadId ki).times isStore loc.address := by
  let created := l.createEvent threadId ki.inst (if ki.ignored then .ignore else .normal)
  obtain ⟨hitem, htimes⟩ := executeOpcode_access created.2 created.1 haccess
  obtain ⟨hnamed, hcounted⟩ := nameAccess_shared created.2 created.1 haccess hshared
  constructor
  · show SharedAccess (created.2.executeOpcode created.1 ki.inst).1 _ _ _
    rw [hitem]
    exact hnamed
  · show _ ≤ (created.2.executeOpcode created.1 ki.inst).2.2.times isStore loc.address
    rw [htimes]
    exact hcounted

/-- Shared accesses have numbers that are counted, and no two of them the same name. -/
structure AccessNames (l : PSOListener) : Prop where
  isGlobal : ∀ event ∈ l.trace.path, ∀ loc isStore, event.inst.access = some (loc, isStore) →
    event.isGlobal = loc.isGlobal
  named : ∀ event ∈ l.trace.path, ∀ loc isStore, event.inst.access = some (loc, isStore) → loc.isGlobal = true →
    ∃ time, time ≤ l.times isStore loc.address ∧ SharedAccess event loc isStore time
  unique : ∀ event ∈ l.trace.path, ∀ event' ∈ l.trace.path, ∀ {loc loc' isStore isStore' time time'},
    SharedAccess event loc isStore time → SharedAccess event' loc' isStore' time' →
    event.globalVarFullName = event'.globalVarFullName → event = event'

theorem SharedAccess.same {event event' : Event} {loc loc' : Location} {isStore isStore' : Bool} {time time' : Nat}
    (h : SharedAccess event loc isStore time) (h' : SharedAccess event' loc' isStore' time')
    (hname : event.globalVarFullName = event'.globalVarFullName) : isStore = isStore' ∧ loc = loc' ∧ time = time' := by
  rw [h.fullName, h'.fullName] at hname
  exact createGlobalVarFullName_inj h.shared h'.shared hname

theorem AccessNames.execute (h : AccessNames l) : AccessNames (l.executeInstruction threadId ki) := by
  have hpath : (l.executeInstruction threadId ki).trace.path = l.trace.path ++ [l.item threadId ki] := by
    rw [executeInstruction_trace]
  -- an earlier access with the name of the new one would have its number, which is not yet counted
  have hfresh : ∀ event ∈ l.trace.path, ∀ {loc loc' isStore isStore' time time'}, SharedAccess event loc isStore time →
      SharedAccess (l.item threadId ki) loc' isStore' time' →
      event.globalVarFullName ≠ (l.item threadId ki).globalVarFullName := by
    intro event hevent loc loc' isStore isStore' time time' haccess haccess' hname
    have hki := haccess'.access
    rw [item_inst] at hki
    obtain ⟨hitem, -⟩ := item_sharedAccess l threadId hki haccess'.shared
    obtain ⟨time'', hle, hevent'⟩ := h.named event hevent loc isStore haccess.access haccess.shared
    obtain ⟨rfl, rfl, rfl⟩ := hevent'.same hitem hname
    omega
  constructor
  · intro event hevent loc isStore haccess
    rw [hpath, List.mem_append, List.mem_singleton] at hevent
    rcases hevent with hevent | rfl
    · exact h.isGlobal event hevent loc isStore haccess
    · rw [item_inst] at haccess
      let created := l.createEvent threadId ki.inst (if ki.ignored then .ignore else .normal)
      show (created.2.executeOpcode created.1 ki.inst).1.isGlobal = loc.isGlobal
      rw [(executeOpcode_access created.2 created.1 haccess).1]
      exact (nameAccess_global rfl).1
  · intro event hevent loc isStore haccess hshared
    rw [hpath, List.mem_append, List.mem_singleton] at hevent
    rcases hevent with hevent | rfl
    · obtain ⟨time, hle, hnamed⟩ := h.named event hevent loc isStore haccess hshared
      exact ⟨time, hle.trans (executeInstruction_times isStore loc.address), hnamed⟩
    · rw [item_inst] at haccess
      obtain ⟨hitem, hcounted⟩ := item_sharedAccess l threadId haccess hshared
      exact ⟨_, hcounted, hitem⟩
  · intro event hevent event' hevent' loc loc' isStore isStore' time time' haccess haccess' hname
    rw [hpath, List.mem_append, List.mem_singleton] at hevent hevent'
    rcases hevent with hevent | rfl
    · rcases hevent' with hevent' | rfl
      · exact h.unique event hevent event' hevent' haccess haccess' hname
      · exact absurd hname (hfresh event hevent haccess haccess')
    · rcases hevent' with hevent' | rfl
      · exact absurd hname.symm (hfresh event' hevent' haccess' haccess)
      · rfl

end

theorem recorded_accessNames {l : PSOListener} (h : Recorded l) : AccessNames l := by
  induction h with
  | start inits =>
    obtain ⟨set, hset⟩ := @foldl_insertGlobalVariableInitializer inits {}
    rw [hset]
    constructor <;> intro event hevent <;> cases hevent
  | @create l newThreadId hl ih =>
    obtain ⟨points, hpoints⟩ := @createThread_eq l newThreadId
    rw [hpoints]
    exact ⟨ih.isGlobal, ih.named, ih.unique⟩
  | execute threadId ki hl ih => exact ih.execute

/-- The reads of a recorded trace are accesses of the path. -/
theorem recorded_reads {l : PSOListener} (h : Recorded l) {var : String} {read : Event}
    (hread : read ∈ l.trace.readSet.getD var []) :
    read ∈ l.trace.path ∧ ∃ loc, read.inst = .load loc false ∧ loc.isGlobal = true ∧ var = createVarName loc := by
  have htable : EntryTable l.trace.readSet (fun var read => read ∈ l.trace.path ∧
      ∃ loc, read.inst = .load loc false ∧ loc.isGlobal = true ∧ var = createVarName loc) fun _ _ => True := by
    clear hread
    induction h with
    | start inits =>
      obtain ⟨set, hset⟩ := @foldl_insertGlobalVariableInitializer inits {}
      rw [hset]
      exact .empty
    | @create l newThreadId hl ih =>
      obtain ⟨points, hpoints⟩ := @createThread_eq l newThreadId
      rw [hpoints]
      exact ih
    | @execute l threadId ki hl ih =>
      have hpath : (l.executeInstruction threadId ki).trace.path = l.trace.path ++ [l.item threadId ki] := by
        rw [executeInstruction_trace]
      rw [hpath, executeInstruction_readSet]
      have hmono := fun {var : String} {read : Event} (hx : read ∈ l.trace.path ∧
          ∃ loc, read.inst = .load loc false ∧ loc.isGlobal = true ∧ var = createVarName loc) =>
        And.intro (List.mem_append_left [l.item threadId ki] hx.1) hx.2
      split
      next loc isPointerTy hinst =>
        split
        next hshared =>
          simp only [Bool.and_eq_true, Bool.not_eq_true'] at hshared
          refine ih.push hmono ⟨List.mem_append_right _ (List.mem_singleton_self _), loc, ?_, hshared.2, rfl⟩ fun _ => trivial
          rw [item_inst, hinst, hshared.1]
        next => exact ih.mono hmono
      next => exact ih.mono hmono
  exact htable.entry hread

/-- The name of a source: that of the last store so far, or of the initial value. -/
theorem recorded_makeTaint {l : PSOListener} (h : Recorded l) {event : Event} (hevent : event ∈ l.trace.path)
    {loc : Location} (hinst : event.inst = .call (.makeTaint loc)) (hshared : loc.isGlobal = true) :
    event.varName = createVarName loc ∧ (event.globalVarFullName = createVarName loc ++ "_Init_tag" ∨
      ∃ time, event.globalVarFullName = createGlobalVarFullName (createVarName loc) time true) := by
  induction h with
  | start inits =>
    obtain ⟨set, hset⟩ := @foldl_insertGlobalVariableInitializer inits {}
    rw [hset] at hevent
    cases hevent
  | @create l newThreadId hl ih =>
    obtain ⟨points, hpoints⟩ := @createThread_eq l newThreadId
    rw [hpoints] at hevent
    exact ih hevent
  | @execute l threadId ki hl ih =>
    have hpath : (l.executeInstruction threadId ki).trace.path = l.trace.path ++ [l.item threadId ki] := by
      rw [executeInstruction_trace]
    rw [hpath, List.mem_append, List.mem_singleton] at hevent
    rcases hevent with hevent | rfl
    · exact ih hevent
    · rw [item_inst] at hinst
      obtain ⟨inst, ignored⟩ := ki
      obtain rfl : inst = .call (.makeTaint loc) := hinst
      have hitem : l.item threadId ⟨.call (.makeTaint loc), ignored⟩ =
          { threadId := threadId, eventId := l.trace.nextEventId, inst := .call (.makeTaint loc),
            eventType := if ignored then .ignore else .normal, isGlobal := true, varName := createVarName loc,
            globalVarFullName :=
              if l.getStoreTimeForTaint loc.address = 0 then createVarName loc ++ "_Init_tag"
              else createGlobalVarFullName (createVarName loc) (l.getStoreTimeForTaint loc.address) true } := by
        simp only [PSOListener.item, PSOListener.completed, PSOListener.executeOpcode, PSOListener.executeCall, hshared,
          if_true]
        rfl
      rw [hitem]
      refine ⟨rfl, ?_⟩
      by_cases hnever : l.getStoreTimeForTaint loc.address = 0
      · exact .inl (if_pos hnever)
      · exact .inr ⟨_, if_neg hnever⟩

end CapTaint
