import CapTaint.Theorems.Mutexes
import CapTaint.Theorems.Recorded
import CapTaint.Lib.Names
import CapTaint.Lib.VectorClock

/-! # Barrier generations

The listener and the runtime count the arrivals at a barrier on their own. They stay in step as long as every barrier
that is waited at is known to the runtime. -/

namespace CapTaint
open Std ExecutionState

/-! ### The listener of a run -/

/-- The listener that has seen the steps of a run; `ignored` tells which of their instructions are ignored. -/
def listenerAfter (inits : List String) (ignored : Nat → Bool) (steps : List ExecStep) : PSOListener :=
  PSOListener.record inits
    (steps.zipIdx.map fun entry => (entry.1.threadId, ⟨entry.1.inst, ignored entry.2⟩, entry.1.outcome.created))

section
variable {inits : List String} {ignored : Nat → Bool} {steps : List ExecStep} {step : ExecStep}

theorem listenerAfter_recorded : Recorded (listenerAfter inits ignored steps) := record_recorded _ _

theorem listenerAfter_snoc : listenerAfter inits ignored (steps ++ [step]) =
    let l := (listenerAfter inits ignored steps).executeInstruction step.threadId ⟨step.inst, ignored steps.length⟩
    match step.outcome.created with
    | none => l
    | some newThreadId => l.createThread newThreadId := by
  rw [listenerAfter, List.zipIdx_append, List.map_append, PSOListener.record, List.foldl_append, Nat.zero_add]
  rfl

/-- A new thread is entered in its own table, so the rest is as the instruction leaves it. -/
theorem listenerAfter_snoc_fields :
    let l := (listenerAfter inits ignored steps).executeInstruction step.threadId ⟨step.inst, ignored steps.length⟩
    (listenerAfter inits ignored (steps ++ [step])).barrierRecord = l.barrierRecord ∧
      (listenerAfter inits ignored (steps ++ [step])).trace.allBarrier = l.trace.allBarrier ∧
      (listenerAfter inits ignored (steps ++ [step])).trace.path = l.trace.path := by
  rw [listenerAfter_snoc]
  cases step.outcome.created with
  | none => exact ⟨rfl, rfl, rfl⟩
  | some newThreadId =>
    obtain ⟨points, hpoints⟩ := @createThread_eq ((listenerAfter inits ignored steps).executeInstruction step.threadId
      ⟨step.inst, ignored steps.length⟩) newThreadId
    dsimp only
    rw [hpoints]
    exact ⟨rfl, rfl, rfl⟩

theorem listenerAfter_path_length : (listenerAfter inits ignored steps).trace.path.length = steps.length := by
  induction steps using List.reverseRecOn with
  | nil =>
    obtain ⟨set, hset⟩ := @foldl_insertGlobalVariableInitializer inits {}
    show ({ trace := inits.foldl Trace.insertGlobalVariableInitializer {} } : PSOListener).trace.path.length = 0
    rw [hset]
    rfl
  | append_singleton steps step ih =>
    rw [listenerAfter_snoc_fields.2.2, executeInstruction_trace, List.length_append, List.length_append, ih]
    rfl

end

/-- The path is in the order of the events' numbers. -/
theorem recorded_path {l : PSOListener} (h : Recorded l) :
    l.trace.path.Pairwise (fun a b => a.eventId < b.eventId) ∧ ∀ event ∈ l.trace.path, event.eventId < l.trace.nextEventId := by
  induction h with
  | start inits =>
    obtain ⟨set, hset⟩ := @foldl_insertGlobalVariableInitializer inits {}
    rw [hset]
    exact ⟨.nil, by simp⟩
  | @create l newThreadId hl ih =>
    obtain ⟨points, hpoints⟩ := @createThread_eq l newThreadId
    rw [hpoints]
    exact ih
  | @execute l threadId ki hl ih =>
    have hpath : (l.executeInstruction threadId ki).trace.path = l.trace.path ++ [l.item threadId ki] := by
      rw [executeInstruction_trace]
    rw [hpath, executeInstruction_nextEventId]
    refine ⟨List.pairwise_append.mpr ⟨ih.1, List.pairwise_singleton _ _, fun a ha b hb => ?_⟩, fun event hevent => ?_⟩
    · rw [List.mem_singleton.mp hb, item_eventId]
      exact ih.2 a ha
    · rcases List.mem_append.mp hevent with hevent | hevent
      · have hlt := ih.2 event hevent
        omega
      · rw [List.mem_singleton.mp hevent, item_eventId]
        omega

theorem recorded_path_inj {l : PSOListener} (h : Recorded l) {i j : Nat} {event : Event} (hi : l.trace.path[i]? = some event)
    (hj : l.trace.path[j]? = some event) : i = j := by
  have hsorted := (recorded_path h).1
  have hnodup : l.trace.path.Nodup := hsorted.imp fun hlt heq => by rw [heq] at hlt; exact absurd hlt (Nat.lt_irrefl _)
  obtain ⟨hlt, hi⟩ := List.getElem?_eq_some_iff.mp hi
  obtain ⟨hlt', hj⟩ := List.getElem?_eq_some_iff.mp hj
  exact (hnodup.getElem_inj_iff).mp (hi.trans hj.symm)

/-! ### What the listener does at a barrier -/

/-- One arrival, with the release when it is the last one. -/
def BarrierInfo.arrive (info : BarrierInfo) : BarrierInfo :=
  if info.addWaitItem.1 then info.addWaitItem.2.addReleaseItem else info.addWaitItem.2

section
variable {l : PSOListener} {threadId : Nat} {ki : KInstruction}

theorem nameWrites_barrierRecord (l : PSOListener) (countLocal : Bool) (locs : List Location) :
    (l.nameWrites countLocal locs).2.barrierRecord = l.barrierRecord := by
  induction locs generalizing l with
  | nil => rfl
  | cons loc rest ih =>
    unfold PSOListener.nameWrites
    cases loc.isGlobal with
    | true => exact ih _
    | false =>
      cases countLocal with
      | true => exact ih _
      | false => exact ih _

theorem nameAccess_barrierRecord (l : PSOListener) (item : Event) (loc : Location) (isStore : Bool) :
    (l.nameAccess item loc isStore).2.barrierRecord = l.barrierRecord := by
  unfold PSOListener.nameAccess
  cases loc.isGlobal <;> cases isStore <;> rfl

theorem executeOpcode_barrierRecord (l : PSOListener) (item : Event) (inst : Inst) :
    (l.executeOpcode item inst).2.2.barrierRecord =
      match inst with
      | .call (.pthreadBarrierWait barrier) => l.barrierRecord.insert barrier (l.barrierRecord.getD barrier {}).arrive
      | .call (.pthreadBarrierInit barrier count) =>
        l.barrierRecord.insert barrier { l.barrierRecord.getD barrier {} with count := count }
      | _ => l.barrierRecord := by
  cases inst with
  | load loc isPointerTy | store loc isPointerTy =>
    simp only [PSOListener.executeOpcode]
    split
    · exact nameAccess_barrierRecord _ _ _ _
    · exact nameAccess_barrierRecord _ _ _ _
  | call f =>
    cases f with
    | pthreadCreate thread => exact nameAccess_barrierRecord _ _ _ _
    | makeTaint loc =>
      simp only [PSOListener.executeOpcode, PSOListener.executeCall]
      split <;> rfl
    | strcpy dest length => exact nameWrites_barrierRecord _ _ _
    | fillBuffer name fields => exact nameWrites_barrierRecord _ _ _
    | _ => rfl
  | _ => rfl

theorem executeInstruction_barrierRecord : (l.executeInstruction threadId ki).barrierRecord =
    match ki.inst with
    | .call (.pthreadBarrierWait barrier) => l.barrierRecord.insert barrier (l.barrierRecord.getD barrier {}).arrive
    | .call (.pthreadBarrierInit barrier count) =>
      l.barrierRecord.insert barrier { l.barrierRecord.getD barrier {} with count := count }
    | _ => l.barrierRecord :=
  executeOpcode_barrierRecord (l.createEvent threadId ki.inst (if ki.ignored then .ignore else .normal)).2 _ ki.inst

end

theorem createBarrierName_inj {address address' count count' : Nat}
    (h : createBarrierName address count = createBarrierName address' count') : address = address' ∧ count = count' := by
  have hlist := congrArg String.toList h
  simp only [createBarrierName, String.toList_append] at hlist
  rw [List.append_assoc, List.append_assoc] at hlist
  obtain ⟨haddress, hcount⟩ := Names.append_cons_cancel_last (Names.notMem_toString (by decide))
    (Names.notMem_toString (by decide)) hlist
  exact ⟨Nat.repr_injective (String.toList_inj.mp haddress), Nat.repr_injective (String.toList_inj.mp hcount)⟩

/-! ### What the runtime does at a barrier -/

namespace Executor
variable {e e' : Executor} {t : Nat} {inst : Inst} {choice : Choice} {o : Outcome}

/-- The calls that a barrier takes part in. -/
def barrierOf : Inst → Option Nat
  | .call (.pthreadBarrierWait barrier) | .call (.pthreadBarrierInit barrier _) => some barrier
  | _ => none

theorem barrierOf_cases (inst : Inst) : (∃ barrier, inst = .call (.pthreadBarrierWait barrier)) ∨
    (∃ barrier count, inst = .call (.pthreadBarrierInit barrier count)) ∨ barrierOf inst = none := by
  unfold barrierOf
  split
  · exact .inl ⟨_, rfl⟩
  · exact .inr (.inl ⟨_, _, rfl⟩)
  · exact .inr (.inr rfl)

theorem schedule_barriers (h : e.schedule t = some e') : e'.barrierManager = e.barrierManager := by
  rcases schedule_eq h with ⟨-, rfl⟩ | ⟨-, m, -, rfl⟩
  · rfl
  · rfl

theorem executeInstruction_barriers (h : e.executeInstruction t inst choice = some (o, e')) (hinst : barrierOf inst = none) :
    e'.barrierManager = e.barrierManager := by
  unfold executeInstruction at h
  split at h
  next =>
    obtain ⟨_, _, _, rfl, _⟩ := executePThreadCreate_eq h
    rfl
  next =>
    obtain ⟨_, _, rfl⟩ | ⟨_, _, _, rfl⟩ := executePThreadJoin_eq h
    · rfl
    · rfl
  next =>
    obtain ⟨_, _, _, _, _, _, _, _, rfl⟩ := executePThreadCondWait_eq h
    rfl
  next =>
    obtain ⟨_, _, hsignalled⟩ := executePThreadCondSignal_eq h
    exact hsignalled.barriers
  next =>
    obtain ⟨_, _, hsignalled⟩ := executePThreadCondBroadcast_eq h
    exact hsignalled.barriers
  next =>
    obtain ⟨_, _, _, _, rfl⟩ := executePThreadMutexLock_eq h
    rfl
  next =>
    obtain ⟨_, _, _, rfl⟩ := executePThreadMutexUnlock_eq h
    rfl
  next => cases hinst
  next => cases hinst
  next =>
    obtain ⟨_, _, rfl, _⟩ := executeExit_eq h
    rfl
  next =>
    obtain ⟨-, rfl⟩ := Prod.mk.inj (Option.some.inj h)
    rfl

/-- One arrival, with the reset when it is the last one. -/
def arrived (state : Barrier) (t : Nat) : Barrier :=
  if state.current + 1 = state.count then { state with current := 0, blockedList := [] }
  else { state with current := state.current + 1, blockedList := state.blockedList ++ [t] }

theorem barrierWait_known {barrier : Nat} {state : Barrier} (h : e.barrierManager.barrierPool[barrier]? = some state) :
    (e.executePThreadBarrierWait t barrier).1.blocked = !(state.current + 1 == state.count) ∧
      (e.executePThreadBarrierWait t barrier).2.barrierManager.barrierPool =
        e.barrierManager.barrierPool.insert barrier (arrived state t) := by
  unfold executePThreadBarrierWait BarrierManager.wait arrived
  rw [h]
  by_cases hfull : state.current + 1 = state.count
  · simp [hfull]
  · simp [hfull]

end Executor

/-! ### Generations -/

/-- The generation that a wait in step `i` belongs to: the number of earlier ones that a wait has completed. -/
def generation (steps : List ExecStep) (barrier i : Nat) : Nat :=
  (steps.take i).countP fun step => step.inst = .call (.pthreadBarrierWait barrier) ∧ step.outcome.blocked = false

/-- Step `i` is a wait at the barrier. -/
def WaitsAt (steps : List ExecStep) (i : Nat) (step : ExecStep) (barrier : Nat) : Prop :=
  steps[i]? = some step ∧ step.inst = .call (.pthreadBarrierWait barrier)

section
variable {steps : List ExecStep} {step new : ExecStep} {barrier i j : Nat}

theorem generation_mono (hij : i ≤ j) : generation steps barrier i ≤ generation steps barrier j := by
  refine List.Sublist.countP_le ?_
  exact (List.take_prefix_take_left hij).sublist

theorem generation_snoc_of_le (hi : i ≤ steps.length) : generation (steps ++ [new]) barrier i = generation steps barrier i := by
  rw [generation, List.take_append_of_le_length hi]
  rfl

theorem generation_snoc : generation (steps ++ [new]) barrier (steps.length + 1) =
    generation steps barrier steps.length +
      if new.inst = .call (.pthreadBarrierWait barrier) ∧ new.outcome.blocked = false then 1 else 0 := by
  rw [generation, generation, List.take_length, List.take_of_length_le (by simp), List.countP_append, List.countP_singleton]
  simp

theorem WaitsAt.lt (h : WaitsAt steps i step barrier) : i < steps.length := (List.getElem?_eq_some_iff.mp h.1).1

theorem waitsAt_snoc (h : WaitsAt (steps ++ [new]) i step barrier) :
    WaitsAt steps i step barrier ∨ i = steps.length ∧ step = new ∧ new.inst = .call (.pthreadBarrierWait barrier) := by
  rcases Snoc.getElem?_snoc_cases h.1 with hold | ⟨rfl, rfl⟩
  · exact .inl ⟨hold, h.2⟩
  · exact .inr ⟨rfl, rfl, h.2⟩

end

theorem getD_insert_ite {α : Type} {table : TreeMap Nat α} {key k : Nat} {value fallback : α} :
    (table.insert key value).getD k fallback = if k = key then value else table.getD k fallback := by
  rw [TreeMap.getD_insert]
  by_cases hk : k = key
  · simp [hk]
  · simp [hk, Ne.symm hk]

/-- Each barrier that is waited at is known to the runtime. -/
def BarrierKnown (_ : List ExecStep) (e : Executor) (_ : Nat) (inst : Inst) : Prop :=
  match inst with
  | .call (.pthreadBarrierWait barrier) => barrier ∈ e.barrierManager.barrierPool
  | _ => True

instance (steps : List ExecStep) (e : Executor) (t : Nat) (inst : Inst) : Decidable (BarrierKnown steps e t inst) := by
  unfold BarrierKnown
  split <;> infer_instance

/-- The listener and the runtime have the same count at every barrier, and the threads of the generation that is not
    complete are those that the runtime blocks there. -/
structure InStep (l : PSOListener) (e : Executor) (steps : List ExecStep) : Prop where
  info : ∀ barrier, l.barrierRecord.getD barrier {} =
    { count := (e.barrierManager.barrierPool.getD barrier {}).count
      current := (e.barrierManager.barrierPool.getD barrier {}).current
      releasedCount := generation steps barrier steps.length }
  arrived : ∀ i step barrier, WaitsAt steps i step barrier →
    generation steps barrier i = generation steps barrier steps.length → step.threadId ∈ e.arrivals barrier

section
variable {l l' : PSOListener} {e e' : Executor} {steps : List ExecStep} {new : ExecStep}

/-- A step that no barrier takes part in. -/
theorem InStep.other (h : InStep l e steps) (hinst : Executor.barrierOf new.inst = none)
    (hl : l'.barrierRecord = l.barrierRecord) (he : e'.barrierManager = e.barrierManager) : InStep l' e' (steps ++ [new]) := by
  have hnowait : ∀ barrier, new.inst ≠ .call (.pthreadBarrierWait barrier) := by
    intro barrier heq
    rw [heq] at hinst
    cases hinst
  have hgeneration : ∀ barrier, generation (steps ++ [new]) barrier (steps ++ [new]).length =
      generation steps barrier steps.length := by
    intro barrier
    rw [List.length_append, List.length_singleton, generation_snoc, if_neg (fun hwait => hnowait barrier hwait.1), Nat.add_zero]
  refine ⟨fun barrier => ?_, fun i step barrier hwait hcurrent => ?_⟩
  · rw [hl, he, hgeneration, h.info]
  · rcases waitsAt_snoc hwait with hwait | ⟨-, -, hwait⟩
    · rw [hgeneration, generation_snoc_of_le hwait.lt.le] at hcurrent
      rw [Executor.arrivals, he]
      exact h.arrived i step barrier hwait hcurrent
    · exact absurd hwait (hnowait barrier)

theorem InStep.wait (h : InStep l e steps) {barrier : Nat} {state : Barrier}
    (hstate : e.barrierManager.barrierPool[barrier]? = some state) (hinst : new.inst = .call (.pthreadBarrierWait barrier))
    (hl : l'.barrierRecord = l.barrierRecord.insert barrier (l.barrierRecord.getD barrier {}).arrive)
    (hblocked : new.outcome.blocked = !(state.current + 1 == state.count))
    (he : e'.barrierManager.barrierPool =
      e.barrierManager.barrierPool.insert barrier (Executor.arrived state new.threadId)) : InStep l' e' (steps ++ [new]) := by
  have hgetD : e.barrierManager.barrierPool.getD barrier {} = state := by
    rw [TreeMap.getD_eq_getD_getElem?, hstate]
    rfl
  have hgeneration : ∀ k, generation (steps ++ [new]) k (steps ++ [new]).length =
      generation steps k steps.length + if k = barrier ∧ state.current + 1 = state.count then 1 else 0 := by
    intro k
    rw [List.length_append, List.length_singleton, generation_snoc, hinst, hblocked]
    by_cases hk : k = barrier
    · simp [hk]
    · simp [hk, Ne.symm hk]
  have harrivals : ∀ k, e'.arrivals k =
      if k = barrier then (Executor.arrived state new.threadId).blockedList else e.arrivals k := by
    intro k
    rw [Executor.arrivals, Executor.arrivals, he, getD_insert_ite]
    split
    · rfl
    · rfl
  refine ⟨fun k => ?_, fun i step k hwait hcurrent => ?_⟩
  · rw [hl, he, hgeneration, getD_insert_ite, getD_insert_ite, h.info barrier, h.info k, hgetD]
    by_cases hk : k = barrier
    · subst hk
      by_cases hfull : state.current + 1 = state.count
      · simp [BarrierInfo.arrive, BarrierInfo.addWaitItem, BarrierInfo.addReleaseItem, Executor.arrived, hfull]
      · simp [BarrierInfo.arrive, BarrierInfo.addWaitItem, Executor.arrived, hfull]
    · simp [hk]
  · rw [harrivals]
    rw [hgeneration] at hcurrent
    rcases waitsAt_snoc hwait with hwait | ⟨rfl, rfl, hwait⟩
    · rw [generation_snoc_of_le hwait.lt.le] at hcurrent
      have hle := @generation_mono steps k i steps.length hwait.lt.le
      split
      next hk =>
        subst hk
        by_cases hfull : state.current + 1 = state.count
        · simp [hfull] at hcurrent
          omega
        · have hmem := h.arrived i step k hwait (by simpa [hfull] using hcurrent)
          rw [Executor.arrivals, hgetD] at hmem
          simp [Executor.arrived, hfull, hmem]
      next hk => exact h.arrived i step k hwait (by simpa [hk] using hcurrent)
    · rw [hinst] at hwait
      cases hwait
      rw [generation_snoc_of_le (Nat.le_refl _)] at hcurrent
      by_cases hfull : state.current + 1 = state.count
      · simp [hfull] at hcurrent
      · simp [Executor.arrived, hfull]

theorem InStep.init (h : InStep l e steps) {barrier count : Nat} {state : Barrier}
    (hstate : e.barrierManager.barrierPool[barrier]? = some state)
    (hinst : new.inst = .call (.pthreadBarrierInit barrier count))
    (hl : l'.barrierRecord = l.barrierRecord.insert barrier { l.barrierRecord.getD barrier {} with count := count })
    (he : e'.barrierManager.barrierPool = e.barrierManager.barrierPool.insert barrier { state with count := count }) :
    InStep l' e' (steps ++ [new]) := by
  have hgetD : e.barrierManager.barrierPool.getD barrier {} = state := by
    rw [TreeMap.getD_eq_getD_getElem?, hstate]
    rfl
  have hgeneration : ∀ k, generation (steps ++ [new]) k (steps ++ [new]).length = generation steps k steps.length := by
    intro k
    rw [List.length_append, List.length_singleton, generation_snoc, hinst]
    simp
  refine ⟨fun k => ?_, fun i step k hwait hcurrent => ?_⟩
  · rw [hl, he, hgeneration, getD_insert_ite, getD_insert_ite, h.info barrier, h.info k, hgetD]
    by_cases hk : k = barrier
    · simp [hk]
    · simp [hk]
  · rw [hgeneration] at hcurrent
    rcases waitsAt_snoc hwait with hwait | ⟨-, -, hwait⟩
    · rw [generation_snoc_of_le hwait.lt.le] at hcurrent
      have hmem := h.arrived i step k hwait hcurrent
      rw [Executor.arrivals] at hmem ⊢
      rw [he, getD_insert_ite]
      split
      next hk =>
        rw [hk, hgetD] at hmem
        exact hmem
      next => exact hmem
    · rw [hinst] at hwait
      cases hwait

/-- What a step of a run does to the barriers, on both sides. -/
theorem InStep.step {inits : List String} {ignored : Nat → Bool} (h : InStep (listenerAfter inits ignored steps) e steps)
    {choice : Choice} {relocked : Option Nat} {t : Nat} {inst : Inst} {o : Outcome} (hknown : BarrierKnown steps e t inst)
    (hs : e.step t inst choice = some (o, e')) :
    InStep (listenerAfter inits ignored (steps ++ [⟨t, inst, o, relocked⟩])) e' (steps ++ [⟨t, inst, o, relocked⟩]) := by
  obtain ⟨e₁, hschedule, hs⟩ := Option.bind_eq_some_iff.mp hs
  have hsame := Executor.schedule_barriers hschedule
  have hrecord := (@listenerAfter_snoc_fields inits ignored steps ⟨t, inst, o, relocked⟩).1
  rw [executeInstruction_barrierRecord] at hrecord
  rcases Executor.barrierOf_cases inst with ⟨barrier, rfl⟩ | ⟨barrier, count, rfl⟩ | hinst
  · obtain ⟨state, hstate⟩ := Option.isSome_iff_exists.mp (TreeMap.mem_iff_isSome_getElem?.mp hknown)
    have hstate₁ : e₁.barrierManager.barrierPool[barrier]? = some state := by rw [hsame, hstate]
    have hwait : e₁.executePThreadBarrierWait t barrier = (o, e') := Option.some.inj hs
    obtain ⟨hblocked, hpool⟩ := Executor.barrierWait_known (t := t) hstate₁
    rw [hwait] at hblocked hpool
    refine h.wait hstate rfl hrecord hblocked ?_
    rw [hpool, hsame]
  · obtain ⟨state, hstate, -, rfl⟩ := Executor.executePThreadBarrierInit_eq hs
    rw [hsame] at hstate
    refine h.init hstate rfl hrecord ?_
    rw [← hsame]
  · refine h.other hinst ?_ ((Executor.executeInstruction_barriers hs hinst).trans hsame)
    rw [hrecord]
    split
    next heq =>
      obtain rfl : inst = _ := heq
      cases hinst
    next heq =>
      obtain rfl : inst = _ := heq
      cases hinst
    next => rfl

end

theorem executorRun_inStep {inits : List String} {ignored : Nat → Bool} {steps : List ExecStep} {e : Executor}
    (h : ExecutorRun BarrierKnown steps e) : InStep (listenerAfter inits ignored steps) e steps := by
  induction h with
  | start =>
    refine ⟨fun barrier => ?_, fun i step barrier hwait => ?_⟩
    · simp [listenerAfter, PSOListener.record, Executor.start, generation]
    · cases hwait.1
  | @createSpecialElement steps e element hrun ih =>
    have hgetD : ∀ k, (e.createSpecialElement element).barrierManager.barrierPool.getD k {} =
        e.barrierManager.barrierPool.getD k {} := by
      intro k
      cases element with
      | mutex address => rfl
      | cond address => rfl
      | barrier address =>
        simp only [Executor.createSpecialElement, BarrierManager.addBarrier, TreeMap.getD_insertIfNew,
          Std.compare_eq_iff_eq]
        split
        next hnew => rw [← hnew.1, TreeMap.getD_eq_fallback hnew.2]
        next => rfl
    refine ⟨fun barrier => ?_, fun i step barrier hwait hcurrent => ?_⟩
    · rw [hgetD]
      exact ih.info barrier
    · rw [Executor.arrivals, hgetD]
      exact ih.arrived i step barrier hwait hcurrent
  | reSchedule hrun ih => exact ⟨ih.info, ih.arrived⟩
  | step hrun hknown hs ih => exact ih.step hknown hs

/-! ### The result -/

/-- The event of step `i` stands under the key. -/
def Keyed (trace : Trace) (i : Nat) (key : String) : Prop :=
  ∃ event ∈ trace.allBarrier.getD key [], trace.path[i]? = some event

/-- The generations that the listener records are those of the runtime. -/
structure GenerationsAgree (inits : List String) (ignored : Nat → Bool) (steps : List ExecStep) : Prop where
  releases : ∀ i step barrier, WaitsAt steps i step barrier →
    ((listenerAfter inits ignored (steps.take i)).barrierRecord.getD barrier {}).addWaitItem.1 = !step.outcome.blocked
  keyed : ∀ i step barrier, WaitsAt steps i step barrier → ∃ key, Keyed (listenerAfter inits ignored steps).trace i key
  keys : ∀ i j step step' barrier barrier', WaitsAt steps i step barrier → WaitsAt steps j step' barrier' →
    ((∃ key, Keyed (listenerAfter inits ignored steps).trace i key ∧
        Keyed (listenerAfter inits ignored steps).trace j key) ↔
      barrier = barrier' ∧ generation steps barrier i = generation steps barrier' j)
  threads : ∀ i j step step' barrier, WaitsAt steps i step barrier → WaitsAt steps j step' barrier →
    generation steps barrier i = generation steps barrier j → step.threadId = step'.threadId → i = j

section
variable {inits : List String} {ignored : Nat → Bool} {steps : List ExecStep} {e : Executor}

/-- The listener counts a wait as the last one exactly when the runtime lets it pass. -/
theorem executorRun_releases (h : ExecutorRun BarrierKnown steps e) {i : Nat} {step : ExecStep} {barrier : Nat}
    (hwait : WaitsAt steps i step barrier) :
    ((listenerAfter inits ignored (steps.take i)).barrierRecord.getD barrier {}).addWaitItem.1 = !step.outcome.blocked := by
  induction h with
  | start => cases hwait.1
  | createSpecialElement _ _ ih => exact ih hwait
  | reSchedule _ ih => exact ih hwait
  | @step steps e e' t inst choice o hrun hknown hs ih =>
    rcases waitsAt_snoc hwait with hwait | ⟨rfl, rfl, rfl⟩
    · rw [List.take_append_of_le_length hwait.lt.le]
      exact ih hwait
    · rw [List.take_left, (executorRun_inStep hrun).info]
      obtain ⟨state, hstate⟩ := Option.isSome_iff_exists.mp (TreeMap.mem_iff_isSome_getElem?.mp hknown)
      obtain ⟨e₁, hschedule, hs⟩ := Option.bind_eq_some_iff.mp hs
      have hstate₁ : e₁.barrierManager.barrierPool[barrier]? = some state := by
        rw [Executor.schedule_barriers hschedule, hstate]
      have hpass : e₁.executePThreadBarrierWait t barrier = (o, e') := Option.some.inj hs
      have hblocked := (Executor.barrierWait_known (t := t) hstate₁).1
      rw [hpass] at hblocked
      rw [hblocked, TreeMap.getD_eq_getD_getElem?, hstate]
      simp [BarrierInfo.addWaitItem]

/-- A thread that waits in the generation that is not complete is blocked, so it does not come to a barrier again. -/
theorem executorRun_threads (h : ExecutorRun BarrierKnown steps e) {i j : Nat} {step step' : ExecStep} {barrier : Nat}
    (hwait : WaitsAt steps i step barrier) (hwait' : WaitsAt steps j step' barrier)
    (hgeneration : generation steps barrier i = generation steps barrier j) (hthread : step.threadId = step'.threadId) :
    i = j := by
  induction h generalizing i j step step' with
  | start => cases hwait.1
  | createSpecialElement _ _ ih => exact ih hwait hwait' hgeneration hthread
  | reSchedule _ ih => exact ih hwait hwait' hgeneration hthread
  | @step steps e e' t inst choice o hrun hknown hs ih =>
    obtain ⟨e₁, hschedule, hs⟩ := Option.bind_eq_some_iff.mp hs
    obtain ⟨hplaced, hrunning⟩ := Executor.schedule_placed (Executor.executorRun_placed hrun).1 hschedule
    -- an earlier wait of the same generation has its thread among the arrivals
    have hearlier : ∀ {k : Nat} {earlier : ExecStep}, WaitsAt steps k earlier barrier →
        generation steps barrier k = generation steps barrier steps.length → earlier.threadId ≠ t := by
      intro k earlier hearlier hcurrent heq
      have hmem := (@executorRun_inStep [] (fun _ => false) _ _ hrun).arrived k earlier barrier hearlier hcurrent
      rw [Executor.arrivals, ← Executor.schedule_barriers hschedule, heq] at hmem
      have hblocked := (hplaced.arrivals.mem t).mpr ⟨barrier, hmem⟩
      rw [hrunning] at hblocked
      cases hblocked
    rcases waitsAt_snoc hwait with hwait | ⟨rfl, rfl, -⟩
    · rw [generation_snoc_of_le hwait.lt.le] at hgeneration
      rcases waitsAt_snoc hwait' with hwait' | ⟨rfl, rfl, -⟩
      · rw [generation_snoc_of_le hwait'.lt.le] at hgeneration
        exact ih hwait hwait' hgeneration hthread
      · rw [generation_snoc_of_le (Nat.le_refl _)] at hgeneration
        exact absurd hthread (hearlier hwait hgeneration)
    · rcases waitsAt_snoc hwait' with hwait' | ⟨rfl, rfl, -⟩
      · rw [generation_snoc_of_le (Nat.le_refl _), generation_snoc_of_le hwait'.lt.le] at hgeneration
        exact absurd hthread.symm (hearlier hwait' hgeneration.symm)
      · rfl

/-- The events under a key are those of the waits of one generation. -/
theorem executorRun_allBarrier (h : ExecutorRun BarrierKnown steps e) {key : String} {event : Event} :
    event ∈ (listenerAfter inits ignored steps).trace.allBarrier.getD key [] ↔
      ∃ i step barrier, WaitsAt steps i step barrier ∧ (listenerAfter inits ignored steps).trace.path[i]? = some event ∧
        key = createBarrierName barrier (generation steps barrier i) := by
  induction h with
  | start =>
    obtain ⟨set, hset⟩ := @foldl_insertGlobalVariableInitializer inits {}
    have hstart : listenerAfter inits ignored [] = { trace := inits.foldl Trace.insertGlobalVariableInitializer {} } := rfl
    rw [hstart, hset]
    simp [WaitsAt]
  | createSpecialElement _ _ ih => exact ih
  | reSchedule _ ih => exact ih
  | @step steps e e' t inst choice o hrun hknown hs ih =>
    obtain ⟨-, htable, hpath⟩ := @listenerAfter_snoc_fields inits ignored steps ⟨t, inst, o, e.wanted t⟩
    rw [executeInstruction_trace] at hpath
    rw [executeInstruction_tables.2.2.2] at htable
    have hlength := @listenerAfter_path_length inits ignored steps
    -- the waits before this step keep their events and their generations
    have hold : ∀ {i : Nat} {step : ExecStep} {barrier : Nat}, WaitsAt steps i step barrier →
        ((listenerAfter inits ignored (steps ++ [⟨t, inst, o, e.wanted t⟩])).trace.path[i]? = some event ↔
            (listenerAfter inits ignored steps).trace.path[i]? = some event) ∧
          generation (steps ++ [⟨t, inst, o, e.wanted t⟩]) barrier i = generation steps barrier i := by
      intro i step barrier hwait
      rw [hpath, List.getElem?_append_left (by rw [hlength]; exact hwait.lt)]
      exact ⟨Iff.rfl, generation_snoc_of_le hwait.lt.le⟩
    have hlast : (listenerAfter inits ignored (steps ++ [⟨t, inst, o, e.wanted t⟩])).trace.path[steps.length]? =
        some ((listenerAfter inits ignored steps).item t ⟨inst, ignored steps.length⟩) := by
      rw [hpath, List.getElem?_append_right (Nat.le_of_eq hlength), hlength]
      simp
    have hsplit : event ∈ (listenerAfter inits ignored (steps ++ [⟨t, inst, o, e.wanted t⟩])).trace.allBarrier.getD key [] ↔
        event ∈ (listenerAfter inits ignored steps).trace.allBarrier.getD key [] ∨
        ∃ barrier, inst = .call (.pthreadBarrierWait barrier) ∧
          event = (listenerAfter inits ignored steps).item t ⟨inst, ignored steps.length⟩ ∧
          key = createBarrierName barrier (generation steps barrier steps.length) := by
      rw [htable]
      split
      next barrier heq =>
        obtain rfl : inst = _ := heq
        rw [getD_pushAt, List.mem_append, (executorRun_inStep hrun).info]
        refine or_congr Iff.rfl ⟨fun hmem => ?_, ?_⟩
        · split at hmem
          next hkey => exact ⟨barrier, rfl, List.mem_singleton.mp hmem, hkey⟩
          next => cases hmem
        · rintro ⟨barrier', hinst, rfl, rfl⟩
          cases hinst
          rw [if_pos rfl]
          exact List.mem_singleton_self _
      next hother =>
        refine (or_iff_left ?_).symm
        rintro ⟨barrier, rfl, -, -⟩
        exact hother barrier rfl
    rw [hsplit, ih]
    constructor
    · rintro (⟨i, step, barrier, hwait, hevent, rfl⟩ | ⟨barrier, rfl, rfl, rfl⟩)
      · obtain ⟨hsame, hgeneration⟩ := hold hwait
        exact ⟨i, step, barrier, ⟨Snoc.getElem?_snoc_of_some hwait.1, hwait.2⟩, hsame.mpr hevent, by rw [hgeneration]⟩
      · exact ⟨steps.length, ⟨t, _, o, e.wanted t⟩, barrier, ⟨by simp, rfl⟩, hlast, by
          rw [generation_snoc_of_le (Nat.le_refl _)]⟩
    · rintro ⟨i, step, barrier, hwait, hevent, rfl⟩
      rcases waitsAt_snoc hwait with hwait | ⟨rfl, -, hinst⟩
      · obtain ⟨hsame, hgeneration⟩ := hold hwait
        exact .inl ⟨i, step, barrier, hwait, hsame.mp hevent, by rw [hgeneration]⟩
      · rw [hlast] at hevent
        exact .inr ⟨barrier, hinst, (Option.some.inj hevent).symm, by rw [generation_snoc_of_le (Nat.le_refl _)]⟩

/-- A wait stands under the name of its barrier and its generation, and under no other. -/
theorem keyed_iff (h : ExecutorRun BarrierKnown steps e) {i : Nat} {step : ExecStep} {barrier : Nat}
    (hwait : WaitsAt steps i step barrier) {key : String} :
    Keyed (listenerAfter inits ignored steps).trace i key ↔ key = createBarrierName barrier (generation steps barrier i) := by
  constructor
  · rintro ⟨event, hevent, hi⟩
    obtain ⟨j, step', barrier', hwait', hj, rfl⟩ := (executorRun_allBarrier h).mp hevent
    obtain rfl := recorded_path_inj listenerAfter_recorded hi hj
    have hstep : step = step' := Option.some.inj (hwait.1.symm.trans hwait'.1)
    have hbarrier := hwait.2.symm.trans (hstep ▸ hwait'.2)
    cases hbarrier
    rfl
  · rintro rfl
    have hlt : i < (listenerAfter inits ignored steps).trace.path.length := by
      rw [listenerAfter_path_length]
      exact hwait.lt
    exact ⟨_, (executorRun_allBarrier h).mpr ⟨i, step, barrier, hwait, List.getElem?_eq_getElem hlt, rfl⟩,
      List.getElem?_eq_getElem hlt⟩

theorem generationsAgree_of_known (inits : List String) (ignored : Nat → Bool) (h : ExecutorRun BarrierKnown steps e) :
    GenerationsAgree inits ignored steps := by
  refine ⟨fun i step barrier hwait => executorRun_releases h hwait, fun i step barrier hwait => ⟨_, (keyed_iff h hwait).mpr rfl⟩,
    fun i j step step' barrier barrier' hwait hwait' => ?_,
    fun i j step step' barrier hwait hwait' hgeneration hthread => executorRun_threads h hwait hwait' hgeneration hthread⟩
  simp only [keyed_iff h hwait, keyed_iff h hwait', exists_eq_left]
  constructor
  · intro hkey
    exact createBarrierName_inj hkey
  · rintro ⟨rfl, hgeneration⟩
    rw [hgeneration]

/-- Two threads meet twice at a barrier for two. -/
def meetTwice : List (Nat × Inst) :=
  [(1, .call (.pthreadBarrierInit 8 2)), (1, .call (.pthreadCreate ⟨2, 16, false⟩)), (1, .call (.pthreadBarrierWait 8)),
    (2, .call (.pthreadBarrierWait 8)), (2, .call (.pthreadBarrierWait 8)), (1, .call (.pthreadBarrierWait 8))]

theorem generationsAgree_meetTwice :
    ∃ steps e, Executor.run BarrierKnown [.barrier 8] meetTwice = some (steps, e) ∧
      steps.map (·.outcome.blocked) = [false, false, true, false, true, false] ∧
      GenerationsAgree [] (fun _ => false) steps := by
  have hrun : (Executor.run BarrierKnown [.barrier 8] meetTwice).map (fun result => result.1.map (·.outcome.blocked)) =
      some [false, false, true, false, true, false] := by decide +kernel
  obtain ⟨⟨steps, e⟩, hsteps, hblocked⟩ := Option.map_eq_some_iff.mp hrun
  exact ⟨steps, e, hsteps, hblocked, generationsAgree_of_known [] _ (Executor.run_executorRun hsteps)⟩

/-- At a barrier that is not known a thread passes twice in the generation that the listener counts. -/
theorem not_generationsAgree_unknownBarrier :
    ∃ steps e, Executor.run (fun _ _ _ _ => True) []
        [(1, .call (.pthreadBarrierWait 8)), (1, .call (.pthreadBarrierWait 8))] = some (steps, e) ∧
      ¬GenerationsAgree [] (fun _ => false) steps := by
  have hrun : (Executor.run (fun _ _ _ _ => True) []
      [(1, .call (.pthreadBarrierWait 8)), (1, .call (.pthreadBarrierWait 8))]).map (·.1) =
      some [⟨1, .call (.pthreadBarrierWait 8), {}, none⟩, ⟨1, .call (.pthreadBarrierWait 8), {}, none⟩] := rfl
  obtain ⟨⟨steps, e⟩, hsteps, rfl⟩ := Option.map_eq_some_iff.mp hrun
  refine ⟨_, e, hsteps, fun hagree => ?_⟩
  have hreleases := hagree.releases 0 _ 8 ⟨rfl, rfl⟩
  revert hreleases
  decide +kernel

end

end CapTaint
