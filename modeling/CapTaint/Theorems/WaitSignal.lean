import CapTaint.Theorems.Locks
import CapTaint.Lib.Names
import CapTaint.Lib.OptionLoop

/-! # Waits and signals

The 0/1 variables of the wait and signal formula are the graph of an injective matching: each wait is mapped to
a signal of another thread between the wait and its lock, and each signal is used once. With the lock pairs and the barriers
this is what a schedule has to satisfy for all synchronization. -/

namespace CapTaint
open Std Smt OptionLoop

/-! ### The tables of waits and signals -/

/-- The waits of a condition and their locks are recorded thread operations, each wait of its own number. -/
def WaitTable (l : PSOListener) : Prop :=
  EntryTable l.trace.allWait
    (fun _ wl => ThreadOpOf l wl.wait.threadId wl.wait ∧ ThreadOpOf l wl.wait.threadId wl.lockByWait)
    fun a b => a.wait.eventId ≠ b.wait.eventId

def SignalTable (l : PSOListener) : Prop :=
  EntryTable l.trace.allSignal (fun _ event => ThreadOpOf l event.threadId event) fun a b => a.eventId ≠ b.eventId

theorem recorded_waitTable {l : PSOListener} (h : Recorded l) : WaitTable l := by
  induction h with
  | start inits =>
    obtain ⟨set, hset⟩ := @foldl_insertGlobalVariableInitializer inits {}
    unfold WaitTable
    rw [hset]
    exact .empty
  | @create l newThreadId hl ih =>
    obtain ⟨points, hpoints⟩ := @createThread_eq l newThreadId
    unfold WaitTable
    rw [hpoints]
    exact ih.mono fun h => h
  | @execute l threadId ki hl ih =>
    unfold WaitTable
    rw [executeInstruction_tables.2.1]
    split
    · rename_i cond mutex hinst
      have hitem := @threadOpOf_item l threadId ki (by rw [hinst]; rfl)
      refine EntryTable.push ih (fun h => ⟨h.1.execute, h.2.execute⟩) ?_ fun h => h.1.eventId_ne hl item_eventId.ge
      dsimp only
      rw [item_threadId]
      exact ⟨hitem, threadOpOf_back hinst⟩
    · exact ih.mono fun h => ⟨h.1.execute, h.2.execute⟩

theorem recorded_signalTable {l : PSOListener} (h : Recorded l) : SignalTable l := by
  induction h with
  | start inits =>
    obtain ⟨set, hset⟩ := @foldl_insertGlobalVariableInitializer inits {}
    unfold SignalTable
    rw [hset]
    exact .empty
  | @create l newThreadId hl ih =>
    obtain ⟨points, hpoints⟩ := @createThread_eq l newThreadId
    unfold SignalTable
    rw [hpoints]
    exact ih.mono fun h => h
  | @execute l threadId ki hl ih =>
    have hpush : ki.inst.synchronizes = true → ∀ key, EntryTable (pushAt l.trace.allSignal key (l.item threadId ki))
        (fun _ event => ThreadOpOf (l.executeInstruction threadId ki) event.threadId event)
        fun a b => a.eventId ≠ b.eventId := by
      intro hsync key
      refine EntryTable.push ih (fun h => h.execute) ?_ fun h => h.eventId_ne hl item_eventId.ge
      rw [item_threadId]
      exact threadOpOf_item hsync
    unfold SignalTable
    rw [executeInstruction_tables.2.2.1]
    split
    · exact hpush (by rw [‹ki.inst = _›]; rfl) _
    · exact hpush (by rw [‹ki.inst = _›]; rfl) _
    · exact ih.mono fun h => h.execute

/-! ### Names of the variables -/

theorem notMem_createdName {n : Nat} : '_' ∉ (createdName n).toList := by
  unfold createdName
  rw [String.toList_append, List.mem_append]
  rintro (h | h)
  · revert h
    decide
  · exact Names.notMem_toString (by decide) h

theorem toList_mapName {trace : Trace} {cond : String} {wait signal : Event} :
    (Encode.mapName trace cond wait signal).toList =
      (cond.toList ++ '_' :: (trace.eventName wait).toList) ++ '_' :: (trace.eventName signal).toList := by
  have hsep : "_".toList = ['_'] := by decide
  simp only [Encode.mapName, String.toList_append, hsep]
  simp

section Names
variable {l : PSOListener} (h : Recorded l)
include h

theorem notMem_eventName {t : Nat} {event : Event} (hevent : event ∈ l.trace.thread t) :
    '_' ∉ (l.trace.eventName event).toList := by
  have wf := recorded_wellFormed h
  obtain ⟨first, -, -, hname⟩ := (wf.clustered t).exists_first (wf.ascending t) event hevent
  rw [hname]
  exact notMem_createdName

/-- The name of a variable tells the condition, the wait and the signal. -/
theorem mapName_inj {cond cond' : String} {wait wait' signal signal' : Event}
    {t t' u u' : Nat} (hw : ThreadOpOf l t wait) (hw' : ThreadOpOf l t' wait') (hs : ThreadOpOf l u signal)
    (hs' : ThreadOpOf l u' signal')
    (heq : Encode.mapName l.trace cond wait signal = Encode.mapName l.trace cond' wait' signal') :
    cond = cond' ∧ wait = wait' ∧ signal = signal' := by
  have wf := recorded_wellFormed h
  have hchars := congrArg String.toList heq
  rw [toList_mapName, toList_mapName] at hchars
  obtain ⟨hfront, hsignal⟩ := Names.append_cons_cancel_last (notMem_eventName h hs.1) (notMem_eventName h hs'.1) hchars
  obtain ⟨hcond, hwait⟩ := Names.append_cons_cancel_last (notMem_eventName h hw.1) (notMem_eventName h hw'.1) hfront
  refine ⟨String.toList_inj.mp hcond, ?_, ?_⟩
  · exact wf.eventName_inj hw.1 hw'.1 (by rw [hw.2]; decide) (by rw [hw'.2]; decide) (String.toList_inj.mp hwait)
  · exact wf.eventName_inj hs.1 hs'.1 (by rw [hs.2]; decide) (by rw [hs'.2]; decide) (String.toList_inj.mp hsignal)

/-- No event is named like a variable. -/
theorem eventName_ne_mapName {cond : String} {wait signal event : Event} {t : Nat} (hevent : event ∈ l.trace.thread t) :
    l.trace.eventName event ≠ Encode.mapName l.trace cond wait signal := by
  intro heq
  have hmem : '_' ∈ (Encode.mapName l.trace cond wait signal).toList := by
    rw [toList_mapName]
    simp
  exact notMem_eventName h hevent (heq ▸ hmem)

end Names

/-! ### What the formula says -/

namespace Encode
variable {V : Type}

/-- The constraints on the variables of one condition, for the waits and signals of its two tables. -/
structure MapConstraints (trace : Trace) (σ : Assignment V) (cond : String) (signals : List Event)
    (waits : List WaitLock) : Prop where
  possible : ∀ wl ∈ waits, otherSignals wl signals ≠ [] → ∃ signal ∈ otherSignals wl signals,
    (σ.int (trace.eventName wl.wait) < σ.int (trace.eventName signal) ∧
      σ.int (trace.eventName signal) < σ.int (trace.eventName wl.lockByWait)) ∧
    σ.int (mapName trace cond wl.wait signal) = 1
  range : ∀ wl ∈ waits, ∀ signal ∈ otherSignals wl signals,
    0 ≤ σ.int (mapName trace cond wl.wait signal) ∧ σ.int (mapName trace cond wl.wait signal) ≤ 1
  perSignal : ∀ signal ∈ signals, (waits.map fun wl => σ.int (mapName trace cond wl.wait signal)).sum ≤ 1
  perWait : ∀ wl ∈ waits, 1 ≤ (signals.map fun signal => σ.int (mapName trace cond wl.wait signal)).sum
  wiped : ∀ wl ∈ waits, ∀ signal ∈ signals, signal.threadId = wl.wait.threadId →
    σ.int (mapName trace cond wl.wait signal) = 0

section Formula
variable {trace : Trace} {σ : Assignment V} {cond : String} {signals : List Event} {waits : List WaitLock}

theorem satisfies_possibleMap {wl : WaitLock} : Satisfies σ (possibleMap trace cond signals wl) ↔
    (otherSignals wl signals ≠ [] → ∃ signal ∈ otherSignals wl signals,
      (σ.int (trace.eventName wl.wait) < σ.int (trace.eventName signal) ∧
        σ.int (trace.eventName signal) < σ.int (trace.eventName wl.lockByWait)) ∧
      σ.int (mapName trace cond wl.wait signal) = 1) ∧
    ∀ signal ∈ otherSignals wl signals,
      0 ≤ σ.int (mapName trace cond wl.wait signal) ∧ σ.int (mapName trace cond wl.wait signal) ≤ 1 := by
  simp only [possibleMap, satisfies_cons, satisfies_nil, and_true, holds_makeExprsOr, holds_makeExprsAnd, List.map_eq_nil_iff,
    List.mem_map, exists_exists_and_eq_and, forall_exists_index, and_imp, forall_apply_eq_imp_iff₂, holds_and, holds_lt,
    holds_le, holds_eq, eval_val, order, mapWaitSignal, eval_const, ne_eq, or_iff_not_imp_left]

/-- The formula of one condition is built from its signals and says what `MapConstraints` says. -/
theorem waitSignalOf_inv {part : List Formula} (h : waitSignalOf trace cond waits = some part) :
    ∃ signals, trace.allSignal[cond]? = some signals ∧
      (Satisfies σ part → MapConstraints trace σ cond signals waits) := by
  unfold waitSignalOf at h
  cases hsig : trace.allSignal[cond]? with
  | none => simp [hsig] at h
  | some signals =>
    refine ⟨signals, rfl, ?_⟩
    cases hps : signals.mapM (sumOfSignal trace cond waits) with
    | none => simp [hsig, hps] at h
    | some perSignal =>
      cases hpw : waits.mapM (sumOfWait trace cond signals) with
      | none => simp [hsig, hps, hpw] at h
      | some perWait =>
        simp only [hsig, hps, hpw, Option.bind_eq_bind, Option.bind_some, Option.pure_def, Option.some.injEq] at h
        subst h
        rw [satisfies_append, satisfies_append, satisfies_append, satisfies_flatMap, satisfies_flatMap]
        rintro ⟨⟨⟨hposs, hsignal⟩, hwait⟩, hwipe⟩
        refine ⟨?_, ?_, ?_, ?_, ?_⟩
        · exact fun wl hwl => (satisfies_possibleMap.mp (hposs wl hwl)).1
        · exact fun wl hwl => (satisfies_possibleMap.mp (hposs wl hwl)).2
        · intro signal hs
          obtain ⟨formula, hmem, hf⟩ := mapM_mem hps hs
          obtain ⟨sum, hsum, rfl⟩ := Option.map_eq_some_iff.mp hf
          have hle := hsignal _ hmem
          rw [holds_le, eval_val, makeExprsSum_eval hsum, List.map_map] at hle
          exact hle
        · intro wl hwl
          obtain ⟨formula, hmem, hf⟩ := mapM_mem hpw hwl
          obtain ⟨sum, hsum, rfl⟩ := Option.map_eq_some_iff.mp hf
          have hle := hwait _ hmem
          rw [holds_le, eval_val, makeExprsSum_eval hsum, List.map_map] at hle
          exact hle
        · intro wl hwl signal hs htid
          have hall := satisfies_map.mp (hwipe wl hwl) signal (List.mem_filter.mpr ⟨hs, by simpa using htid⟩)
          exact hall

/-- With waits and signals the formula of a condition is built, and what it says is enough to satisfy it. -/
theorem exists_waitSignalOf (hsig : trace.allSignal[cond]? = some signals) (hsignals : signals ≠ []) (hwaits : waits ≠ []) :
    ∃ part, waitSignalOf trace cond waits = some part ∧
      (MapConstraints trace σ cond signals waits → Satisfies σ part) := by
  obtain ⟨perSignal, hps, hperSignal⟩ := exists_mapM (f := sumOfSignal trace cond waits)
    (P := fun f => MapConstraints trace σ cond signals waits → f.Holds σ) (l := signals) (by
      intro signal hs
      obtain ⟨sum, hsum⟩ := @exists_makeExprsSum (waits.map fun wl => mapWaitSignal trace cond wl.wait signal)
        (by simpa using hwaits)
      refine ⟨.le sum (.val 1), by rw [sumOfSignal, hsum]; rfl, fun c => ?_⟩
      have hle := c.perSignal signal hs
      rw [holds_le, eval_val, makeExprsSum_eval hsum, List.map_map]
      exact hle)
  obtain ⟨perWait, hpw, hperWait⟩ := exists_mapM (f := sumOfWait trace cond signals)
    (P := fun f => MapConstraints trace σ cond signals waits → f.Holds σ) (l := waits) (by
      intro wl hwl
      obtain ⟨sum, hsum⟩ := @exists_makeExprsSum (signals.map fun signal => mapWaitSignal trace cond wl.wait signal)
        (by simpa using hsignals)
      refine ⟨.le (.val 1) sum, by rw [sumOfWait, hsum]; rfl, fun c => ?_⟩
      have hle := c.perWait wl hwl
      rw [holds_le, eval_val, makeExprsSum_eval hsum, List.map_map]
      exact hle)
  refine ⟨_, by rw [waitSignalOf, hsig, Option.bind_eq_bind, Option.bind_some, hps, hpw]; rfl, fun c => ?_⟩
  rw [satisfies_append, satisfies_append, satisfies_append, satisfies_flatMap, satisfies_flatMap]
  refine ⟨⟨⟨fun wl hwl => ?_, fun f hf => hperSignal f hf c⟩, fun f hf => hperWait f hf c⟩, fun wl hwl => ?_⟩
  · exact satisfies_possibleMap.mpr ⟨c.possible wl hwl, c.range wl hwl⟩
  · refine satisfies_map.mpr fun signal hs => ?_
    obtain ⟨hmem, htid⟩ := List.mem_filter.mp hs
    exact c.wiped wl hwl signal hmem (by simpa using htid)

end Formula

/-! ### Matchings -/

/-- An injective map from the waits of each condition to its signals: each wait is mapped to a signal of another
    thread that lies between the wait and the lock at its end. -/
structure Matching (trace : Trace) (σ : Assignment V) (f : String → WaitLock → Event) : Prop where
  signal : ∀ {cond : String} {wl : WaitLock}, wl ∈ trace.allWait.getD cond [] →
    f cond wl ∈ trace.allSignal.getD cond []
  thread : ∀ {cond : String} {wl : WaitLock}, wl ∈ trace.allWait.getD cond [] →
    (f cond wl).threadId ≠ wl.wait.threadId
  between : ∀ {cond : String} {wl : WaitLock}, wl ∈ trace.allWait.getD cond [] →
    σ.int (trace.eventName wl.wait) < σ.int (trace.eventName (f cond wl)) ∧
    σ.int (trace.eventName (f cond wl)) < σ.int (trace.eventName wl.lockByWait)
  injective : ∀ {cond : String} {wl wl' : WaitLock}, wl ∈ trace.allWait.getD cond [] →
    wl' ∈ trace.allWait.getD cond [] → f cond wl = f cond wl' → wl = wl'

theorem two_le_sum {α : Type} {l : List α} {g : α → Int} (hnonneg : ∀ x ∈ l, 0 ≤ g x) {a b : α} (ha : a ∈ l)
    (hb : b ∈ l) (hab : a ≠ b) (hga : g a = 1) (hgb : g b = 1) : 2 ≤ (l.map g).sum := by
  obtain ⟨l₁, l₂, rfl⟩ := List.append_of_mem ha
  have hb' : b ∈ l₁ ++ l₂ := by
    rcases List.mem_append.mp hb with h | h
    · exact List.mem_append_left _ h
    · exact List.mem_append_right _ ((List.mem_cons.mp h).resolve_left hab.symm)
  have hnonneg' : ∀ x ∈ l₁ ++ l₂, 0 ≤ g x := fun x hx => hnonneg x (by
    rcases List.mem_append.mp hx with h | h <;> simp [h])
  have hle : g b ≤ ((l₁ ++ l₂).map g).sum :=
    List.single_le_sum (List.forall_mem_map.mpr hnonneg') _ (List.mem_map_of_mem hb')
  simp only [List.map_append, List.sum_append, List.map_cons, List.sum_cons] at hle ⊢
  omega

/-- Variables that satisfy the constraints of a condition pick a signal for each wait, no signal twice. -/
theorem MapConstraints.exists_match {trace : Trace} {σ : Assignment V} {cond : String} {signals : List Event}
    {waits : List WaitLock} (c : MapConstraints trace σ cond signals waits) :
    ∃ f : WaitLock → Event, (∀ wl ∈ waits, f wl ∈ signals ∧ (f wl).threadId ≠ wl.wait.threadId ∧
      σ.int (trace.eventName wl.wait) < σ.int (trace.eventName (f wl)) ∧
      σ.int (trace.eventName (f wl)) < σ.int (trace.eventName wl.lockByWait)) ∧
      ∀ wl ∈ waits, ∀ wl' ∈ waits, f wl = f wl' → wl = wl' := by
  have hsome : ∀ wl ∈ waits, ∃ signal ∈ otherSignals wl signals,
      (σ.int (trace.eventName wl.wait) < σ.int (trace.eventName signal) ∧
        σ.int (trace.eventName signal) < σ.int (trace.eventName wl.lockByWait)) ∧
      σ.int (mapName trace cond wl.wait signal) = 1 := by
    intro wl hwl
    refine c.possible wl hwl fun hnil => ?_
    -- without signals of other threads all variables of the wait are wiped, yet their sum is positive
    have hzero : (signals.map fun signal => σ.int (mapName trace cond wl.wait signal)).sum = 0 := by
      refine List.sum_eq_zero fun x hx => ?_
      obtain ⟨signal, hs, rfl⟩ := List.mem_map.mp hx
      refine c.wiped wl hwl signal hs ?_
      by_contra htid
      have hmem : signal ∈ otherSignals wl signals := List.mem_filter.mpr ⟨hs, by simpa using htid⟩
      rw [hnil] at hmem
      cases hmem
    have := c.perWait wl hwl
    omega
  have hnonneg : ∀ wl ∈ waits, ∀ signal ∈ signals, 0 ≤ σ.int (mapName trace cond wl.wait signal) := by
    intro wl hwl signal hs
    by_cases htid : signal.threadId = wl.wait.threadId
    · exact (c.wiped wl hwl signal hs htid).ge
    · exact (c.range wl hwl signal (List.mem_filter.mpr ⟨hs, by simpa using htid⟩)).1
  choose! f hf hbetween hone using hsome
  have hmem : ∀ wl ∈ waits, f wl ∈ signals := fun wl hwl => (List.mem_filter.mp (hf wl hwl)).1
  refine ⟨f, fun wl hwl => ⟨hmem wl hwl, by simpa using (List.mem_filter.mp (hf wl hwl)).2, hbetween wl hwl⟩, ?_⟩
  intro wl hwl wl' hwl' heq
  by_contra hne
  have htwo := two_le_sum (fun w hw => hnonneg w hw (f wl) (hmem wl hwl)) hwl hwl' hne (hone wl hwl)
    (heq ▸ hone wl' hwl')
  have := c.perSignal (f wl) (hmem wl hwl)
  omega

/-- A map that is injective on a list hits a value at most once. -/
theorem sum_indicator_le_one {α β : Type} [DecidableEq β] {l : List α} (hnodup : l.Nodup) {f : α → β} {b : β}
    (hinj : ∀ x ∈ l, ∀ y ∈ l, f x = f y → x = y) : (l.map fun x => if f x = b then (1 : Int) else 0).sum ≤ 1 := by
  induction l with
  | nil => simp
  | cons a l ih =>
    obtain ⟨ha, hl⟩ := List.nodup_cons.mp hnodup
    have ih := ih hl fun x hx y hy => hinj x (List.mem_cons_of_mem _ hx) y (List.mem_cons_of_mem _ hy)
    rw [List.map_cons, List.sum_cons]
    by_cases hab : f a = b
    · have hzero : (l.map fun x => if f x = b then (1 : Int) else 0).sum = 0 := by
        refine List.sum_eq_zero fun z hz => ?_
        obtain ⟨x, hx, rfl⟩ := List.mem_map.mp hz
        rw [if_neg]
        intro hxb
        exact ha (hinj a List.mem_cons_self x (List.mem_cons_of_mem _ hx) (hab.trans hxb.symm) ▸ hx)
      rw [if_pos hab, hzero]
      omega
    · rw [if_neg hab]
      omega

section Extend
variable {l : PSOListener} (h : Recorded l)
include h

/-- The variables as the graph of `f`, everything else as in `σ`. -/
theorem exists_extension (σ : Assignment V) (f : String → WaitLock → Event) : ∃ σ' : Assignment V,
    (∀ name, (∀ cond, ∀ wl ∈ l.trace.allWait.getD cond [], ∀ signal ∈ l.trace.allSignal.getD cond [],
      name ≠ mapName l.trace cond wl.wait signal) → σ'.int name = σ.int name) ∧
    σ'.bool = σ.bool ∧ σ'.value = σ.value ∧
    ∀ cond, ∀ wl ∈ l.trace.allWait.getD cond [], ∀ signal ∈ l.trace.allSignal.getD cond [],
      σ'.int (mapName l.trace cond wl.wait signal) = if f cond wl = signal then 1 else 0 := by
  classical
  have waits := recorded_waitTable h
  have signals := recorded_signalTable h
  obtain ⟨g, hg⟩ := @exists_values String Int _
    (fun name v => ∃ (cond : String) (wl : WaitLock) (signal : Event), wl ∈ l.trace.allWait.getD cond [] ∧
      signal ∈ l.trace.allSignal.getD cond [] ∧ name = mapName l.trace cond wl.wait signal ∧
      v = if f cond wl = signal then 1 else 0) (by
    rintro name v v' ⟨cond, wl, signal, hwl, hs, rfl, rfl⟩ ⟨cond', wl', signal', hwl', hs', heq, rfl⟩
    obtain ⟨rfl, hwait, rfl⟩ := mapName_inj h (waits.entry hwl).1 (waits.entry hwl').1 (signals.entry hs)
      (signals.entry hs') heq
    have hnodup := List.pairwise_map.mpr (waits.pairwise cond)
    rw [List.inj_on_of_nodup_map hnodup hwl hwl' (by rw [hwait])])
  refine ⟨{ σ with int := fun name => if ∃ cond, ∃ wl ∈ l.trace.allWait.getD cond [],
      ∃ signal ∈ l.trace.allSignal.getD cond [], name = mapName l.trace cond wl.wait signal then g name else σ.int name },
    ?_, rfl, rfl, ?_⟩
  · intro name hname
    dsimp only
    rw [if_neg]
    rintro ⟨cond, wl, hwl, signal, hs, rfl⟩
    exact hname cond wl hwl signal hs rfl
  · intro cond wl hwl signal hs
    dsimp only
    rw [if_pos ⟨cond, wl, hwl, signal, hs, rfl⟩]
    exact hg ⟨cond, wl, signal, hwl, hs, rfl, rfl⟩

/-- The graph of a matching satisfies the constraints of a condition. -/
theorem Matching.mapConstraints {σ σ' : Assignment V} {f : String → WaitLock → Event} (hf : Matching l.trace σ f) (cond : String)
    (hname : ∀ {t : Nat} {event : Event}, event ∈ l.trace.thread t →
      σ'.int (l.trace.eventName event) = σ.int (l.trace.eventName event))
    (hgraph : ∀ wl ∈ l.trace.allWait.getD cond [], ∀ signal ∈ l.trace.allSignal.getD cond [],
      σ'.int (mapName l.trace cond wl.wait signal) = if f cond wl = signal then 1 else 0) :
    MapConstraints l.trace σ' cond (l.trace.allSignal.getD cond []) (l.trace.allWait.getD cond []) := by
  have waits := recorded_waitTable h
  have signals := recorded_signalTable h
  have hindicator : ∀ wl ∈ l.trace.allWait.getD cond [], ∀ signal ∈ l.trace.allSignal.getD cond [],
      0 ≤ σ'.int (mapName l.trace cond wl.wait signal) ∧ σ'.int (mapName l.trace cond wl.wait signal) ≤ 1 := by
    intro wl hwl signal hs
    rw [hgraph wl hwl signal hs]
    split <;> decide
  refine ⟨?_, ?_, ?_, ?_, ?_⟩
  · intro wl hwl _
    refine ⟨f cond wl, List.mem_filter.mpr ⟨hf.signal hwl, by simpa using hf.thread hwl⟩, ?_, ?_⟩
    · rw [hname (waits.entry hwl).1.1, hname (waits.entry hwl).2.1, hname (signals.entry (hf.signal hwl)).1]
      exact hf.between hwl
    · rw [hgraph wl hwl _ (hf.signal hwl), if_pos rfl]
  · exact fun wl hwl signal hs => hindicator wl hwl signal (List.mem_filter.mp hs).1
  · intro signal hs
    have hnodup : (l.trace.allWait.getD cond []).Nodup :=
      (waits.pairwise cond).imp fun {a b} hne (heq : a = b) => hne (by rw [heq])
    rw [List.map_congr_left fun wl hwl => hgraph wl hwl signal hs]
    exact sum_indicator_le_one hnodup fun x hx y hy => hf.injective hx hy
  · intro wl hwl
    have hle := List.single_le_sum (l := (l.trace.allSignal.getD cond []).map fun signal =>
      σ'.int (mapName l.trace cond wl.wait signal)) (List.forall_mem_map.mpr fun s hs => (hindicator wl hwl s hs).1) _
      (List.mem_map_of_mem (hf.signal hwl))
    rw [hgraph wl hwl _ (hf.signal hwl), if_pos rfl] at hle
    exact hle
  · intro wl hwl signal hs htid
    rw [hgraph wl hwl signal hs, if_neg]
    intro heq
    exact hf.thread hwl (heq ▸ htid)

end Extend

/-- A schedule that satisfies the formula has a matching. -/
theorem exists_matching {trace : Trace} {σ : Assignment V} {fs : List Formula} (hfs : waitSignalFormula trace = some fs)
    (hσ : Satisfies σ fs) : ∃ f, Matching trace σ f := by
  obtain ⟨parts, hparts, rfl⟩ : ∃ parts, trace.allWait.toList.mapM
      (fun entry => waitSignalOf trace entry.1 entry.2) = some parts ∧ parts.flatten = fs := by
    unfold waitSignalFormula at hfs
    cases hparts : trace.allWait.toList.mapM fun entry => waitSignalOf trace entry.1 entry.2 with
    | none => rw [hparts] at hfs; cases hfs
    | some parts => exact ⟨parts, rfl, by rw [hparts] at hfs; exact Option.some.inj hfs⟩
  have hcond : ∀ cond, ∃ f : WaitLock → Event, (∀ wl ∈ trace.allWait.getD cond [],
      f wl ∈ trace.allSignal.getD cond [] ∧ (f wl).threadId ≠ wl.wait.threadId ∧
      σ.int (trace.eventName wl.wait) < σ.int (trace.eventName (f wl)) ∧
      σ.int (trace.eventName (f wl)) < σ.int (trace.eventName wl.lockByWait)) ∧
      ∀ wl ∈ trace.allWait.getD cond [], ∀ wl' ∈ trace.allWait.getD cond [], f wl = f wl' → wl = wl' := by
    intro cond
    cases hget : trace.allWait[cond]? with
    | none =>
      have hnil : trace.allWait.getD cond [] = [] := by rw [TreeMap.getD_eq_getD_getElem?, hget]; rfl
      rw [hnil]
      exact ⟨fun _ => default, by simp, by simp⟩
    | some waits =>
      rw [getD_of_getElem? hget]
      obtain ⟨part, hpart, hof⟩ := mapM_mem hparts (TreeMap.mem_toList_iff_getElem?_eq_some.mpr hget)
      obtain ⟨signals, hsig, hconstraints⟩ := @waitSignalOf_inv V trace σ cond waits part hof
      rw [getD_of_getElem? hsig]
      refine (hconstraints fun formula hformula => hσ formula ?_).exists_match
      exact List.mem_flatten.mpr ⟨part, hpart, hformula⟩
  choose f hf hinj using hcond
  exact ⟨f, fun hwl => (hf _ _ hwl).1, fun hwl => (hf _ _ hwl).2.1, fun hwl => (hf _ _ hwl).2.2,
    fun hwl hwl' => hinj _ _ hwl _ hwl'⟩

/-- The wait and signal formula of a recorded trace encodes injective matchings: a schedule that satisfies it has
    one, and each one is the graph of variables that satisfy it without touching the rest of the schedule. -/
theorem waitSignalFormula_matching {l : PSOListener} (h : Recorded l) (σ : Assignment V) :
    (∀ fs, waitSignalFormula l.trace = some fs → Satisfies σ fs → ∃ f, Matching l.trace σ f) ∧
    (∀ f, Matching l.trace σ f → ∃ fs σ', waitSignalFormula l.trace = some fs ∧ Satisfies σ' fs ∧
      (∀ name, (∀ cond, ∀ wl ∈ l.trace.allWait.getD cond [], ∀ signal ∈ l.trace.allSignal.getD cond [],
        name ≠ mapName l.trace cond wl.wait signal) → σ'.int name = σ.int name) ∧
      σ'.bool = σ.bool ∧ σ'.value = σ.value ∧
      (∀ event ∈ l.trace.threads.flatten, σ'.int (l.trace.eventName event) = σ.int (l.trace.eventName event)) ∧
      ∀ cond, ∀ wl ∈ l.trace.allWait.getD cond [], ∀ signal ∈ l.trace.allSignal.getD cond [],
        σ'.int (mapName l.trace cond wl.wait signal) = if f cond wl = signal then 1 else 0) := by
  constructor
  · exact fun fs hfs hσ => exists_matching hfs hσ
  · intro f hf
    obtain ⟨σ', hother, hbool, hvalue, hgraph⟩ := exists_extension h σ f
    have hname : ∀ {t : Nat} {event : Event}, event ∈ l.trace.thread t →
        σ'.int (l.trace.eventName event) = σ.int (l.trace.eventName event) := fun hevent =>
      hother _ fun cond wl _ signal _ => eventName_ne_mapName h hevent
    obtain ⟨parts, hparts, hsat⟩ := exists_mapM
      (f := fun entry : String × List WaitLock => waitSignalOf l.trace entry.1 entry.2) (P := Satisfies σ') (l := l.trace.allWait.toList) (by
        rintro ⟨cond, waits⟩ hentry
        rw [TreeMap.mem_toList_iff_getElem?_eq_some] at hentry
        have hwaits := (recorded_waitTable h).nonempty hentry
        have hget := getD_of_getElem? hentry
        obtain ⟨wl, hwl⟩ := List.exists_mem_of_ne_nil waits hwaits
        have hsignal := hf.signal (hget ▸ hwl)
        cases hsig : l.trace.allSignal[cond]? with
        | none =>
          rw [TreeMap.getD_eq_getD_getElem?, hsig] at hsignal
          cases hsignal
        | some signals =>
          obtain ⟨part, hpart, himp⟩ := @exists_waitSignalOf V l.trace σ' cond signals waits hsig
            ((recorded_signalTable h).nonempty hsig) hwaits
          have hconstraints := hf.mapConstraints h cond hname (hgraph cond)
          rw [hget, getD_of_getElem? hsig] at hconstraints
          exact ⟨part, hpart, himp hconstraints⟩)
    refine ⟨parts.flatten, σ', by rw [waitSignalFormula, hparts]; rfl, ?_, hother, hbool, hvalue, ?_, hgraph⟩
    · intro formula hformula
      obtain ⟨part, hpart, hmem⟩ := List.mem_flatten.mp hformula
      exact hsat part hpart formula hmem
    · intro event hevent
      obtain ⟨t, ht⟩ := mem_threads_flatten.mp hevent
      exact hname ht

/-- One wait that one signal of another thread ends. -/
def waitRun : PSOListener :=
  PSOListener.record []
    [(1, { inst := .call (.pthreadMutexLock ⟨9, 90, true⟩) }, none),
      (1, { inst := .call (.pthreadCondWait ⟨8, 80, true⟩ ⟨9, 90, true⟩) }, none),
      (2, { inst := .call (.pthreadCondSignal ⟨8, 80, true⟩) }, none)]

def waitSchedule : Assignment Unit where
  int name := if name = "E0" then 1 else if name = "E1" then 2 else if name = "E3" then 3 else if name = "E2" then 4
    else if name = "G8_80_E1_E3" then 1 else 0
  bool _ := false
  value _ := ()

theorem exists_matching_waitRun : ∃ f, Matching waitRun.trace waitSchedule f :=
  (waitSignalFormula_matching (l := waitRun) (record_recorded _ _) waitSchedule).1
    ((waitSignalFormula waitRun.trace).get (by decide +kernel)) (by simp) (by decide +kernel)

/-! ### Barriers -/

section
variable {trace : Trace} {σ : Assignment V}

theorem satisfies_barrierOrders {events : List Event} {fs : List Formula} (hfs : barrierOrders trace events = some fs) :
    Satisfies σ fs ↔ events.Pairwise fun a b => position σ trace a = position σ trace b := by
  induction events generalizing fs with
  | nil =>
    cases hfs
    exact iff_of_true (by simp) .nil
  | cons one rest ih =>
    cases rest with
    | nil =>
      cases hfs
      exact iff_of_true (by simp) (List.pairwise_singleton _ _)
    | cons two rest =>
      rw [barrierOrders, Option.ite_none_left_eq_some] at hfs
      obtain ⟨orders, horders, hfs⟩ := Option.bind_eq_some_iff.mp hfs.2
      obtain rfl := Option.some.inj hfs
      rw [satisfies_cons, ih horders, List.pairwise_cons (a := one)]
      refine ⟨fun h => ⟨fun b hb => ?_, h.2⟩, fun h => ⟨h.1 two List.mem_cons_self, h.2⟩⟩
      have heq : position σ trace one = position σ trace two := h.1
      rcases List.mem_cons.mp hb with rfl | hb
      · exact heq
      · exact heq.trans ((List.pairwise_cons.mp h.2).1 b hb)

/-- The events of one generation of a barrier share their position. -/
theorem satisfies_barrierFormula {fs : List Formula} (hfs : barrierFormula trace = some fs) : Satisfies σ fs ↔
    ∀ name, (trace.allBarrier.getD name []).Pairwise fun a b => position σ trace a = position σ trace b := by
  obtain ⟨parts, hparts, hfs⟩ := Option.bind_eq_some_iff.mp hfs
  obtain rfl := Option.some.inj hfs
  constructor
  · intro h name
    refine forall_getD .nil (fun entry hentry => ?_) name
    obtain ⟨part, hpart, horders⟩ := mapM_mem hparts hentry
    exact (satisfies_barrierOrders horders).mp fun f hf => h f (List.mem_flatten.mpr ⟨part, hpart, hf⟩)
  · intro h f hf
    obtain ⟨part, hpart, hmem⟩ := List.mem_flatten.mp hf
    obtain ⟨entry, hentry, horders⟩ := mem_mapM hparts hpart
    have hevents := h entry.1
    rw [getD_of_getElem? (TreeMap.mem_toList_iff_getElem?_eq_some.mp hentry)] at hevents
    exact (satisfies_barrierOrders horders).mpr hevents f hmem

/-- A schedule that satisfies all synchronization: no thread with an unlock overlaps another one in a mutex, each wait has
    a signal of its own, and a generation of a barrier goes on at once. -/
theorem buildSynchronizeFormula_sound {fs : List Formula} (hfs : buildSynchronizeFormula trace = some fs) (hσ : Satisfies σ fs) :
    (∀ mutex, (trace.allLockUnlock.getD mutex []).Pairwise fun one two =>
        one.unlockEvent ≠ none → one.threadId ≠ two.threadId → Excluded trace σ one two) ∧
      (∃ f, Matching trace σ f) ∧
      ∀ name, (trace.allBarrier.getD name []).Pairwise fun a b => position σ trace a = position σ trace b := by
  obtain ⟨waitSignal, hwaitSignal, hfs⟩ := Option.bind_eq_some_iff.mp hfs
  obtain ⟨barrier, hbarrier, hfs⟩ := Option.bind_eq_some_iff.mp hfs
  obtain rfl := Option.some.inj hfs
  rw [satisfies_append, satisfies_append] at hσ
  exact ⟨satisfies_lockFormula.mp hσ.1.1, exists_matching hwaitSignal hσ.1.2, (satisfies_barrierFormula hbarrier).mp hσ.2⟩

end

end Encode

end CapTaint
