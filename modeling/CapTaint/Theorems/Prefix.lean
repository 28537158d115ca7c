import CapTaint.Theorems.Granularity

/-! # The prefix of a negated branch

`computePrefix` cuts every thread at the branch and merges the pieces by the order of the model. Within a
thread the order never decreases, so the cut is a prefix of the thread and the sort does not disturb it. The cut looks
every event up in the table of names, which lacks the name of a thread that is one block. -/

namespace CapTaint
open Std Smt

/-! ### The events of one thread -/

/-- The list that a table of lists has at a key is what the class of that key is in the joined lists. -/
theorem filter_flatten_of_key {table : List (Nat × List Event)} {t : Nat} (hdist : table.Pairwise fun p q => p.1 ≠ q.1)
    (hkey : ∀ p ∈ table, ∀ event ∈ p.2, event.threadId = p.1) {events : List Event} (hmem : (t, events) ∈ table) :
    ((table.map (·.2)).flatten.filter fun event => event.threadId = t) = events := by
  have hother : ∀ p ∈ table, p.1 ≠ t → (p.2.filter fun event => decide (event.threadId = t)) = [] := by
    intro p hp hne
    refine List.filter_eq_nil_iff.mpr fun event hevent => ?_
    rw [hkey p hp event hevent]
    simpa using hne
  obtain ⟨l₁, l₂, rfl⟩ := List.append_of_mem hmem
  obtain ⟨-, h₂, hcross⟩ := List.pairwise_append.mp hdist
  rw [List.pairwise_cons] at h₂
  have hnil : ∀ l : List (Nat × List Event), (∀ p ∈ l, p ∈ l₁ ++ (t, events) :: l₂) → (∀ p ∈ l, p.1 ≠ t) →
      ((l.map (·.2)).flatten.filter fun event => decide (event.threadId = t)) = [] := by
    intro l hsub hne
    rw [List.filter_flatten, List.flatten_eq_nil_iff]
    intro es hes
    simp only [List.map_map, List.mem_map] at hes
    obtain ⟨p, hp, rfl⟩ := hes
    exact hother p (hsub p hp) (hne p hp)
  have hself : (events.filter fun event => decide (event.threadId = t)) = events :=
    List.filter_eq_self.mpr fun event hevent => by simpa using hkey _ hmem event hevent
  rw [List.map_append, List.flatten_append, List.filter_append, List.map_cons, List.flatten_cons, List.filter_append,
    hnil l₁ (fun p hp => List.mem_append_left _ hp) (fun p hp => hcross p hp _ List.mem_cons_self),
    hnil l₂ (fun p hp => List.mem_append_right _ (List.mem_cons_of_mem _ hp)) (fun p hp => (h₂.1 p hp).symm), hself]
  simp

section
variable {trace : Trace} (wf : trace.WellFormed)
include wf

theorem Trace.WellFormed.filter_threads (t : Nat) :
    (trace.threads.flatten.filter fun event => event.threadId = t) = trace.thread t := by
  cases hget : trace.eventList[t]? with
  | none =>
    have hnil : trace.thread t = [] := by rw [Trace.thread, TreeMap.getD_eq_getD_getElem?, hget]; rfl
    rw [hnil, List.filter_eq_nil_iff]
    intro event hevent hkey
    have hmem := wf.mem_of_threadId hevent
    rw [of_decide_eq_true hkey, hnil] at hmem
    cases hmem
  | some events =>
    have hdist := TreeMap.distinct_keys_toList (t := trace.eventList)
    rw [Trace.thread, getD_of_getElem? hget]
    refine filter_flatten_of_key (hdist.imp fun hne heq => hne (by simp [heq])) ?_
      (TreeMap.mem_toList_iff_getElem?_eq_some.mpr hget)
    intro p hp event hevent
    rw [TreeMap.mem_toList_iff_getElem?_eq_some] at hp
    exact wf.threadId_eq (by rwa [Trace.thread, getD_of_getElem? hp])

theorem Trace.WellFormed.nodup_thread (t : Nat) : (trace.thread t).Nodup :=
  (wf.ascending t).imp fun hlt heq => absurd hlt (by rw [heq]; exact Nat.lt_irrefl _)

theorem Trace.WellFormed.nodup_threads : trace.threads.flatten.Nodup := by
  refine List.nodup_iff_count_le_one.mpr fun event => ?_
  have hcount : (trace.thread event.threadId).count event ≤ 1 :=
    List.nodup_iff_count_le_one.mp (wf.nodup_thread _) event
  rw [← wf.filter_threads event.threadId, List.count_filter (by simp)] at hcount
  exact hcount

end

/-! ### The cut -/

theorem filter_eq_takeWhile {α : Type} {p : α → Bool} {l : List α}
    (h : l.Pairwise fun a b => p b = true → p a = true) : l.filter p = l.takeWhile p := by
  induction l with
  | nil => rfl
  | cons a l ih =>
    obtain ⟨ha, hl⟩ := List.pairwise_cons.mp h
    by_cases hp : p a = true
    · rw [List.filter_cons_of_pos hp, List.takeWhile_cons_of_pos hp, ih hl]
    · rw [List.filter_cons_of_neg hp, List.takeWhile_cons_of_neg hp, List.filter_eq_nil_iff]
      exact fun b hb hpb => hp (ha b hb hpb)

namespace Encode
variable {V : Type} {trace : Trace} {m : Assignment V} {ifEvent : Event}

/-- Two events of a thread in program order: the model order does not decrease. -/
theorem modelOrder_le (wf : trace.WellFormed) (hm : Satisfies m (buildMemoryModelFormula trace)) {t : Nat} {a b : Event}
    (ha : a ∈ trace.thread t) (hb : b ∈ trace.thread t) (hle : a.eventId ≤ b.eventId) :
    trace.eventName a = trace.eventName b ∨ modelOrder trace m a < modelOrder trace m b := by
  rcases Nat.lt_or_eq_of_le hle with hlt | heq
  · obtain ⟨l₁, l₂, hsplit, hb₂⟩ := exists_split (wf.ascending t) ha hb hlt
    have hpair := satisfies_pairwise hm t
    rw [hsplit] at hpair
    exact List.rel_of_pairwise_cons (List.pairwise_append.mp hpair).2.1 hb₂
  · rw [wf.event_eq ha hb heq]
    exact .inl rfl

/-- On the thread of the branch the three conditions cut behind the branch. -/
theorem keepEvent_own (wf : trace.WellFormed) (hm : Satisfies m (buildMemoryModelFormula trace)) {event : Event}
    (hif : ifEvent ∈ trace.thread ifEvent.threadId) (hevent : event ∈ trace.thread ifEvent.threadId) :
    keepEvent trace m ifEvent event = true ↔ event.eventType ≠ .virtual ∧ event.eventId ≤ ifEvent.eventId := by
  have htid : event.threadId = ifEvent.threadId := wf.threadId_eq hevent
  have hkeep : keepEvent trace m ifEvent event = true ↔ event.eventType ≠ .virtual ∧
      ¬modelOrder trace m ifEvent < modelOrder trace m event ∧
      ¬(trace.eventName event = trace.eventName ifEvent ∧ ifEvent.eventId < event.eventId) := by
    simp [keepEvent, htid, and_assoc, imp_iff_not_or]
  rw [hkeep]
  refine and_congr_right fun _ => ⟨fun ⟨horder, hname⟩ => ?_, fun hle => ?_⟩
  · by_contra hgt
    have hlt : ifEvent.eventId < event.eventId := Nat.lt_of_not_le hgt
    rcases modelOrder_le wf hm hif hevent hlt.le with heq | hord
    · exact hname ⟨heq.symm, hlt⟩
    · exact horder hord
  · refine ⟨fun hord => ?_, fun h => absurd h.2 (Nat.not_lt.mpr hle)⟩
    rcases modelOrder_le wf hm hevent hif hle with heq | hlt
    · unfold modelOrder at hord
      rw [heq] at hord
      exact lt_irrefl _ hord
    · exact lt_asymm hord hlt

/-- On another thread they keep what the model puts strictly before the branch. -/
theorem keepEvent_other (wf : trace.WellFormed) {event : Event} {t : Nat} (hif : ifEvent ∈ trace.thread ifEvent.threadId)
    (hevent : event ∈ trace.thread t) (hne : t ≠ ifEvent.threadId) :
    keepEvent trace m ifEvent event = true ↔
      event.eventType ≠ .virtual ∧ modelOrder trace m event < modelOrder trace m ifEvent := by
  have htid : event.threadId ≠ ifEvent.threadId := (wf.threadId_eq hevent).symm ▸ hne
  have hname := wf.eventName_ne hevent hif hne
  simp only [keepEvent, htid, hname, Bool.and_eq_true, Bool.not_eq_true', decide_eq_false_iff_not,
    decide_false, decide_true, Bool.and_true, Bool.false_and, Bool.not_false, ne_eq, not_false_eq_true, and_assoc]
  refine and_congr_right fun _ => ?_
  omega

/-- What is kept of a thread is kept up to a point of the thread. -/
theorem keepEvent_downward (wf : trace.WellFormed) (hm : Satisfies m (buildMemoryModelFormula trace))
    (hif : ifEvent ∈ trace.thread ifEvent.threadId) (t : Nat) :
    ((trace.thread t).filter fun event => event.eventType ≠ .virtual).Pairwise fun a b =>
      keepEvent trace m ifEvent b = true → keepEvent trace m ifEvent a = true := by
  refine ((wf.ascending t).filter _).imp_of_mem fun {a b} ha hb hlt hkeep => ?_
  rw [List.mem_filter, decide_eq_true_eq] at ha hb
  by_cases hne : t = ifEvent.threadId
  · subst hne
    rw [keepEvent_own wf hm hif hb.1] at hkeep
    rw [keepEvent_own wf hm hif ha.1]
    exact ⟨ha.2, hlt.le.trans hkeep.2⟩
  · rw [keepEvent_other wf hif hb.1 hne] at hkeep
    rw [keepEvent_other wf hif ha.1 hne]
    refine ⟨ha.2, ?_⟩
    rcases modelOrder_le wf hm ha.1 hb.1 hlt.le with heq | hord
    · unfold modelOrder at hkeep ⊢
      rw [heq]
      exact hkeep.2
    · exact hord.trans hkeep.2

theorem filter_kept (wf : trace.WellFormed) (t : Nat) :
    ((trace.threads.flatten.filter (keepEvent trace m ifEvent)).filter fun event => event.threadId = t) =
      ((trace.thread t).filter fun event => event.eventType ≠ .virtual).filter (keepEvent trace m ifEvent) := by
  rw [← wf.filter_threads t, List.filter_filter, List.filter_filter, List.filter_filter]
  refine List.filter_congr fun event _ => ?_
  cases hvirtual : decide (event.eventType = .virtual) <;>
    simp_all [keepEvent, Bool.and_comm]

/-! ### The prefix -/

/-- A schedule up to `ifEvent`: it takes from the thread of `ifEvent` what stands up to it, from the other threads
    what the model orders strictly before it, keeps each thread's program order without gaps, follows the model
    order and ends with `ifEvent`. Virtual events are left out throughout. -/
structure PrefixUpTo (trace : Trace) (m : Assignment V) (ifEvent : Event) (vecEvent : List Event) : Prop where
  nodup : vecEvent.Nodup
  recorded : ∀ {event : Event}, event ∈ vecEvent → event ∈ trace.thread event.threadId
  own : ∀ {before after : List Event}, trace.thread ifEvent.threadId = before ++ ifEvent :: after →
    ∀ event ∈ trace.thread ifEvent.threadId,
      event ∈ vecEvent ↔ event.eventType ≠ .virtual ∧ event ∈ before ++ [ifEvent]
  others : ∀ {t : Nat}, t ≠ ifEvent.threadId → ∀ event ∈ trace.thread t,
    event ∈ vecEvent ↔ event.eventType ≠ .virtual ∧ modelOrder trace m event < modelOrder trace m ifEvent
  contiguous : ∀ t, (vecEvent.filter fun event => event.threadId = t) <+:
    (trace.thread t).filter fun event => event.eventType ≠ .virtual
  sorted : vecEvent.Pairwise fun a b => modelOrder trace m a ≤ modelOrder trace m b
  last : vecEvent.getLast? = some ifEvent

section Computed
variable (wf : trace.WellFormed) (hm : Satisfies m (buildMemoryModelFormula trace))
  (hif : ifEvent ∈ trace.thread ifEvent.threadId) (hreal : ifEvent.eventType ≠ .virtual)
include wf hm hif hreal

/-- Everything the sort is handed: the kept events of all threads. -/
theorem sorted_prefixUpTo : PrefixUpTo trace m ifEvent
    (BubbleSort.bubbleSort (modelOrder trace m) (trace.threads.flatten.filter (keepEvent trace m ifEvent))) := by
  have hperm : (BubbleSort.bubbleSort (modelOrder trace m) (trace.threads.flatten.filter (keepEvent trace m ifEvent))).Perm
      (trace.threads.flatten.filter (keepEvent trace m ifEvent)) := BubbleSort.bubbleSort_perm
  have hsorted : (BubbleSort.bubbleSort (modelOrder trace m)
      (trace.threads.flatten.filter (keepEvent trace m ifEvent))).Pairwise _ := BubbleSort.bubbleSort_sorted
  -- the sort leaves each thread alone, since the order does not decrease along a thread
  have hfilter : ∀ t, ((BubbleSort.bubbleSort (modelOrder trace m)
      (trace.threads.flatten.filter (keepEvent trace m ifEvent))).filter fun event => event.threadId = t) =
      ((trace.thread t).filter fun event => event.eventType ≠ .virtual).filter (keepEvent trace m ifEvent) := by
    intro t
    rw [BubbleSort.bubbleSort_filter, filter_kept wf]
    rw [filter_kept wf]
    refine (((satisfies_pairwise hm t).filter _).filter _).imp fun {a b} hab => ?_
    unfold modelOrder
    rcases hab with heq | hlt
    · rw [heq]
    · exact hlt.le
  generalize BubbleSort.bubbleSort (modelOrder trace m) (trace.threads.flatten.filter (keepEvent trace m ifEvent)) =
    vecEvent at hperm hsorted hfilter
  have hmem : ∀ {t : Nat} {event : Event}, event ∈ trace.thread t →
      (event ∈ vecEvent ↔ keepEvent trace m ifEvent event = true) := by
    intro t event hevent
    rw [hperm.mem_iff, List.mem_filter]
    exact and_iff_right (mem_threads_flatten.mpr ⟨t, hevent⟩)
  have hrecorded : ∀ {event : Event}, event ∈ vecEvent → event ∈ trace.thread event.threadId := fun hevent =>
    wf.mem_of_threadId (List.mem_filter.mp (hperm.mem_iff.mp hevent)).1
  refine ⟨?_, hrecorded, ?_, ?_, ?_, hsorted, ?_⟩
  · exact hperm.nodup_iff.mpr (wf.nodup_threads.filter _)
  · intro before after hsplit event hevent
    rw [hmem hevent, keepEvent_own wf hm hif hevent]
    refine and_congr_right fun _ => ?_
    have hasc := wf.ascending ifEvent.threadId
    rw [hsplit] at hasc hevent
    obtain ⟨-, htail, hcross⟩ := List.pairwise_append.mp hasc
    rw [List.mem_append, List.mem_singleton]
    constructor
    · intro hle
      rcases List.mem_append.mp hevent with hb | hb
      · exact .inl hb
      rcases List.mem_cons.mp hb with rfl | hb
      · exact .inr rfl
      · exact absurd (List.rel_of_pairwise_cons htail hb) (Nat.not_lt.mpr hle)
    · rintro (hb | rfl)
      · exact (hcross event hb ifEvent List.mem_cons_self).le
      · exact le_rfl
  · intro t hne event hevent
    rw [hmem hevent, keepEvent_other wf hif hevent hne]
  · intro t
    rw [hfilter t, filter_eq_takeWhile (keepEvent_downward wf hm hif t)]
    exact List.takeWhile_prefix _
  · -- the last event has the order of the branch, so it is of its thread, where the branch is last
    have hifmem : ifEvent ∈ vecEvent := (hmem hif).mpr ((keepEvent_own wf hm hif hif).mpr ⟨hreal, le_rfl⟩)
    obtain ⟨init, z, rfl⟩ : ∃ init z, vecEvent = init ++ [z] :=
      (List.eq_nil_or_concat' vecEvent).resolve_left (List.ne_nil_of_mem hifmem)
    have hz : z ∈ init ++ [z] := by simp
    have hztid : z.threadId = ifEvent.threadId := by
      by_contra hne
      have hlt := ((keepEvent_other wf hif (hrecorded hz) hne).mp ((hmem (hrecorded hz)).mp hz)).2
      rcases List.mem_append.mp hifmem with hi | hi
      · exact absurd ((List.pairwise_append.mp hsorted).2.2 ifEvent hi z List.mem_cons_self) (Int.not_le.mpr hlt)
      · exact hne (List.mem_singleton.mp hi ▸ rfl)
    have hzle : z.eventId ≤ ifEvent.eventId :=
      ((keepEvent_own wf hm hif (hztid ▸ hrecorded hz)).mp ((hmem (hrecorded hz)).mp hz)).2
    have hasc := ((wf.ascending ifEvent.threadId).filter fun event => decide (event.eventType ≠ .virtual)).filter
      (keepEvent trace m ifEvent)
    rw [← hfilter, List.filter_append] at hasc
    rw [List.getLast?_concat, Option.some.injEq]
    rcases List.mem_append.mp hifmem with hi | hi
    · have hlt := (List.pairwise_append.mp hasc).2.2 ifEvent (List.mem_filter.mpr ⟨hi, by simp⟩) z
        (List.mem_filter.mpr ⟨List.mem_cons_self, by simpa using hztid⟩)
      omega
    · exact (List.mem_singleton.mp hi).symm

end Computed

/-- What stands before the cut is kept, so the sort is handed the branch at least. -/
theorem computePrefix_of_lookups (wf : trace.WellFormed) (hm : Satisfies m (buildMemoryModelFormula trace))
    (hif : ifEvent ∈ trace.threads.flatten) (hreal : ifEvent.eventType ≠ .virtual)
    (hlookup : ∀ event ∈ trace.threads.flatten, event.eventType ≠ .virtual → trace.eventName event ∈ eventNameInZ3 trace) :
    ∃ vecEvent, computePrefix trace m ifEvent = some vecEvent ∧ PrefixUpTo trace m ifEvent vecEvent := by
  have hmem := wf.mem_of_threadId hif
  refine ⟨_, ?_, sorted_prefixUpTo wf hm hmem hreal⟩
  unfold computePrefix
  rw [if_pos ⟨hlookup ifEvent hif hreal, hlookup⟩]
  split
  · rename_i hnil
    have hkept : ifEvent ∈ trace.threads.flatten.filter (keepEvent trace m ifEvent) :=
      List.mem_filter.mpr ⟨hif, (keepEvent_own wf hm hmem hmem).mpr ⟨hreal, le_rfl⟩⟩
    rw [hnil] at hkept
    cases hkept
  · rfl

/-- The names that the events are created with are different. -/
theorem distinctNames_created (wf : trace.WellFormed) : DistinctNames createdName trace.threads := by
  refine wf.nodup_threads.map_on fun a ha b hb heq => ?_
  exact wf.event_eq (wf.mem_of_threadId ha) (wf.mem_of_threadId hb) (createdName_inj heq)

/-- Prefix well-formedness, for every recorded trace, every model of its order constraints and every event to cut at:
    the prefix is there, and right, exactly when no thread that has an event to look up is one block. -/
theorem computePrefix_prefixUpTo_iff {l : PSOListener} (h : Recorded l)
    (hm : Satisfies m (buildMemoryModelFormula l.trace)) (hif : ifEvent ∈ l.trace.threads.flatten)
    (hreal : ifEvent.eventType ≠ .virtual) :
    (∃ vecEvent, computePrefix l.trace m ifEvent = some vecEvent ∧ PrefixUpTo l.trace m ifEvent vecEvent) ↔
      ∀ thread ∈ l.trace.threads, (∃ event ∈ thread, event.eventType ≠ .virtual) →
        ∃ c ∈ thread.dropLast, c.instOpType ≠ .normalOp := by
  have wf := recorded_wellFormed h
  have hnames := distinctNames_created wf
  constructor
  · rintro ⟨vecEvent, hsome, -⟩ thread hthread ⟨event, hevent, hvirtual⟩
    by_contra hnone
    have hflat : event ∈ l.trace.threads.flatten := List.mem_flatten.mpr ⟨thread, hthread, hevent⟩
    -- the lookup of this event stops the program
    unfold computePrefix at hsome
    rw [if_neg fun hlookup => hnone ((eventName_mem_iff hnames hthread hevent).mp (hlookup.2 event hflat hvirtual))] at hsome
    cases hsome
  · intro hblocks
    refine computePrefix_of_lookups wf hm hif hreal fun event hevent hvirtual => ?_
    obtain ⟨thread, hthread, hin⟩ := List.mem_flatten.mp hevent
    exact (eventName_mem_iff hnames hthread hin).mpr (hblocks thread hthread ⟨event, hin, hvirtual⟩)

/-- The constraints mention the position of the event. -/
def Bound (trace : Trace) (event : Event) : Prop :=
  ∃ other, .lt (order trace event) other ∈ buildMemoryModelFormula trace ∨
    .lt other (order trace event) ∈ buildMemoryModelFormula trace

/-- They do so for every event: it starts its thread, has the name of the event before it, or is a step from that. -/
theorem bound_of_mem {event : Event} (hevent : event ∈ trace.threads.flatten) : Bound trace event := by
  obtain ⟨thread, hthread, hin⟩ := List.mem_flatten.mp hevent
  obtain ⟨i, hi⟩ := List.mem_iff_getElem?.mp hin
  clear hevent hin
  induction i generalizing event with
  | zero =>
    refine ⟨.const "E_INIT", .inr ?_⟩
    obtain ⟨last, hlast⟩ : ∃ last, thread.getLast? = some last := by
      cases thread with
      | nil => cases hi
      | cons first rest => exact ⟨_, List.getLast?_eq_some_getLast (List.cons_ne_nil first rest)⟩
    have hinit : Formula.lt (.const "E_INIT") (order trace event) ∈ initialAndFinal trace thread := by
      unfold initialAndFinal
      rw [List.head?_eq_getElem?, hi, hlast]
      exact List.mem_cons_self
    unfold buildMemoryModelFormula
    simp only [List.mem_append, List.mem_flatMap]
    exact .inl (.inl (.inr ⟨thread, hthread, hinit⟩))
  | succ i ih =>
    have hlt : i + 1 < thread.length := (List.getElem?_eq_some_iff.mp hi).1
    have hprev : thread[i]? = some thread[i] := List.getElem?_eq_getElem (Nat.lt_of_succ_lt hlt)
    by_cases hname : trace.eventName thread[i] = trace.eventName event
    · have hbound := ih hprev
      unfold Bound order at hbound ⊢
      rwa [hname] at hbound
    · have hstep : (thread[i], event) ∈ nameSteps trace thread := by
        refine List.mem_filter.mpr ⟨?_, by simpa using hname⟩
        refine List.mem_iff_getElem?.mpr ⟨i, ?_⟩
        rw [List.getElem?_zip_eq_some, List.getElem?_tail]
        exact ⟨hprev, hi⟩
      refine ⟨order trace thread[i], .inr ?_⟩
      unfold buildMemoryModelFormula
      simp only [List.mem_append, List.mem_map, List.mem_flatMap]
      exact .inl (.inr ⟨_, ⟨thread, hthread, hstep⟩, rfl⟩)

/-- Two threads that write a shared variable, one of them behind a branch. -/
def branchRun : PSOListener :=
  PSOListener.record []
    [(1, { inst := .load ⟨7, 70, true⟩ false }, none), (1, { inst := .br true }, none),
      (1, { inst := .store ⟨7, 70, true⟩ false }, none), (2, { inst := .store ⟨7, 70, true⟩ false }, none),
      (2, { inst := .store ⟨7, 70, true⟩ false }, none)]

/-- The schedule that puts the first write of the second thread before the branch. -/
def branchModel : Assignment Nat where
  int name :=
    if name = "E0" then 1 else if name = "E3" then 2 else if name = "E1" then 3 else if name = "E4" then 4
    else if name = "E_FINAL" then 103 else 0
  bool _ := false
  value _ := 0

def branchEvent : Event :=
  { threadId := 1, eventId := 1, inst := .br true, eventType := .normal, isConditionIns := true, condition := true }

theorem computePrefix_branchRun :
    (∃ vecEvent, computePrefix branchRun.trace branchModel branchEvent = some vecEvent ∧
      PrefixUpTo branchRun.trace branchModel branchEvent vecEvent) ∧
    (computePrefix branchRun.trace branchModel branchEvent).map (·.map (·.eventId)) = some [0, 3, 1] :=
  ⟨(computePrefix_prefixUpTo_iff (record_recorded _ _) (by decide +kernel) (by decide +kernel) (by decide)).mpr
      (by decide +kernel),
    by decide +kernel⟩

/-- The order in which the events of `idleThread` were recorded. -/
def idleModel : Assignment Nat where
  int name :=
    if name = "E0" then 1 else if name = "E1" then 2 else if name = "E2" then 3
    else if name = "E_FINAL" then 102 else 0
  bool _ := false
  value _ := 0

/-- The branch of `idleThread` has no prefix, although its one schedule orders every event. -/
theorem computePrefix_idleThread : Satisfies idleModel (buildMemoryModelFormula idleThread) ∧
    (∀ event ∈ idleThread.threads.flatten, Bound idleThread event) ∧
    branchEvent ∈ idleThread.threads.flatten ∧ branchEvent.eventType ≠ .virtual ∧
    ¬∃ vecEvent, computePrefix idleThread idleModel branchEvent = some vecEvent ∧
      PrefixUpTo idleThread idleModel branchEvent vecEvent := by
  have hnone : computePrefix idleThread idleModel branchEvent = none := by decide +kernel
  refine ⟨by decide +kernel, fun _ hevent => bound_of_mem hevent, by decide +kernel, by decide, ?_⟩
  rintro ⟨vecEvent, hsome, -⟩
  rw [hnone] at hsome
  cases hsome

end Encode

end CapTaint
