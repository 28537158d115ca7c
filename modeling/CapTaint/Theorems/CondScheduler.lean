import Mathlib
import CapTaint.Managers

/-! # Guided signals

A signal releases the waiter whose thread the prefix lets run first. -/

namespace CapTaint

variable {threadId lastThreadId : Nat} {item : WaitParam} {queue rest : List WaitParam} {events remaining before after : List Event}
  {event : Event} {baseScheduler : CondScheduler}

/-- The numbers of the waiting threads. -/
def waiting (queue : List WaitParam) : List Nat := queue.map (·.threadId)

theorem mem_waiting : threadId ∈ waiting queue ↔ ∃ item ∈ queue, item.threadId = threadId := List.mem_map

namespace CondScheduler

theorem removeItem_of_not_mem (h : threadId ∉ waiting queue) : removeItem threadId queue = (none, queue) := by
  induction queue with
  | nil => rfl
  | cons item queue ih =>
    obtain ⟨hne, hrest⟩ := not_or.mp (mt List.mem_cons.mpr h)
    rw [removeItem, if_neg (Ne.symm hne), ih hrest]

theorem removeItem_of_mem (hnodup : (waiting queue).Nodup) (h : item ∈ queue) :
    removeItem item.threadId queue = (some item, queue.erase item) := by
  induction queue with
  | nil => cases h
  | cons first queue ih =>
    obtain ⟨hfirst, hrest⟩ := List.nodup_cons.mp hnodup
    rcases List.mem_cons.mp h with rfl | hmem
    · rw [removeItem, if_pos rfl, List.erase_cons_head]
    · have hne : first.threadId ≠ item.threadId := fun heq => hfirst (List.mem_map.mpr ⟨item, hmem, heq.symm⟩)
      have hitem : ¬(first == item) = true := fun heq => hne (congrArg WaitParam.threadId (eq_of_beq heq))
      rw [removeItem, if_neg hne, ih hrest hmem, List.erase_cons_tail hitem]

/-- The base scheduler takes a waiter out of a queue that is not empty. -/
theorem selectNextItem_spec (baseScheduler : CondScheduler) (hnodup : (waiting queue).Nodup) (hne : queue ≠ []) :
    ∃ item, baseScheduler.selectNextItem queue = some (item, queue.erase item) ∧ item ∈ queue := by
  cases baseScheduler with
  | fifs =>
    obtain ⟨item, queue, rfl⟩ := List.exists_cons_of_ne_nil hne
    exact ⟨item, by rw [List.erase_cons_head]; rfl, List.mem_cons_self⟩
  | preemptive =>
    obtain ⟨queue, item, rfl⟩ := (List.eq_nil_or_concat' queue).resolve_left hne
    have hitem : item ∉ queue := fun hmem => by
      rw [waiting, List.map_append] at hnodup
      exact (List.nodup_append.mp hnodup).2.2 _ (List.mem_map_of_mem hmem) _ List.mem_cons_self rfl
    refine ⟨item, ?_, by simp⟩
    rw [List.erase_append_right _ hitem, List.erase_cons_head, List.append_nil]
    simp [selectNextItem]

end CondScheduler

namespace GuidedCondScheduler

/-- The events of threads that do not wait are passed over. -/
theorem scan_append (h : ∀ e ∈ before, e.threadId ∉ waiting queue) :
    ∃ last, scan lastThreadId (before ++ events) queue = scan last events queue ∧
      (last = lastThreadId ∨ ∃ e ∈ before, last = e.threadId) := by
  induction before generalizing lastThreadId with
  | nil => exact ⟨lastThreadId, rfl, .inl rfl⟩
  | cons event before ih =>
    obtain ⟨hevent, hbefore⟩ := List.forall_mem_cons.mp h
    rw [List.cons_append, scan]
    by_cases hlast : event.threadId = lastThreadId
    · obtain ⟨last, heq, hor⟩ := @ih lastThreadId hbefore
      rw [if_pos hlast]
      exact ⟨last, heq, hor.imp_right fun ⟨e, he, hthread⟩ => ⟨e, List.mem_cons_of_mem _ he, hthread⟩⟩
    · obtain ⟨last, heq, hor⟩ := @ih event.threadId hbefore
      rw [if_neg hlast, CondScheduler.removeItem_of_not_mem hevent]
      refine ⟨last, heq, .inr ?_⟩
      rcases hor with rfl | ⟨e, he, hthread⟩
      · exact ⟨event, List.mem_cons_self, rfl⟩
      · exact ⟨e, List.mem_cons_of_mem _ he, hthread⟩

theorem scan_none (h : ∀ e ∈ events, e.threadId ∉ waiting queue) : scan lastThreadId events queue = (none, queue) := by
  obtain ⟨last, heq, -⟩ := @scan_append lastThreadId queue [] events h
  rw [← List.append_nil events, heq, scan]

/-- The first event of a waiting thread is found. What was looked at before is not its thread. -/
theorem scan_some (hnodup : (waiting queue).Nodup) (hitem : item ∈ queue) (hthread : event.threadId = item.threadId)
    (hbefore : ∀ e ∈ before, e.threadId ∉ waiting queue) (hlast : lastThreadId ∉ waiting queue) :
    scan lastThreadId (before ++ event :: after) queue = (some item, queue.erase item) := by
  obtain ⟨last, heq, hor⟩ := @scan_append lastThreadId queue (event :: after) before hbefore
  have hnot : last ∉ waiting queue := by
    rcases hor with rfl | ⟨e, he, rfl⟩
    exacts [hlast, hbefore e he]
  have hne : event.threadId ≠ last := by
    rintro rfl
    exact hnot (hthread ▸ mem_waiting.mpr ⟨item, hitem, rfl⟩)
  rw [heq, scan, if_neg hne, hthread, CondScheduler.removeItem_of_mem hnodup hitem]
  rfl

theorem selectNextItem_first (baseScheduler : CondScheduler) (hnodup : (waiting queue).Nodup) (hzero : 0 ∉ waiting queue)
    (hbefore : ∀ e ∈ before, e.threadId ∉ waiting queue) (hitem : item ∈ queue) (hthread : item.threadId = event.threadId) :
    selectNextItem baseScheduler (before ++ event :: after) queue = some (some item, queue.erase item) := by
  have hscan := @scan_some 0 item queue before after event hnodup hitem hthread.symm hbefore hzero
  rw [selectNextItem, if_neg (by simp)]
  simp only [hscan]
  simp

theorem selectNextItem_base (baseScheduler : CondScheduler) (hnodup : (waiting queue).Nodup)
    (hnone : ∀ e ∈ remaining, e.threadId ∉ waiting queue) (hne : queue ≠ []) :
    ∃ item ∈ queue, baseScheduler.selectNextItem queue = some (item, queue.erase item) ∧
      selectNextItem baseScheduler remaining queue = some (some item, queue.erase item) := by
  obtain ⟨item, hselect, hitem⟩ := CondScheduler.selectNextItem_spec baseScheduler hnodup hne
  refine ⟨item, hitem, hselect, ?_⟩
  rw [selectNextItem, scan_none hnone]
  split
  case isTrue => rw [hselect]; rfl
  case isFalse => rw [if_pos ⟨rfl, hne⟩, hselect]; rfl

/-- A waiter is released if there is one. -/
theorem selectNextItem_releases (baseScheduler : CondScheduler) (remaining : List Event) (hnodup : (waiting queue).Nodup)
    (hzero : 0 ∉ waiting queue) (hne : queue ≠ []) :
    ∃ item ∈ queue, selectNextItem baseScheduler remaining queue = some (some item, queue.erase item) := by
  by_cases hnone : ∀ e ∈ remaining, e.threadId ∉ waiting queue
  · obtain ⟨item, hitem, -, heq⟩ := selectNextItem_base baseScheduler hnodup hnone hne
    exact ⟨item, hitem, heq⟩
  · have hsome : (remaining.find? (·.threadId ∈ waiting queue)).isSome := by simpa using hnone
    obtain ⟨event, hfind⟩ := Option.isSome_iff_exists.mp hsome
    obtain ⟨hevent, before, after, rfl, hbefore⟩ := List.find?_eq_some_iff_append.mp hfind
    obtain ⟨item, hitem, hthread⟩ := mem_waiting.mp (of_decide_eq_true hevent)
    exact ⟨item, hitem, selectNextItem_first baseScheduler hnodup hzero (fun e he => by simpa using hbefore e he) hitem hthread⟩

theorem zero_not_mem_waiting (hnumbers : ∀ item ∈ queue, 0 < item.threadId) : 0 ∉ waiting queue := fun h => by
  obtain ⟨item, hitem, heq⟩ := mem_waiting.mp h
  exact absurd (hnumbers item hitem) (by omega)

/-- The waiter that is released has a place in the waiting list: it is the one that `CondManager.signal` is told. -/
theorem signal_place (hnodup : (waiting queue).Nodup) (hnumbers : ∀ item ∈ queue, 0 < item.threadId)
    (h : Condition.signal baseScheduler remaining queue = some (some item, rest)) :
    ∃ waiter, queue[waiter]? = some item ∧ rest = queue.eraseIdx waiter := by
  rw [Condition.signal] at h
  split at h
  case isTrue => cases h
  case isFalse hne =>
    obtain ⟨released, hreleased, heq⟩ :=
      selectNextItem_releases baseScheduler remaining hnodup (zero_not_mem_waiting hnumbers) hne
    obtain ⟨hitem, hrest⟩ := Prod.mk.inj (Option.some.inj (heq.symm.trans h))
    obtain rfl := Option.some.inj hitem
    have hlt : queue.idxOf released < queue.length := List.idxOf_lt_length_of_mem hreleased
    refine ⟨queue.idxOf released, ?_, ?_⟩
    · rw [List.getElem?_eq_getElem hlt, List.getElem_idxOf]
    · rw [← hrest, List.erase_eq_eraseIdx_of_idxOf rfl]

/-- The waiter is chosen whose thread has the first event of all waiters' threads, else the one that the base scheduler
chooses. The other waiters keep their order. -/
structure FollowsPrefix (baseScheduler : CondScheduler) (remaining : List Event) (queue : List WaitParam) : Prop where
  first : ∀ before event after, remaining = before ++ event :: after → (∀ e ∈ before, e.threadId ∉ waiting queue) →
    ∀ item ∈ queue, item.threadId = event.threadId →
      selectNextItem baseScheduler remaining queue = some (some item, queue.erase item)
  base : (∀ e ∈ remaining, e.threadId ∉ waiting queue) → queue ≠ [] →
    ∃ item ∈ queue, baseScheduler.selectNextItem queue = some (item, queue.erase item) ∧
      selectNextItem baseScheduler remaining queue = some (some item, queue.erase item)
  null : ∀ rest, selectNextItem baseScheduler remaining queue = some (none, rest) → queue = []

/-- Threads are numbered from 1, so that the loop may begin with the number 0. -/
theorem selectNextItem_guided (baseScheduler : CondScheduler) (remaining : List Event) (queue : List WaitParam)
    (hnodup : (waiting queue).Nodup) (hnumbers : ∀ item ∈ queue, 0 < item.threadId) :
    FollowsPrefix baseScheduler remaining queue where
  first := by
    rintro before event after rfl hbefore item hitem hthread
    exact selectNextItem_first baseScheduler hnodup (zero_not_mem_waiting hnumbers) hbefore hitem hthread
  base hnone hne := selectNextItem_base baseScheduler hnodup hnone hne
  null rest hnull := by
    by_contra hne
    obtain ⟨item, -, heq⟩ := selectNextItem_releases baseScheduler remaining hnodup (zero_not_mem_waiting hnumbers) hne
    cases heq.symm.trans hnull

def eventOf (threadId : Nat) : Event := { threadId, eventId := 0, inst := .other, eventType := .normal }

/-- Threads 2 and 3 wait, and the prefix runs thread 1, which does not wait, and then thread 3. -/
theorem selectNextItem_guided_two : FollowsPrefix .fifs [eventOf 1, eventOf 3] [⟨8, 2⟩, ⟨8, 3⟩] :=
  selectNextItem_guided .fifs [eventOf 1, eventOf 3] [⟨8, 2⟩, ⟨8, 3⟩] (by decide) (by decide)

end GuidedCondScheduler

end CapTaint
