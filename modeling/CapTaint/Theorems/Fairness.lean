import CapTaint.ThreadScheduler
import CapTaint.Theorems.Forks

/-! # Rescheduling

A queue that is rotated brings every thread to its front. The preemptive scheduler only swaps the last two threads. -/

namespace CapTaint.QueueScheduler

variable {s s' : QueueScheduler} {threads : List Nat} {n k count : Nat}

/-- Rescheduling keeps the threads of the queue. -/
def KeepsThreads (s : QueueScheduler) : Prop := ∃ s', s.reSchedule = some s' ∧ ∀ thread, thread ∈ s'.queue ↔ thread ∈ s.queue

/-- As many turns as there are threads select each of them. -/
def Fair (s : QueueScheduler) : Prop := ∃ selected, s.turns s.queue.length = some selected ∧ ∀ thread ∈ s.queue, thread ∈ selected

/-- The scheduler swaps the last two threads of its queue. -/
def isPreemptive : QueueScheduler → Bool
  | preemptive _ => true
  | rr _ _ | fifs _ => false

theorem reSchedule_keeps (hne : s.queue ≠ []) : s.KeepsThreads := by
  cases s with
  | rr queue count | fifs queue =>
    cases queue with
    | nil => exact absurd rfl hne
    | cons thread rest => exact ⟨_, rfl, fun _ => (List.perm_append_singleton _ _).mem_iff⟩
  | preemptive queue =>
    cases queue with
    | nil => exact absurd rfl hne
    | cons thread rest => exact ⟨_, rfl, fun _ => (@ScheduledState.reSchedule_perm .preemptive (thread :: rest) _ rfl).mem_iff⟩

/-! ### Rotation -/

/-- A turn rotates the queue, and selects the thread at its front. -/
def Rotates (s : QueueScheduler) : Prop := ∃ thread s', s.reSchedule.bind selectNextItem = some (thread, s') ∧
  s'.queue = s.queue.rotate 1 ∧ s'.queue.head? = some thread ∧ s'.isPreemptive = false

theorem rotates (hne : s.queue ≠ []) (h : s.isPreemptive = false) : s.Rotates := by
  cases s with
  | rr queue count =>
    cases queue with
    | nil => exact absurd rfl hne
    | cons thread rest =>
      obtain ⟨next, hnext⟩ : ∃ next, (rest ++ [thread]).head? = some next := Option.isSome_iff_exists.mp (by simp)
      refine ⟨next, rr (rest ++ [thread]) 1, ?_, by simp [queue], hnext, rfl⟩
      simp [reSchedule, selectNextItem, hnext]
  | fifs queue =>
    cases queue with
    | nil => exact absurd rfl hne
    | cons thread rest =>
      obtain ⟨next, hnext⟩ : ∃ next, (rest ++ [thread]).head? = some next := Option.isSome_iff_exists.mp (by simp)
      refine ⟨next, fifs (rest ++ [thread]), ?_, by simp [queue], hnext, rfl⟩
      simp [reSchedule, selectNextItem, ThreadScheduler.reSchedule, ThreadScheduler.selectNextItem, hnext]
  | preemptive queue => cases h

theorem turns_rotates (n : Nat) (hne : s.queue ≠ []) (h : s.isPreemptive = false) :
    ∃ selected, s.turns n = some selected ∧ ∀ k < n, ∀ thread, (s.queue.rotate (k + 1)).head? = some thread → thread ∈ selected := by
  induction n generalizing s with
  | zero => exact ⟨[], rfl, fun k hk => absurd hk (Nat.not_lt_zero k)⟩
  | succ n ih =>
    obtain ⟨thread, s', hturn, hqueue, hhead, h'⟩ := rotates hne h
    obtain ⟨s₁, hs₁, hselect⟩ := Option.bind_eq_some_iff.mp hturn
    have hne' : s'.queue ≠ [] := by
      rw [hqueue]
      exact fun hnil => hne (List.rotate_eq_nil_iff.mp hnil)
    obtain ⟨selected, hselected, hrest⟩ := ih hne' h'
    refine ⟨thread :: selected, by simp [turns, hs₁, hselect, hselected], fun k hk next hnext => ?_⟩
    cases k with
    | zero =>
      rw [Nat.zero_add, ← hqueue, hhead] at hnext
      exact List.mem_cons.mpr (.inl (Option.some.inj hnext).symm)
    | succ k =>
      refine List.mem_cons_of_mem _ (hrest k (Nat.lt_of_succ_lt_succ hk) next ?_)
      rwa [hqueue, List.rotate_rotate, Nat.add_comm]

theorem fair_of_rotates (hne : s.queue ≠ []) (h : s.isPreemptive = false) : s.Fair := by
  obtain ⟨selected, hselected, hrotate⟩ := turns_rotates s.queue.length hne h
  refine ⟨selected, hselected, fun thread hthread => ?_⟩
  obtain ⟨i, hi, rfl⟩ := List.getElem_of_mem hthread
  -- the thread in place `i` comes to the front after `i` turns, the first one after all of them
  cases i with
  | zero =>
    refine hrotate (s.queue.length - 1) (by omega) _ ?_
    rw [Nat.sub_add_cancel hi, List.rotate_length, List.head?_eq_getElem?, List.getElem?_eq_getElem]
  | succ i =>
    refine hrotate i (by omega) _ ?_
    rw [List.head?_rotate hi, List.getElem?_eq_getElem]

/-! ### The preemptive scheduler -/

theorem reSchedule_swaps (front : List Nat) (x y : Nat) :
    (preemptive (front ++ [x, y])).reSchedule = some (preemptive (front ++ [y, x])) := by
  have hne : front ++ [x, y] ≠ [] := by simp
  obtain ⟨thread, rest, hcons⟩ := List.exists_cons_of_ne_nil hne
  have hdrop : (front ++ [x, y]).dropLast = front ++ [x] := by
    rw [show front ++ [x, y] = (front ++ [x]) ++ [y] by simp, List.dropLast_concat]
  simp only [reSchedule, hcons, ThreadScheduler.reSchedule, Option.map_some]
  simp only [← hcons, hdrop]
  simp

theorem turns_swaps (n : Nat) (front : List Nat) (x y : Nat) :
    ∃ selected, (preemptive (front ++ [x, y])).turns n = some selected ∧ ∀ thread ∈ selected, thread = x ∨ thread = y := by
  induction n generalizing x y with
  | zero => exact ⟨[], rfl, nofun⟩
  | succ n ih =>
    obtain ⟨selected, hselected, honly⟩ := ih y x
    have hselect : (preemptive (front ++ [y, x])).selectNextItem = some (x, preemptive (front ++ [y, x])) := by
      simp [selectNextItem, ThreadScheduler.selectNextItem]
    refine ⟨x :: selected, by simp [turns, reSchedule_swaps, hselect, hselected], fun thread hthread => ?_⟩
    rcases List.mem_cons.mp hthread with rfl | hthread
    · exact .inl rfl
    · exact (honly thread hthread).symm

theorem preemptive_fair (hne : threads ≠ []) (h : threads.length ≤ 2) : (preemptive threads).Fair := by
  match threads, hne, h with
  | [x], _, _ => exact ⟨[x], rfl, fun _ h => h⟩
  | [x, y], _, _ => exact ⟨[x, y], rfl, fun _ h => h⟩

theorem preemptive_not_fair (hnodup : threads.Nodup) (h : 2 < threads.length) : ¬(preemptive threads).Fair := by
  rintro ⟨selected, hselected, hall⟩
  obtain ⟨init, y, rfl⟩ := (List.eq_nil_or_concat' threads).resolve_left fun hnil => by simp [hnil] at h
  obtain ⟨front, x, rfl⟩ := (List.eq_nil_or_concat' init).resolve_left fun hnil => by simp [hnil] at h
  rw [List.append_assoc, List.singleton_append] at hselected hall hnodup
  cases front with
  | nil => simp at h
  | cons first front =>
    obtain ⟨selected', hselected', honly⟩ := turns_swaps ((first :: front) ++ [x, y]).length (first :: front) x y
    obtain rfl : selected' = selected := Option.some.inj (hselected'.symm.trans hselected)
    have hnot : first ∉ front ++ [x, y] := (List.nodup_cons.mp hnodup).1
    rcases honly first (hall first List.mem_cons_self) with rfl | rfl
    · exact hnot (by simp)
    · exact hnot (by simp)

/-- Rescheduling is fair, unless the preemptive scheduler has more than two threads. -/
theorem reSchedule_fair_iff (s : QueueScheduler) (hne : s.queue ≠ []) (hnodup : s.queue.Nodup) :
    s.KeepsThreads ∧ s.Fair ↔ (s.isPreemptive = true → s.queue.length ≤ 2) := by
  refine ⟨fun ⟨_, hfair⟩ hpre => ?_, fun h => ⟨reSchedule_keeps hne, ?_⟩⟩
  · cases s with
    | rr => cases hpre
    | fifs => cases hpre
    | preemptive threads => exact Nat.le_of_not_lt fun hlt => preemptive_not_fair hnodup hlt hfair
  · cases hs : s.isPreemptive with
    | false => exact fair_of_rotates hne hs
    | true =>
      cases s with
      | rr => cases hs
      | fifs => cases hs
      | preemptive threads => exact preemptive_fair hne (h rfl)

theorem reSchedule_fair_iff_two : (preemptive [1, 2]).KeepsThreads ∧ (preemptive [1, 2]).Fair ↔
    ((preemptive [1, 2]).isPreemptive = true → (preemptive [1, 2]).queue.length ≤ 2) :=
  reSchedule_fair_iff (preemptive [1, 2]) (by decide) (by decide)

/-- The first of three threads is never selected. -/
theorem preemptive_three_not_fair : (preemptive [1, 2, 3]).queue ≠ [] ∧ (preemptive [1, 2, 3]).queue.Nodup ∧
    ¬((preemptive [1, 2, 3]).KeepsThreads ∧ (preemptive [1, 2, 3]).Fair) := by
  refine ⟨by decide, by decide, ?_⟩
  rintro ⟨-, selected, hselected, hall⟩
  obtain rfl : [2, 3, 2] = selected := Option.some.inj hselected
  exact absurd (hall 1 (by decide)) (by decide)

end CapTaint.QueueScheduler
