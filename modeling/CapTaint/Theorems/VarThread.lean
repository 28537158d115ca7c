import CapTaint.Theorems.Pruning

/-! # The class of a variable

The two passes of `filterUseless` over the access tables and the last one over `varThread` together sort the variables:
-1 without a write, 0 with a write and several threads, and else the one thread that accesses the variable. -/

namespace CapTaint
open Std

namespace DealWithSymbolicExpr

/-- The mark of a variable after the accesses `accesses`, none of which is by a thread 0: their thread, or 0 when there
    are several ones. -/
inductive MarkOf (accesses : List Event) : Int → Prop
  | shared {a b : Event} (ha : a ∈ accesses) (hb : b ∈ accesses) (hne : a.threadId ≠ b.threadId) : MarkOf accesses 0
  | only {t : Nat} (ht : t ≠ 0) (hne : accesses ≠ []) (hall : ∀ event ∈ accesses, event.threadId = t) : MarkOf accesses t

theorem markId_first {events : List Event} (hne : events ≠ []) (hzero : ∀ event ∈ events, event.threadId ≠ 0) :
    ∃ x, markId none events = some x ∧ MarkOf events x := by
  cases events with
  | nil => exact absurd rfl hne
  | cons first rest =>
    rw [markId_none]
    by_cases hother : ∃ event ∈ rest, event.threadId ≠ first.threadId
    · obtain ⟨event, hevent, hdiff⟩ := hother
      rw [if_pos (.inr ⟨event, hevent, hdiff⟩)]
      exact ⟨0, rfl, .shared (List.mem_cons_of_mem first hevent) List.mem_cons_self hdiff⟩
    · have hfirst := hzero first List.mem_cons_self
      rw [if_neg (not_or.mpr ⟨hfirst, hother⟩)]
      refine ⟨first.threadId, rfl, .only hfirst hne fun event hevent => ?_⟩
      rcases List.mem_cons.mp hevent with rfl | hevent
      · rfl
      · by_contra hdiff
        exact hother ⟨event, hevent, hdiff⟩

theorem MarkOf.append {accesses events : List Event} {x : Int} (h : MarkOf accesses x) (hne : events ≠ []) :
    ∃ y, markId (some x) events = some y ∧ MarkOf (accesses ++ events) y := by
  cases events with
  | nil => exact absurd rfl hne
  | cons first rest =>
    unfold markId
    dsimp only
    rw [Option.getD_some]
    cases h with
    | shared ha hb hdiff =>
      refine ⟨0, by simp, .shared (List.mem_append_left _ ha) (List.mem_append_left _ hb) hdiff⟩
    | @only t ht hold hall =>
      by_cases hother : ∃ event ∈ first :: rest, (t : Int) ≠ event.threadId
      · rw [if_pos ⟨by exact_mod_cast ht, hother⟩]
        obtain ⟨event, hevent, hdiff⟩ := hother
        obtain ⟨old, hmem⟩ := List.exists_mem_of_ne_nil accesses hold
        refine ⟨0, rfl, .shared (List.mem_append_left _ hmem) (List.mem_append_right _ hevent) ?_⟩
        rw [hall old hmem]
        exact_mod_cast hdiff
      · rw [if_neg fun hcond => hother hcond.2]
        refine ⟨t, rfl, .only ht (by simp) fun event hevent => ?_⟩
        rcases List.mem_append.mp hevent with hevent | hevent
        · exact hall event hevent
        · by_contra hdiff
          exact hother ⟨event, hevent, by exact_mod_cast (Ne.symm hdiff)⟩

theorem MarkOf.eq_zero_iff {accesses : List Event} {x : Int} (h : MarkOf accesses x) :
    x = 0 ↔ ∃ a ∈ accesses, ∃ b ∈ accesses, a.threadId ≠ b.threadId := by
  cases h with
  | @shared a b ha hb hdiff => exact iff_of_true rfl ⟨a, ha, b, hb, hdiff⟩
  | only ht _ hall =>
    refine iff_of_false (by exact_mod_cast ht) ?_
    rintro ⟨a, ha, b, hb, hdiff⟩
    exact hdiff ((hall a ha).trans (hall b hb).symm)

theorem MarkOf.eq_thread_iff {accesses : List Event} {x : Int} (h : MarkOf accesses x) {t : Nat} (ht : t ≠ 0) :
    x = t ↔ ∀ event ∈ accesses, event.threadId = t := by
  cases h with
  | @shared a b ha hb hdiff =>
    refine iff_of_false (by exact_mod_cast ht.symm) fun hall => hdiff ((hall a ha).trans (hall b hb).symm)
  | @only u _ hne hall =>
    obtain ⟨event, hevent⟩ := List.exists_mem_of_ne_nil accesses hne
    constructor
    · intro heq event hevent
      exact (hall event hevent).trans (by exact_mod_cast heq)
    · intro hall'
      rw [← hall event hevent, hall' event hevent]

theorem MarkOf.ne_neg {accesses : List Event} {x : Int} (h : MarkOf accesses x) : x ≠ -1 := by
  cases h with
  | shared => decide
  | only => omega

/-- The thread of a variable that is accessed, by the entries of the two filtered tables. -/
theorem varThreadOf_spec (readSet writeSet : TreeMap String (List Event)) {v : String}
    (hreads : ∀ {events : List Event}, readSet[v]? = some events → events ≠ [])
    (hwrites : ∀ {events : List Event}, writeSet[v]? = some events → events ≠ [])
    (hne : readSet.getD v [] ++ writeSet.getD v [] ≠ [])
    (hzero : ∀ event ∈ readSet.getD v [] ++ writeSet.getD v [], event.threadId ≠ 0) :
    ∃ x, (varThreadOf readSet writeSet)[v]? = some x ∧
      if writeSet.getD v [] = [] then x = -1 else MarkOf (readSet.getD v [] ++ writeSet.getD v []) x := by
  rw [TreeMap.getD_eq_getD_getElem?, TreeMap.getD_eq_getD_getElem?] at hne hzero ⊢
  rw [getElem?_varThreadOf]
  cases hw : writeSet[v]? with
  | none =>
    cases hr : readSet[v]? with
    | none => simp [hr, hw] at hne
    | some reads =>
      rw [hr, hw] at hzero
      obtain ⟨x, hx, -⟩ := markId_first (hreads hr) fun event hevent => hzero event (by simpa using hevent)
      exact ⟨-1, by simp [markEntry, hx], by simp⟩
  | some writes =>
    have hwne := hwrites hw
    simp only [Option.getD_some, hwne, if_false, Option.isSome_some, if_true, Option.map_id']
    rw [hw] at hzero
    cases hr : readSet[v]? with
    | none =>
      simp only [markEntry, Option.getD_none, List.nil_append]
      exact markId_first hwne fun event hevent => hzero event (by simpa using Or.inr hevent)
    | some reads =>
      rw [hr] at hzero
      obtain ⟨x, hx, hmark⟩ := markId_first (hreads hr) fun event hevent => hzero event (by simpa using Or.inl hevent)
      simp only [markEntry, hx, Option.getD_some]
      exact hmark.append hwne

/-- The class of a related variable that is accessed, by a trace without a thread 0. -/
theorem varThread_classified {l : PSOListener} (h : Recorded l) {symbolic : SymbolicExprs} {v : String}
    (hv : v ∈ (filterUseless l.trace symbolic).allRelatedSymbolicExpr) (haccess : accesses l.trace v ≠ [])
    (hzero : ∀ event ∈ accesses l.trace v, event.threadId ≠ 0) :
    ((filterUseless l.trace symbolic).varThread[v]? = some (-1) ↔ l.trace.writeSet.getD v [] = []) ∧
    (∀ t : Nat, t ≠ 0 → ((filterUseless l.trace symbolic).varThread[v]? = some (t : Int) ↔
      l.trace.writeSet.getD v [] ≠ [] ∧ ∀ event ∈ accesses l.trace v, event.threadId = t)) ∧
    ((filterUseless l.trace symbolic).varThread[v]? = some 0 ↔ l.trace.writeSet.getD v [] ≠ [] ∧
      ∃ a ∈ accesses l.trace v, ∃ b ∈ accesses l.trace v, a.threadId ≠ b.threadId) := by
  obtain ⟨hreads, hwrites⟩ := recorded_accessTables h
  have hall : v ∈ (closure symbolic).allRelatedSymbolicExpr := hv
  have hkept : ∀ table : TreeMap String (List Event),
      (table.filter fun varName _ => varName ∈ (closure symbolic).allRelatedSymbolicExpr)[v]? = table[v]? := by
    intro table
    rw [TreeMap.getElem?_filter']
    cases table[v]? <;> simp [hall, Option.filter_some]
  obtain ⟨x, hx, hclass⟩ := varThreadOf_spec
    (l.trace.readSet.filter fun varName _ => varName ∈ (closure symbolic).allRelatedSymbolicExpr)
    (l.trace.writeSet.filter fun varName _ => varName ∈ (closure symbolic).allRelatedSymbolicExpr) (v := v)
    (fun hget => hreads.nonempty (by rwa [hkept] at hget)) (fun hget => hwrites.nonempty (by rwa [hkept] at hget))
    (by rw [getD_filter_mem hall, getD_filter_mem hall]; exact haccess)
    (by rw [getD_filter_mem hall, getD_filter_mem hall]; exact hzero)
  rw [getD_filter_mem hall, getD_filter_mem hall] at hclass
  have hthread : (filterUseless l.trace symbolic).varThread[v]? = some x := hx
  rw [hthread]
  simp only [Option.some.injEq]
  by_cases hwritten : l.trace.writeSet.getD v [] = []
  · rw [if_pos hwritten] at hclass
    subst hclass
    refine ⟨iff_of_true rfl hwritten, fun t _ => iff_of_false (by omega) fun h => h.1 hwritten,
      iff_of_false (by decide) fun h => h.1 hwritten⟩
  · rw [if_neg hwritten] at hclass
    have hmark : MarkOf (accesses l.trace v) x := hclass
    refine ⟨iff_of_false hmark.ne_neg hwritten, fun t ht => ?_, ?_⟩
    · rw [hmark.eq_thread_iff ht, and_iff_right hwritten]
    · rw [hmark.eq_zero_iff, and_iff_right hwritten]

/-- In `sharedRun` the variable of the branch is stored from one that two threads write. -/
theorem varThread_sharedRun :
    ((filterUseless sharedRun.trace sharedExprs).varThread["G1_1"]? = some (-1) ↔
      sharedRun.trace.writeSet.getD "G1_1" [] = []) ∧
    (∀ t : Nat, t ≠ 0 → ((filterUseless sharedRun.trace sharedExprs).varThread["G1_1"]? = some (t : Int) ↔
      sharedRun.trace.writeSet.getD "G1_1" [] ≠ [] ∧ ∀ event ∈ accesses sharedRun.trace "G1_1", event.threadId = t)) ∧
    ((filterUseless sharedRun.trace sharedExprs).varThread["G1_1"]? = some 0 ↔
      sharedRun.trace.writeSet.getD "G1_1" [] ≠ [] ∧
      ∃ a ∈ accesses sharedRun.trace "G1_1", ∃ b ∈ accesses sharedRun.trace "G1_1", a.threadId ≠ b.threadId) :=
  varThread_classified (record_recorded _ _) (by decide +kernel) (by decide +kernel) (by decide +kernel)

end DealWithSymbolicExpr
end CapTaint
