import CapTaint.ListenerService

/-! # No trace is analysed twice

The greedy matching of `isEqual` decides whether the abstracts of the threads agree as multisets, so it is an equivalence,
and the tested traces are one of each class that has been met. -/

namespace CapTaint
open Std GreedyMatch

variable {function : Event → String}

/-- The traces have the same abstracts, each as often. -/
def Trace.SameAbstracts (function : Event → String) (a b : Trace) : Prop :=
  (a.createAbstract function : Multiset String) = b.createAbstract function

theorem Trace.isEqual_iff {a b : Trace} : a.isEqual function b = true ↔ a.SameAbstracts function b := by
  unfold Trace.isEqual Trace.SameAbstracts
  dsimp only
  rw [Multiset.coe_eq_coe]
  split
  next hlen => exact iff_of_false (by simp) fun hperm => hlen hperm.length_eq
  next hlen => exact matchAll_iff_perm (not_not.mp hlen)

/-- Each class of traces that was met has one representative in the list. -/
structure Representatives (function : Event → String) (tested met : List Trace) : Prop where
  inequivalent : tested.Pairwise fun a b => a.isEqual function b = false
  unique : ∀ trace ∈ met, ∃ t ∈ tested, trace.isEqual function t = true ∧
    ∀ t' ∈ tested, trace.isEqual function t' = true → t' = t

namespace RuntimeDataManager

theorem isEqual_false_iff {a b : Trace} : a.isEqual function b = false ↔ ¬a.SameAbstracts function b := by
  rw [← Trace.isEqual_iff, Bool.not_eq_true]

/-- One run: its trace is entered when no tested trace is equal to it. -/
theorem isCurrentTraceUntested_representatives {manager : RuntimeDataManager} {met : List Trace} {trace : Trace}
    (h : Representatives function manager.testedTraceList met) :
    Representatives function (manager.isCurrentTraceUntested function trace).2.testedTraceList (met ++ [trace]) := by
  unfold isCurrentTraceUntested
  dsimp only
  cases hany : manager.testedTraceList.any fun t => trace.isEqual function t with
  | true =>
    obtain ⟨t, ht, hequal⟩ := List.any_eq_true.mp hany
    refine ⟨h.inequivalent, fun met' hmet' => ?_⟩
    rcases List.mem_append.mp hmet' with hold | hnew
    · exact h.unique met' hold
    · obtain rfl := List.mem_singleton.mp hnew
      refine ⟨t, ht, hequal, fun t' ht' hequal' => ?_⟩
      -- two equal tested traces would be equal to each other
      by_contra hne
      have hsymm : ∀ {a b : Trace}, a.isEqual function b = false → b.isEqual function a = false := by
        intro a b hab
        rw [isEqual_false_iff] at hab ⊢
        exact fun hba => hab hba.symm
      have : Std.Symm fun a b : Trace => a.isEqual function b = false := ⟨fun _ _ => hsymm⟩
      have hdiff : t'.isEqual function t = false := h.inequivalent.forall ht' ht hne
      rw [isEqual_false_iff] at hdiff
      exact hdiff ((Trace.isEqual_iff.mp hequal').symm.trans (Trace.isEqual_iff.mp hequal))
  | false =>
    have hnone : ∀ t ∈ manager.testedTraceList, trace.isEqual function t = false := by
      simpa using hany
    have hself : trace.isEqual function trace = true := Trace.isEqual_iff.mpr rfl
    refine ⟨List.pairwise_append.mpr ⟨h.inequivalent, List.pairwise_singleton _ _, ?_⟩, fun met' hmet' => ?_⟩
    · intro t ht t' ht'
      obtain rfl := List.mem_singleton.mp ht'
      have hdiff := isEqual_false_iff.mp (hnone t ht)
      exact isEqual_false_iff.mpr fun hsame => hdiff hsame.symm
    · rcases List.mem_append.mp hmet' with hold | hnew
      · obtain ⟨t, ht, hequal, honly⟩ := h.unique met' hold
        refine ⟨t, List.mem_append_left _ ht, hequal, fun t' ht' hequal' => ?_⟩
        rcases List.mem_append.mp ht' with ht' | ht'
        · exact honly t' ht' hequal'
        · obtain rfl := List.mem_singleton.mp ht'
          have hdiff := isEqual_false_iff.mp (hnone t ht)
          exact absurd ((Trace.isEqual_iff.mp hequal').symm.trans (Trace.isEqual_iff.mp hequal)) hdiff
      · obtain rfl := List.mem_singleton.mp hnew
        refine ⟨met', List.mem_append_right _ (List.mem_singleton_self _), hself, fun t' ht' hequal' => ?_⟩
        rcases List.mem_append.mp ht' with ht' | ht'
        · rw [hnone t' ht'] at hequal'
          cases hequal'
        · exact List.mem_singleton.mp ht'

theorem afterRuns_representatives (function : Event → String) (traces : List Trace) :
    Representatives function (afterRuns function traces).testedTraceList traces := by
  unfold afterRuns
  induction traces using List.reverseRecOn with
  | nil => exact ⟨.nil, fun _ h => by cases h⟩
  | append_singleton traces trace ih =>
    rw [List.foldl_append]
    exact isCurrentTraceUntested_representatives ih

/-- `isEqual` decides whether the abstracts agree as multisets, an equivalence that does not see the numbers of the
    threads, and after any runs the tested traces are pairwise inequivalent and have one for each run. -/
theorem tested_once (function : Event → String) :
    (∀ a b : Trace, a.isEqual function b = true ↔ a.SameAbstracts function b) ∧
    (Equivalence fun a b : Trace => a.isEqual function b = true) ∧
    (∀ a b : Trace, a.threads.Perm b.threads → a.isEqual function b = true) ∧
    ∀ traces : List Trace, Representatives function (afterRuns function traces).testedTraceList traces := by
  refine ⟨fun a b => Trace.isEqual_iff, ⟨fun a => ?_, fun {a b} hab => ?_, fun {a b c} hab hbc => ?_⟩, fun a b hperm => ?_,
    afterRuns_representatives function⟩
  · exact Trace.isEqual_iff.mpr rfl
  · exact Trace.isEqual_iff.mpr (Trace.isEqual_iff.mp hab).symm
  · exact Trace.isEqual_iff.mpr ((Trace.isEqual_iff.mp hab).trans (Trace.isEqual_iff.mp hbc))
  · exact Trace.isEqual_iff.mpr (Multiset.coe_eq_coe.mpr (hperm.map _))

end RuntimeDataManager
end CapTaint
