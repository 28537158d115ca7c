import CapTaint.StateSets
import CapTaint.Theorems.Searcher

/-! # The sets of states stay consistent

Calls that get states of the executor keep the sets apart, and the searcher holds `states`. The exceptions are an error of a
state that the searcher does not have yet, which is read after it has been deleted, and an update that the searcher itself
does not admit. -/

namespace CapTaint.StateSets
open Klee Searcher

variable {S T : Type} [LinearOrder T]

/-- The states that the executor works with. -/
def live (e : StateSets S T) : Finset T := e.states ∪ e.addedStates

/-- The sets are as documented, and no state in them is deleted. -/
structure Separate (e : StateSets S T) : Prop where
  removed : e.removedStates ⊆ e.states
  added : Disjoint e.addedStates e.states
  addedRemoved : Disjoint e.addedStates e.removedStates
  allocated : e.live ⊆ e.allocated

/-- What a call in the middle of an instruction leaves to the searcher. -/
structure Keeps (e e' : StateSets S T) : Prop where
  states : e'.states = e.states
  searcher : e'.searcher = e.searcher

omit [LinearOrder T] in
theorem Keeps.refl (e : StateSets S T) : Keeps e e := ⟨rfl, rfl⟩

omit [LinearOrder T] in
theorem Keeps.trans {e₁ e₂ e₃ : StateSets S T} (h : Keeps e₁ e₂) (h' : Keeps e₂ e₃) : Keeps e₁ e₃ :=
  ⟨h'.states.trans h.states, h'.searcher.trans h.searcher⟩

section
variable {e : StateSets S T} {es ns : T}

theorem mem_live : es ∈ e.live ↔ es ∈ e.states ∨ es ∈ e.addedStates := Finset.mem_union

theorem use_ok (h : es ∈ e.allocated) : e.use es = .ok () := if_pos h

theorem Separate.use (h : Separate e) (hes : es ∈ e.live) : e.use es = .ok () := use_ok (h.allocated hes)

/-! ### New and terminated states -/

theorem mem_live_addState : es ∈ (e.addState ns).live ↔ es = ns ∨ es ∈ e.live := by
  simp only [addState, mem_live, Finset.mem_insert]
  exact or_left_comm

theorem Separate.addState (h : Separate e) (hns : ns ∉ e.allocated) : Separate (e.addState ns) where
  removed := h.removed
  added := Finset.disjoint_insert_left.mpr ⟨fun hmem => hns (h.allocated (mem_live.mpr (.inl hmem))), h.added⟩
  addedRemoved :=
    Finset.disjoint_insert_left.mpr ⟨fun hmem => hns (h.allocated (mem_live.mpr (.inl (h.removed hmem)))), h.addedRemoved⟩
  allocated es hes := by
    rcases mem_live_addState.mp hes with rfl | hes
    · exact Finset.mem_insert_self _ _
    · exact Finset.mem_insert_of_mem (h.allocated hes)

theorem branchState_spec (h : Separate e) (hes : es ∈ e.live) (allocator : Allocator T) :
    ∃ ns, e.branchState es allocator = .ok (ns, e.addState ns) ∧ ns ∉ e.allocated ∧ Separate (e.addState ns) := by
  have hns := allocator.new_notMem e.allocated
  refine ⟨_, ?_, hns, h.addState hns⟩
  rw [branchState, h.use hes]
  rfl

/-- A termination succeeds, and leaves the other states. -/
theorem terminateState_spec (h : Separate e) (hes : es ∈ e.live) :
    ∃ e', e.terminateState es = .ok e' ∧ Separate e' ∧ Keeps e e' ∧ (es ∈ e'.allocated ↔ es ∈ e.states) ∧
      ∀ other ∈ e.live, other ≠ es → other ∈ e'.live := by
  rw [terminateState, h.use hes]
  by_cases hadded : es ∈ e.addedStates
  · have hstates : es ∉ e.states := Finset.disjoint_left.mp h.added hadded
    refine ⟨_, if_neg (not_not_intro hadded), ⟨h.removed, ?_, ?_, ?_⟩, ⟨rfl, rfl⟩, ?_, ?_⟩
    · exact h.added.mono_left (Finset.erase_subset _ _)
    · exact h.addedRemoved.mono_left (Finset.erase_subset _ _)
    · intro other hother
      rcases mem_live.mp hother with hother | hother
      · exact Finset.mem_erase.mpr ⟨fun heq => hstates (heq ▸ hother), h.allocated (mem_live.mpr (.inl hother))⟩
      · obtain ⟨hne, hother⟩ := Finset.mem_erase.mp hother
        exact Finset.mem_erase.mpr ⟨hne, h.allocated (mem_live.mpr (.inr hother))⟩
    · exact iff_of_false (Finset.notMem_erase _ _) hstates
    · intro other hother hne
      rcases mem_live.mp hother with hother | hother
      · exact mem_live.mpr (.inl hother)
      · exact mem_live.mpr (.inr (Finset.mem_erase.mpr ⟨hne, hother⟩))
  · have hstates : es ∈ e.states := (mem_live.mp hes).resolve_right hadded
    refine ⟨_, if_pos hadded, ⟨?_, h.added, ?_, h.allocated⟩, ⟨rfl, rfl⟩, ?_, fun other hother _ => hother⟩
    · exact Finset.insert_subset hstates h.removed
    · exact Finset.disjoint_insert_right.mpr ⟨hadded, h.addedRemoved⟩
    · exact iff_of_true (h.allocated hes) hstates

theorem terminateStateOnExit_spec (h : Separate e) (hes : es ∈ e.live) :
    ∃ e', e.terminateStateOnExit es = .ok e' ∧ Separate e' ∧ Keeps e e' := by
  obtain ⟨e', heq, hsep, hkeeps, -⟩ := terminateState_spec h hes
  refine ⟨e', ?_, hsep, hkeeps⟩
  rw [terminateStateOnExit, h.use hes]
  exact heq

/-- The listeners get a deleted state unless the searcher has it. -/
theorem terminateStateOnError_spec (h : Separate e) (hes : es ∈ e.live) :
    if es ∈ e.states then ∃ e', e.terminateStateOnError es = .ok e' ∧ Separate e' ∧ Keeps e e'
    else e.terminateStateOnError es = .error .useAfterDelete := by
  obtain ⟨e', heq, hsep, hkeeps, hallocated, -⟩ := terminateState_spec h hes
  have hrest : e.terminateStateOnError es = (e'.use es).map fun _ => e' := by
    rw [terminateStateOnError, h.use hes]
    simp only [heq, bind, Except.bind]
    cases e'.use es <;> rfl
  split
  next hstates =>
    refine ⟨e', ?_, hsep, hkeeps⟩
    rw [hrest, use_ok (hallocated.mpr hstates)]
    rfl
  next hstates =>
    rw [hrest, use, if_neg (mt hallocated.mp hstates)]
    rfl

/-! ### Forks -/

theorem endFork_spec (h : Separate e) {other : T} (hes : es ∈ e.live) (hother : other ∈ e.live) (hne : other ≠ es)
    (maxDepthExceeded : Bool) : ∃ r e', e.endFork es other maxDepthExceeded = .ok (r, e') ∧ Separate e' ∧ Keeps e e' := by
  rw [endFork, h.use hes, h.use hother]
  cases maxDepthExceeded with
  | false => exact ⟨_, e, rfl, h, .refl e⟩
  | true =>
    obtain ⟨e₁, heq₁, hsep₁, hkeeps₁, -, hothers⟩ := terminateState_spec h hes
    obtain ⟨e₂, heq₂, hsep₂, hkeeps₂, -⟩ := terminateState_spec hsep₁ (hothers other hother hne)
    refine ⟨(none, none), e₂, ?_, hsep₂, hkeeps₁.trans hkeeps₂⟩
    simp only [bind, Except.bind, terminateStateEarly, heq₁, heq₂, if_true]
    rfl

theorem fork_spec (h : Separate e) (hes : es ∈ e.live) (draws : ForkDraws T) :
    ∃ r e', e.fork es draws = .ok (r, e') ∧ Separate e' ∧ Keeps e e' := by
  rw [fork, h.use hes]
  cases draws.res with
  | none =>
    obtain ⟨e', heq, hsep, hkeeps, -⟩ := terminateState_spec h hes
    refine ⟨(none, none), e', ?_, hsep, hkeeps⟩
    simp only [bind, Except.bind, terminateStateEarly, heq]
    rfl
  | some res =>
    cases res with
    | True => exact ⟨_, e, rfl, h, .refl e⟩
    | False => exact ⟨_, e, rfl, h, .refl e⟩
    | Unknown =>
      obtain ⟨ns, heq, hns, hsep⟩ := branchState_spec h hes draws.allocator
      have hne : es ≠ ns := fun heq => hns (heq ▸ h.allocated hes)
      have hold : es ∈ (e.addState ns).live := mem_live_addState.mpr (.inr hes)
      have hnew : ns ∈ (e.addState ns).live := mem_live_addState.mpr (.inl rfl)
      simp only [heq, bind, Except.bind]
      split
      · obtain ⟨r, e', heq', hsep', hkeeps⟩ := endFork_spec hsep hnew hold hne draws.maxDepthExceeded
        exact ⟨r, e', heq', hsep', hkeeps.states, hkeeps.searcher⟩
      · obtain ⟨r, e', heq', hsep', hkeeps⟩ := endFork_spec hsep hold hnew hne.symm draws.maxDepthExceeded
        exact ⟨r, e', heq', hsep', hkeeps.states, hkeeps.searcher⟩

/-! ### Branches -/

theorem copies_spec (h : Separate e) (hes : es ∈ e.live) (draws : BranchDraws T) (n : Nat) :
    ∃ result e', copies e es draws n = .ok (result, e') ∧ Separate e' ∧ Keeps e e' ∧ result.Nodup ∧
      (∀ ns ∈ result, ns ∈ e'.live) ∧ es ∈ result := by
  induction n with
  | zero =>
    refine ⟨[es], e, rfl, h, .refl e, List.nodup_singleton es, fun ns hns => ?_, List.mem_singleton_self es⟩
    rwa [List.mem_singleton.mp hns]
  | succ n ih =>
    obtain ⟨result, e₁, heq₁, hsep₁, hkeeps₁, hnodup, hlive, hmem⟩ := ih
    have hpick : result.getD (draws.picks n % (n + 1)) es ∈ e₁.live := by
      rw [List.getD_eq_getElem?_getD]
      cases hget : result[draws.picks n % (n + 1)]? with
      | none => exact hlive es hmem
      | some picked => exact hlive picked (List.mem_of_getElem? hget)
    obtain ⟨ns, heq, hns, hsep⟩ := branchState_spec hsep₁ hpick (draws.allocator n)
    refine ⟨result ++ [ns], e₁.addState ns, ?_, hsep, ⟨hkeeps₁.states, hkeeps₁.searcher⟩, ?_, fun x hx => ?_, ?_⟩
    · simp only [copies, heq₁, bind, Except.bind, heq]
      rfl
    · have hnew : ns ∉ result := fun hmem => hns (hsep₁.allocated (hlive ns hmem))
      exact List.nodup_append.mpr ⟨hnodup, List.nodup_singleton ns, fun x hx y hy heq =>
        hnew (List.mem_singleton.mp hy ▸ heq ▸ hx)⟩
    · rcases List.mem_append.mp hx with hx | hx
      · exact mem_live_addState.mpr (.inr (hlive x hx))
      · exact mem_live_addState.mpr (.inl (List.mem_singleton.mp hx))
    · exact List.mem_append_left _ hmem

/-- Where the states of the results are there, each once, so are those that remain. -/
theorem redistribute_spec (seedless : T → Bool) {result : List (Option T)} (h : Separate e)
    (hnodup : (result.filterMap id).Nodup) (hlive : ∀ es ∈ result.filterMap id, es ∈ e.live) :
    ∃ result' e', redistribute seedless e result = .ok (result', e') ∧ Separate e' ∧ Keeps e e' ∧
      (∀ es ∈ result'.filterMap id, es ∈ e'.live) ∧ ∀ es ∈ e.live, es ∉ result.filterMap id → es ∈ e'.live := by
  induction result generalizing e with
  | nil => exact ⟨[], e, rfl, h, .refl e, hlive, fun es hes _ => hes⟩
  | cons head result ih =>
    cases head with
    | none =>
      obtain ⟨result', e', heq, hsep, hkeeps, hrest⟩ := ih h hnodup hlive
      refine ⟨none :: result', e', ?_, hsep, hkeeps, hrest⟩
      simp only [redistribute, heq, bind, Except.bind]
      rfl
    | some es =>
      obtain ⟨hnew, hnodup⟩ := List.nodup_cons.mp hnodup
      have hes : es ∈ e.live := hlive es List.mem_cons_self
      by_cases hseed : seedless es = true
      · obtain ⟨e₁, heq₁, hsep₁, hkeeps₁, -, hothers⟩ := terminateState_spec h hes
        have hlive₁ : ∀ x ∈ result.filterMap id, x ∈ e₁.live := fun x hx =>
          hothers x (hlive x (List.mem_cons_of_mem _ hx)) fun heq => hnew (heq ▸ hx)
        obtain ⟨result', e', heq, hsep, hkeeps, hleft, hkept⟩ := ih hsep₁ hnodup hlive₁
        refine ⟨none :: result', e', ?_, hsep, hkeeps₁.trans hkeeps, hleft, fun x hx hnot => ?_⟩
        · simp only [redistribute, hseed, if_true, heq₁, heq, bind, Except.bind]
          rfl
        · obtain ⟨hne, hnot⟩ := not_or.mp (mt List.mem_cons.mpr hnot)
          exact hkept x (hothers x hx hne) hnot
      · have hlive₁ : ∀ x ∈ result.filterMap id, x ∈ e.live := fun x hx => hlive x (List.mem_cons_of_mem _ hx)
        obtain ⟨result', e', heq, hsep, hkeeps, hleft, hkept⟩ := ih h hnodup hlive₁
        refine ⟨some es :: result', e', ?_, hsep, hkeeps, fun x hx => ?_, fun x hx hnot => ?_⟩
        · simp only [redistribute, if_neg hseed, heq, bind, Except.bind]
          rfl
        · rcases List.mem_cons.mp hx with rfl | hx
          · exact hkept x hes hnew
          · exact hleft x hx
        · exact hkept x hx fun hx => hnot (List.mem_cons_of_mem _ hx)

theorem use_all (h : Separate e) {l : List T} (hl : ∀ es ∈ l, es ∈ e.live) : l.forM e.use = .ok () := by
  induction l with
  | nil => rfl
  | cons es l ih =>
    rw [List.forM, h.use (hl es List.mem_cons_self)]
    exact ih fun x hx => hl x (List.mem_cons_of_mem _ hx)

theorem branchStates_spec (h : Separate e) (hes : es ∈ e.live) (n : Nat) (draws : BranchDraws T) :
    ∃ result e', e.branchStates es n draws = .ok (result, e') ∧ Separate e' ∧ Keeps e e' ∧ (result.filterMap id).Nodup ∧
      ∀ ns ∈ result.filterMap id, ns ∈ e'.live := by
  rw [branchStates]
  split
  · refine ⟨_, e, rfl, h, .refl e, ?_, ?_⟩
    · rw [List.filterMap_map]
      refine List.nodup_range.filterMap fun i j x hi hj => ?_
      simp only [Function.comp_apply, id, Option.mem_def, Option.ite_none_right_eq_some] at hi hj
      rw [hi.1, hj.1]
    · intro ns hns
      rw [List.filterMap_map, List.mem_filterMap] at hns
      obtain ⟨i, -, hi⟩ := hns
      simp only [Function.comp_apply, id, Option.ite_none_right_eq_some, Option.some.injEq] at hi
      rwa [← hi.2]
  · obtain ⟨result, e', heq, hsep, hkeeps, hnodup, hlive, -⟩ := copies_spec h hes draws n
    have hmap : (result.map some).filterMap id = result := by
      rw [List.filterMap_map]
      exact List.filterMap_some
    refine ⟨result.map some, e', ?_, hsep, hkeeps, ?_, ?_⟩
    · rw [heq]
      rfl
    · rwa [hmap]
    · rwa [hmap]

theorem branch_spec (h : Separate e) (hes : es ∈ e.live) (n : Nat) (draws : BranchDraws T) :
    ∃ r e', e.branch es n draws = .ok (r, e') ∧ Separate e' ∧ Keeps e e' := by
  obtain ⟨result, e₁, heq₁, hsep₁, hkeeps₁, hnodup, hlive⟩ := branchStates_spec h hes n draws
  obtain ⟨result', e', heq, hsep, hkeeps, hleft, -⟩ := redistribute_spec draws.seedless hsep₁ hnodup hlive
  refine ⟨result', e', ?_, hsep, hkeeps₁.trans hkeeps⟩
  rw [branch, h.use hes]
  simp only [bind, Except.bind, heq₁, heq, use_all hsep hleft]
  rfl

end

/-! ### Updates -/

section
variable {c : Composition} {e e' : StateSets (c.searcher T).State T} {call : Call (c.searcher T)}

theorem foldlM_eraseRemoved {l : List T} {states : Finset T} (hnodup : l.Nodup) (hl : ∀ es ∈ l, es ∈ states) :
    l.foldlM eraseRemoved states = .ok (states \ l.toFinset) := by
  induction l generalizing states with
  | nil => simp [pure, Except.pure]
  | cons es l ih =>
    obtain ⟨hnew, hnodup⟩ := List.nodup_cons.mp hnodup
    have herase : eraseRemoved states es = .ok (states.erase es) := if_pos (hl es List.mem_cons_self)
    have hrest : ∀ x ∈ l, x ∈ states.erase es := fun x hx =>
      Finset.mem_erase.mpr ⟨fun heq => hnew (heq ▸ hx), hl x (List.mem_cons_of_mem _ hx)⟩
    simp only [List.foldlM_cons, herase, bind, Except.bind]
    rw [ih hnodup hrest, List.toFinset_cons, Finset.sdiff_insert, Finset.erase_sdiff_comm]

/-- The sets are as documented, and the searcher, while there is one, holds `states`. -/
structure Consistent (c : Composition) (e : StateSets (c.searcher T).State T) : Prop where
  separate : Separate e
  searcher : ∀ s, e.searcher = some s → c.Holds T s e.states

/-- A call gets a state of the executor. A run begins with a new searcher, and its loop selects a state while there is one. -/
def Given (c : Composition) (e : StateSets (c.searcher T).State T) : Call (c.searcher T) → Prop
  | .run _ constructed _ => (c.searcher T).Constructed constructed
  | .selectState _ => (∃ s, e.searcher = some s) ∧ e.states.Nonempty
  | .fork es _ | .branch es _ _ | .terminateState es | .terminateStateEarly es | .terminateStateOnExit es
  | .terminateStateOnError es => es ∈ e.live
  | .updateStates _ _ | .deleteSearcher => True

/-- An error ends a state that the searcher has, and the searcher admits the update. -/
def Meets (c : Composition) (e : StateSets (c.searcher T).State T) : Call (c.searcher T) → Prop
  | .terminateStateOnError es => es ∈ e.states
  | .updateStates current o => ∀ s, e.searcher = some s → c.Admits T s e.states current e.addedStates e.removedStates o
  | .run .. | .selectState _ | .fork .. | .branch .. | .terminateState _ | .terminateStateEarly _ | .terminateStateOnExit _
  | .deleteSearcher => True

theorem Consistent.of_keeps (h : Consistent c e) (hsep : Separate e') (hkeeps : Keeps e e') : Consistent c e' where
  separate := hsep
  searcher s hs := by
    rw [hkeeps.states]
    exact h.searcher s (hkeeps.searcher ▸ hs)

theorem Separate.updated {e : StateSets S T} (h : Separate e) (s : Option S) : Separate
    { e with searcher := s, states := (e.states ∪ e.addedStates) \ e.removedStates, addedStates := ∅, removedStates := ∅ } where
  removed := Finset.empty_subset _
  added := Finset.disjoint_empty_left _
  addedRemoved := Finset.disjoint_empty_left _
  allocated := by
    rw [live, Finset.union_empty]
    exact Finset.sdiff_subset.trans h.allocated

/-- The assertion about removed states holds, and the update is that of the searcher. -/
theorem update_cases (h : Consistent c e) (current : Option T) (o : Readings T) :
    (∃ e', e.updateStates (c.searcher T) current o = .ok e' ∧ Consistent c e') ∧ Meets c e (.updateStates current o) ∨
      (∃ fault, e.updateStates (c.searcher T) current o = .error fault) ∧ ¬Meets c e (.updateStates current o) := by
  have hsub : e.removedStates ⊆ e.states ∪ e.addedStates := h.separate.removed.trans Finset.subset_union_left
  have herase : (inOrder e.removedStates).foldlM eraseRemoved (e.states ∪ e.addedStates) =
      .ok ((e.states ∪ e.addedStates) \ e.removedStates) := by
    rw [foldlM_eraseRemoved (nodup_inOrder _) fun es hes => hsub (mem_inOrder.mp hes), toFinset_inOrder]
  cases hsearcher : e.searcher with
  | none =>
    refine .inl ⟨⟨_, ?_, h.separate.updated none, fun s hs => absurd hs.symm (Option.some_ne_none s)⟩,
      fun s hs => absurd (hs.symm.trans hsearcher) (Option.some_ne_none s)⟩
    simp only [updateStates, updateSearcher, hsearcher, herase, bind, Except.bind]
    rfl
  | some s =>
    by_cases hadmits : c.Admits T s e.states current e.addedStates e.removedStates o
    · obtain ⟨s', heq, hholds⟩ := c.keeps.update s _ current _ _ o (h.searcher s hsearcher) h.separate.added hsub hadmits
      refine .inl ⟨⟨_, ?_, h.separate.updated (some s'), fun s'' hs => ?_⟩, fun s'' hs => ?_⟩
      · simp only [updateStates, updateSearcher, hsearcher, heq, herase, bind, Except.bind]
        rfl
      · obtain rfl := Option.some.inj hs
        exact hholds
      · obtain rfl := Option.some.inj (hsearcher.symm.trans hs)
        exact hadmits
    · refine .inr ⟨⟨.assertion, ?_⟩, fun hmeets => hadmits (hmeets s hsearcher)⟩
      cases hupdate : (c.searcher T).update s current e.addedStates e.removedStates o with
      | none => simp only [updateStates, updateSearcher, hsearcher, hupdate, bind, Except.bind]
      | some s' => exact absurd (c.keeps.admits s _ current _ _ o s' (h.searcher s hsearcher) h.separate.added hupdate).2 hadmits

/-! ### Runs -/

theorem Separate.run {e : StateSets S T} (h : Separate e) {initialState : T} (hnew : initialState ∉ e.allocated) (s : Option S) :
    Separate { e with states := insert initialState e.states, searcher := s, allocated := insert initialState e.allocated } where
  removed := h.removed.trans (Finset.subset_insert _ _)
  added := Finset.disjoint_insert_right.mpr ⟨fun hmem => hnew (h.allocated (mem_live.mpr (.inr hmem))), h.added⟩
  addedRemoved := h.addedRemoved
  allocated es hes := by
    rcases mem_live.mp hes with hes | hes
    · rcases Finset.mem_insert.mp hes with rfl | hes
      · exact Finset.mem_insert_self _ _
      · exact Finset.mem_insert_of_mem (h.allocated (mem_live.mpr (.inl hes)))
    · exact Finset.mem_insert_of_mem (h.allocated (mem_live.mpr (.inr hes)))

/-- A call goes well just when it meets the condition. -/
theorem step_cases (h : Consistent c e) (hgiven : Given c e call) :
    (∃ e', e.step (c.searcher T) call = .ok e' ∧ Consistent c e') ∧ Meets c e call ∨
      (∃ fault, e.step (c.searcher T) call = .error fault) ∧ ¬Meets c e call := by
  cases call with
  | run allocator constructed o =>
    obtain ⟨s, heq, hholds⟩ := c.keeps.update constructed ∅ none (insert (allocator.new e.allocated) e.states) ∅ o
      (c.keeps.constructed _ hgiven) (Finset.disjoint_empty_right _) (Finset.empty_subset _) (c.keeps.adds ..)
    refine .inl ⟨⟨_, ?_, h.separate.run (allocator.new_notMem _) (some s), fun s' hs => ?_⟩, trivial⟩
    · simp only [step, StateSets.run, heq]
    · obtain rfl := Option.some.inj hs
      simpa using hholds
  | selectState o =>
    obtain ⟨⟨s, hs⟩, hstates⟩ := hgiven
    obtain ⟨es, s', heq, -, hholds⟩ := c.keeps.selectState s e.states o (h.searcher s hs) hstates
    refine .inl ⟨⟨{ e with searcher := some s' }, ?_, ⟨h.separate.removed, h.separate.added, h.separate.addedRemoved,
      h.separate.allocated⟩, fun s'' hs'' => ?_⟩, trivial⟩
    · simp only [step, StateSets.selectState, hs, Option.bind_some, heq]
    · obtain rfl := Option.some.inj hs''
      exact hholds
  | fork es draws =>
    obtain ⟨r, e', heq, hsep, hkeeps⟩ := fork_spec h.separate hgiven draws
    exact .inl ⟨⟨e', by rw [step, heq]; rfl, h.of_keeps hsep hkeeps⟩, trivial⟩
  | branch es n draws =>
    obtain ⟨r, e', heq, hsep, hkeeps⟩ := branch_spec h.separate hgiven n draws
    exact .inl ⟨⟨e', by rw [step, heq]; rfl, h.of_keeps hsep hkeeps⟩, trivial⟩
  | terminateState es | terminateStateEarly es =>
    obtain ⟨e', heq, hsep, hkeeps, -⟩ := terminateState_spec h.separate hgiven
    exact .inl ⟨⟨e', heq, h.of_keeps hsep hkeeps⟩, trivial⟩
  | terminateStateOnExit es =>
    obtain ⟨e', heq, hsep, hkeeps⟩ := terminateStateOnExit_spec h.separate hgiven
    exact .inl ⟨⟨e', heq, h.of_keeps hsep hkeeps⟩, trivial⟩
  | terminateStateOnError es =>
    have hspec := terminateStateOnError_spec h.separate hgiven
    by_cases hstates : es ∈ e.states
    · rw [if_pos hstates] at hspec
      obtain ⟨e', heq, hsep, hkeeps⟩ := hspec
      exact .inl ⟨⟨e', heq, h.of_keeps hsep hkeeps⟩, hstates⟩
    · rw [if_neg hstates] at hspec
      exact .inr ⟨⟨_, hspec⟩, hstates⟩
  | updateStates current o => exact update_cases h current o
  | deleteSearcher =>
    refine .inl ⟨⟨{ e with searcher := none }, rfl, ⟨h.separate.removed, h.separate.added, h.separate.addedRemoved,
      h.separate.allocated⟩, fun s hs => absurd hs.symm (Option.some_ne_none s)⟩, trivial⟩

/-- No call fails, and the sets are consistent before and after each. -/
def GoesWell (c : Composition) (e : StateSets (c.searcher T).State T) : List (Call (c.searcher T)) → Prop
  | [] => Consistent c e
  | call :: calls => Consistent c e ∧ ∃ e', e.step (c.searcher T) call = .ok e' ∧ GoesWell c e' calls

/-- Each call of a run has the property in the state before it. -/
def Along (c : Composition) (P : StateSets (c.searcher T).State T → Call (c.searcher T) → Prop)
    (e : StateSets (c.searcher T).State T) : List (Call (c.searcher T)) → Prop
  | [] => True
  | call :: calls => P e call ∧ ∀ e', e.step (c.searcher T) call = .ok e' → Along c P e' calls

theorem goesWell_iff (h : Consistent c e) {calls : List (Call (c.searcher T))} (hgiven : Along c (Given c) e calls) :
    GoesWell c e calls ↔ Along c (Meets c) e calls := by
  induction calls generalizing e with
  | nil => exact iff_of_true h trivial
  | cons call calls ih =>
    obtain ⟨hcall, hrest⟩ := hgiven
    rcases step_cases h hcall with ⟨⟨e', heq, h'⟩, hmeets⟩ | ⟨⟨fault, heq⟩, hmeets⟩
    · have htail := ih h' (hrest e' heq)
      constructor
      · rintro ⟨-, e'', heq', hwell⟩
        obtain rfl := Except.ok.inj (heq.symm.trans heq')
        refine ⟨hmeets, fun e₂ heq₂ => ?_⟩
        obtain rfl := Except.ok.inj (heq.symm.trans heq₂)
        exact htail.mp hwell
      · exact fun ⟨_, hmeetsRest⟩ => ⟨h, e', heq, htail.mpr (hmeetsRest e' heq)⟩
    · refine iff_of_false ?_ fun hboth => hmeets hboth.1
      rintro ⟨-, e', heq', -⟩
      rw [heq] at heq'
      cases heq'

theorem consistent_empty : Consistent c ({} : StateSets (c.searcher T).State T) where
  separate := ⟨Finset.empty_subset _, Finset.disjoint_empty_left _, Finset.disjoint_empty_left _, by rw [live, Finset.union_empty]⟩
  searcher s hs := absurd hs.symm (Option.some_ne_none s)

/-- A run in which each call gets states of the executor goes well exactly when each meets the condition. -/
theorem run_goesWell_iff {calls : List (Call (c.searcher T))} (hgiven : Along c (Given c) {} calls) :
    GoesWell c {} calls ↔ Along c (Meets c) {} calls :=
  goesWell_iff consistent_empty hgiven

theorem Along.cons {P : StateSets (c.searcher T).State T → Call (c.searcher T) → Prop} {calls : List (Call (c.searcher T))}
    (hcall : P e call) (heq : e.step (c.searcher T) call = .ok e') (hrest : Along c P e' calls) : Along c P e (call :: calls) := by
  refine ⟨hcall, fun e₂ heq₂ => ?_⟩
  obtain rfl := Except.ok.inj (heq.symm.trans heq₂)
  exact hrest

end

/-! ### A state that is born and terminated in one instruction -/

/-- Numbers that grow. -/
def above : Allocator Nat where
  new allocated := allocated.sup id + 1
  new_notMem _ hmem := absurd (Finset.le_sup (f := id) hmem) (Nat.not_le.mpr (Nat.lt_succ_self _))

/-- The initial state is 1, and the searcher has it. -/
def started : StateSets (Composition.dfs.searcher Nat).State Nat where
  states := {1}
  searcher := some [1]
  allocated := {1}

/-- A fork has made the state 2. -/
def forked : StateSets (Composition.dfs.searcher Nat).State Nat where
  states := {1}
  addedStates := {2}
  searcher := some [1]
  allocated := {2, 1}

/-- A run whose first instruction forks. -/
def forkingRun (calls : List (Call (Composition.dfs.searcher Nat))) : List (Call (Composition.dfs.searcher Nat)) :=
  .run above [] (Composition.readings 0) :: .fork 1 ⟨some .Unknown, false, false, above⟩ :: calls

theorem step_run : StateSets.step (Composition.dfs.searcher Nat) {} (.run above [] (Composition.readings 0)) = .ok started := by
  have hupdate : (Composition.dfs.searcher Nat).update [] none (insert (above.new ∅) ∅) ∅ (Composition.readings 0) = some [1] := by
    simp [Composition.searcher, DFSSearcher, Searcher.updateStates, inOrder, above]
  simp only [step, StateSets.run, hupdate]
  rfl

theorem step_fork : started.step (Composition.dfs.searcher Nat) (.fork 1 ⟨some .Unknown, false, false, above⟩) = .ok forked := rfl

theorem mem_started : 1 ∈ started.live := by decide

theorem mem_forked : 2 ∈ forked.live := by decide

/-- A run that errors in a state that the searcher has. -/
theorem run_goesWell_knownState : GoesWell Composition.dfs {} (forkingRun [.terminateStateEarly 2, .terminateStateOnError 1]) := by
  have hend : forked.step (Composition.dfs.searcher Nat) (.terminateStateEarly 2) = .ok started := rfl
  refine (run_goesWell_iff ?_).mpr ?_
  · exact .cons rfl step_run (.cons mem_started step_fork (.cons mem_forked hend ⟨mem_started, fun _ _ => trivial⟩))
  · exact .cons trivial step_run (.cons trivial step_fork (.cons trivial hend ⟨Finset.mem_singleton_self 1, fun _ _ => trivial⟩))

/-- The new state is deleted before the listeners get it. -/
theorem not_goesWell_newState : Along Composition.dfs (Given Composition.dfs) {} (forkingRun [.terminateStateOnError 2]) ∧
    forked.step (Composition.dfs.searcher Nat) (.terminateStateOnError 2) = .error .useAfterDelete ∧
    ¬GoesWell Composition.dfs {} (forkingRun [.terminateStateOnError 2]) := by
  have herror : forked.step (Composition.dfs.searcher Nat) (.terminateStateOnError 2) = .error .useAfterDelete := rfl
  refine ⟨.cons rfl step_run (.cons mem_started step_fork ⟨mem_forked, fun _ _ => trivial⟩), herror, ?_⟩
  rintro ⟨-, e₁, heq₁, -, e₂, heq₂, -, e₃, heq₃, -⟩
  obtain rfl := Except.ok.inj (step_run.symm.trans heq₁)
  obtain rfl := Except.ok.inj (step_fork.symm.trans heq₂)
  rw [herror] at heq₃
  cases heq₃

end CapTaint.StateSets
