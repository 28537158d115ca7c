import Mathlib
import CapTaint.Klee.Searcher
import CapTaint.Theorems.DiscretePDF

/-! # Searchers hold what they are given

Each class keeps the states that have been added and not removed, if the searchers that it is made of do. A searcher that
pauses states holds them too. -/

namespace CapTaint.Klee.Searcher

variable {T : Type} [LinearOrder T] {known addedStates removedStates : Finset T} {current : Option T} {o : Readings T} {es : T}

/-! ### Lists -/

section InOrder

variable {α : Type} [LinearOrder α] {states : Finset α} {x : α}

theorem nodup_inOrder (states : Finset α) : (inOrder states).Nodup := states.sort_nodup (· ≤ ·)

theorem mem_inOrder : x ∈ inOrder states ↔ x ∈ states := states.mem_sort (· ≤ ·)

theorem toFinset_inOrder [DecidableEq α] (states : Finset α) : (inOrder states).toFinset = states := by
  ext x
  rw [List.mem_toFinset, mem_inOrder]

end InOrder

/-- The list has the states, each once. -/
def Lists (states : List T) (known : Finset T) : Prop := states.Nodup ∧ ∀ es, es ∈ states ↔ es ∈ known

/-- One state is removed from whatever holds it, and only if it does. -/
structure Removes {S : Type} (Holds : S → Finset T → Prop) (remove : S → T → Option S) : Prop where
  removed : ∀ s known es, Holds s known → es ∈ known → ∃ s', remove s es = some s' ∧ Holds s' (known \ {es})
  mem : ∀ s known es s', Holds s known → remove s es = some s' → es ∈ known

theorem eraseState_removes : Removes Lists (eraseState (T := T)) where
  removed states known es h hes := by
    refine ⟨states.erase es, if_pos ((h.2 es).mpr hes), h.1.erase es, fun es' => ?_⟩
    rw [h.1.mem_erase_iff, h.2, Finset.mem_sdiff, Finset.mem_singleton, and_comm]
  mem states known es states' h heq := by
    obtain ⟨hmem, -⟩ := Option.ite_none_right_eq_some.mp heq
    exact (h.2 es).mp hmem

theorem eraseFromBack_removes : Removes Lists (eraseFromBack (T := T)) where
  removed states known es h hes := by
    unfold eraseFromBack
    split
    case isTrue hlast =>
      obtain ⟨front, rfl⟩ := List.getLast?_eq_some_iff.mp hlast
      obtain ⟨hfront, -, hdisjoint⟩ := List.nodup_append'.mp h.1
      have hnot : es ∉ front := fun hmem => hdisjoint hmem (List.mem_singleton_self es)
      refine ⟨front, by rw [List.dropLast_concat], hfront, fun es' => ?_⟩
      rw [Finset.mem_sdiff, Finset.mem_singleton, ← h.2, List.mem_append, List.mem_singleton]
      exact ⟨fun hmem => ⟨.inl hmem, fun heq => hnot (heq ▸ hmem)⟩, fun hmem => hmem.1.resolve_right hmem.2⟩
    case isFalse => exact eraseState_removes.removed states known es h hes
  mem states known es states' h heq := by
    unfold eraseFromBack at heq
    split at heq
    case isTrue hlast => exact (h.2 es).mp (List.mem_of_getLast? hlast)
    case isFalse => exact eraseState_removes.mem states known es states' h heq

theorem eraseFromFront_removes : Removes Lists (eraseFromFront (T := T)) where
  removed states known es h hes := by
    unfold eraseFromFront
    split
    case isTrue hhead =>
      obtain ⟨rest, rfl⟩ := List.head?_eq_some_iff.mp hhead
      obtain ⟨hnot, hrest⟩ := List.nodup_cons.mp h.1
      refine ⟨rest, rfl, hrest, fun es' => ?_⟩
      rw [Finset.mem_sdiff, Finset.mem_singleton, ← h.2, List.mem_cons]
      exact ⟨fun hmem => ⟨.inr hmem, fun heq => hnot (heq ▸ hmem)⟩, fun hmem => hmem.1.resolve_left hmem.2⟩
    case isFalse => exact eraseState_removes.removed states known es h hes
  mem states known es states' h heq := by
    unfold eraseFromFront at heq
    split at heq
    case isTrue hhead => exact (h.2 es).mp (List.mem_of_mem_head? hhead)
    case isFalse => exact eraseState_removes.mem states known es states' h heq

section
variable {S : Type} {Holds : S → Finset T → Prop} {remove : S → T → Option S} {l : List T} {s s' : S}

theorem Removes.foldlM (hremove : Removes Holds remove) (hl : l.Nodup) (h : Holds s known) (hsub : ∀ es ∈ l, es ∈ known) :
    ∃ s', l.foldlM remove s = some s' ∧ Holds s' (known \ l.toFinset) := by
  induction l generalizing s known with
  | nil => exact ⟨s, rfl, by simpa using h⟩
  | cons es l ih =>
    obtain ⟨hnot, hl⟩ := List.nodup_cons.mp hl
    obtain ⟨s₁, heq₁, h₁⟩ := hremove.removed s known es h (hsub es List.mem_cons_self)
    obtain ⟨s', heq, h'⟩ := ih hl h₁ fun es' hes' => by
      rw [Finset.mem_sdiff, Finset.mem_singleton]
      exact ⟨hsub es' (List.mem_cons_of_mem _ hes'), fun heq => hnot (heq ▸ hes')⟩
    refine ⟨s', by rw [List.foldlM_cons, heq₁]; exact heq, ?_⟩
    rwa [sdiff_sdiff_left, Finset.sup_eq_union, ← Finset.insert_eq, ← List.toFinset_cons] at h'

theorem Removes.subset (hremove : Removes Holds remove) (h : Holds s known) (heq : l.foldlM remove s = some s') :
    ∀ es ∈ l, es ∈ known := by
  induction l generalizing s known with
  | nil => exact fun _ hes => absurd hes List.not_mem_nil
  | cons es l ih =>
    rw [List.foldlM_cons] at heq
    obtain ⟨s₁, heq₁, heq⟩ := Option.bind_eq_some_iff.mp heq
    have hes := hremove.mem s known es s₁ h heq₁
    obtain ⟨s₂, heq₂, h₂⟩ := hremove.removed s known es h hes
    obtain rfl := Option.some.inj (heq₁.symm.trans heq₂)
    refine List.forall_mem_cons.mpr ⟨hes, fun es' hes' => ?_⟩
    exact (Finset.mem_sdiff.mp (ih h₂ heq es' hes')).1

end

section
variable {remove : List T → T → Option (List T)} {states states' : List T}

theorem Lists.append (h : Lists states known) (hadded : Disjoint addedStates known) :
    Lists (states ++ inOrder addedStates) (known ∪ addedStates) := by
  refine ⟨h.1.append (nodup_inOrder _) fun es hes hes' => ?_, fun es => ?_⟩
  · exact Finset.disjoint_right.mp hadded ((h.2 es).mp hes) (mem_inOrder.mp hes')
  · rw [List.mem_append, h.2, mem_inOrder, Finset.mem_union]

theorem updateStates_spec (hremove : Removes Lists remove) (h : Lists states known) (hadded : Disjoint addedStates known)
    (hremoved : removedStates ⊆ known ∪ addedStates) :
    ∃ states', updateStates remove states addedStates removedStates = some states' ∧
      Lists states' ((known ∪ addedStates) \ removedStates) := by
  obtain ⟨states', heq, h'⟩ := hremove.foldlM (nodup_inOrder _) (h.append hadded)
    fun es hes => hremoved (mem_inOrder.mp hes)
  exact ⟨states', heq, by rwa [toFinset_inOrder] at h'⟩

theorem updateStates_subset (hremove : Removes Lists remove) (h : Lists states known) (hadded : Disjoint addedStates known)
    (heq : updateStates remove states addedStates removedStates = some states') : removedStates ⊆ known ∪ addedStates :=
  fun es hes => hremove.subset (h.append hadded) heq es (mem_inOrder.mpr hes)

omit [LinearOrder T] in
theorem lists_nil : Lists ([] : List T) ∅ := ⟨List.nodup_nil, fun es => by simp⟩

omit [LinearOrder T] in
theorem Lists.isEmpty_iff (h : Lists states known) : states.isEmpty = true ↔ known = ∅ := by
  rw [List.isEmpty_iff, List.eq_nil_iff_forall_not_mem, Finset.eq_empty_iff_forall_notMem]
  exact forall_congr' fun es => not_congr (h.2 es)

omit [LinearOrder T] in
theorem Lists.length_pos (h : Lists states known) (hknown : known.Nonempty) : 0 < states.length := by
  obtain ⟨es, hes⟩ := hknown
  exact List.length_pos_of_mem ((h.2 es).mpr hes)

omit [LinearOrder T] in
/-- Any place of the list will do. -/
theorem Lists.get (h : Lists states known) {i : Nat} (hi : i < states.length) : ∃ es, states[i]? = some es ∧ es ∈ known :=
  ⟨_, List.getElem?_eq_getElem hi, (h.2 _).mp (List.getElem_mem hi)⟩

end

/-! ### Weights -/

/-- The tree has the states. -/
def Weighs (states : DiscretePDF T) (known : Finset T) : Prop :=
  ∃ m, DiscretePDF.Stores states m ∧ ∀ es, es ∈ m.entries.map Prod.fst ↔ es ∈ known

theorem lookup_isSome {m : SortedList (Prod.fst : T × ℚ → T)}
    (hm : ∀ es, es ∈ m.entries.map Prod.fst ↔ es ∈ known) (hes : es ∈ known) : (m.lookup es).isSome = true := by
  obtain ⟨entry, hentry, hkey⟩ := List.mem_map.mp ((hm es).mpr hes)
  rw [SortedList.lookup_eq_some.mpr ⟨hentry, hkey⟩]
  rfl

theorem Weighs.insert {states : DiscretePDF T} (h : Weighs states known) (hes : es ∉ known) (weight : ℚ) :
    ∃ states', states.insert es weight = some states' ∧ Weighs states' (known ∪ {es}) := by
  obtain ⟨m, hstores, hm⟩ := h
  have hnew : ∀ entry ∈ m.entries, entry.1 ≠ es := by
    rintro entry hentry rfl
    exact hes ((hm _).mp (List.mem_map_of_mem hentry))
  obtain ⟨states', heq, hstores', -⟩ := DiscretePDF.insert_spec weight hstores hnew
  refine ⟨states', heq, _, hstores', fun es' => ?_⟩
  rw [Finset.mem_union, Finset.mem_singleton, ← hm, List.mem_map, List.mem_map]
  constructor
  · rintro ⟨entry, hentry, rfl⟩
    rcases SortedList.mem_replace.mp hentry with rfl | ⟨hentry, -⟩
    · exact .inr rfl
    · exact .inl ⟨entry, hentry, rfl⟩
  · rintro (⟨entry, hentry, rfl⟩ | rfl)
    · exact ⟨entry, SortedList.mem_replace.mpr (.inr ⟨hentry, hnew entry hentry⟩), rfl⟩
    · exact ⟨_, SortedList.mem_replace.mpr (.inl rfl), rfl⟩

theorem Weighs.remove {states : DiscretePDF T} (h : Weighs states known) (hes : es ∈ known) :
    ∃ states', states.remove es = some states' ∧ Weighs states' (known \ {es}) := by
  obtain ⟨m, hstores, hm⟩ := h
  obtain ⟨states', heq, hstores', -⟩ := DiscretePDF.remove_spec hstores (lookup_isSome hm hes)
  refine ⟨states', heq, _, hstores', fun es' => ?_⟩
  rw [Finset.mem_sdiff, Finset.mem_singleton, ← hm, List.mem_map, List.mem_map]
  constructor
  · rintro ⟨entry, hentry, rfl⟩
    obtain ⟨hentry, hne⟩ := SortedList.mem_remove.mp hentry
    exact ⟨⟨entry, hentry, rfl⟩, hne⟩
  · rintro ⟨⟨entry, hentry, rfl⟩, hne⟩
    exact ⟨entry, SortedList.mem_remove.mpr ⟨hentry, hne⟩, rfl⟩

theorem Weighs.update {states : DiscretePDF T} (h : Weighs states known) (hes : es ∈ known) (weight : ℚ) :
    ∃ states', states.update es weight = some states' ∧ Weighs states' known := by
  obtain ⟨m, hstores, hm⟩ := h
  obtain ⟨states', heq, hstores', -⟩ := DiscretePDF.update_spec weight hstores (lookup_isSome hm hes)
  refine ⟨states', heq, _, hstores', fun es' => ?_⟩
  rw [← hm, List.mem_map, List.mem_map]
  constructor
  · rintro ⟨entry, hentry, rfl⟩
    rcases SortedList.mem_replace.mp hentry with rfl | ⟨hentry, -⟩
    · exact List.mem_map.mp ((hm es).mpr hes)
    · exact ⟨entry, hentry, rfl⟩
  · rintro ⟨entry, hentry, rfl⟩
    by_cases hkey : entry.1 = es
    · exact ⟨_, SortedList.mem_replace.mpr (.inl rfl), hkey.symm⟩
    · exact ⟨entry, SortedList.mem_replace.mpr (.inr ⟨hentry, hkey⟩), rfl⟩

omit [LinearOrder T] in
/-- Whatever the weights are, the loop of `choose` stops at an item of the tree. -/
theorem walk_mem {states : DiscretePDF T} {fuel n : Nat} {w : ℚ} {above : Option Nat} {l r : LinkedTree.Tree (T × ℚ)} {x : T × ℚ}
    (hshape : DiscretePDF.view.Shape states.nodes above (.node l n x r)) (hsums : DiscretePDF.OffPath states [] (.node l n x r))
    (hfuel : (LinkedTree.Tree.node l n x r).toList.length < fuel) :
    ∃ y ∈ DiscretePDF.entries (.node l n x r), DiscretePDF.walk fuel states w n = some y.1 := by
  induction fuel generalizing w above l n x r with
  | zero => exact absurd hfuel (Nat.not_lt_zero _)
  | succ fuel ih =>
    obtain ⟨⟨c, hc, hlinks, hvalue⟩, hlshape, hrshape⟩ := hshape
    obtain ⟨-, hlsums, hrsums⟩ := hsums
    have hleft : c.left = l.ptr := congrArg LinkedTree.Links.left hlinks
    have hright : c.right = r.ptr := congrArg LinkedTree.Links.right hlinks
    have hkey : c.key = x.1 := congrArg Prod.fst hvalue
    have hbelow : states.sumBelow l.ptr = some (states.sum l.ptr) :=
      DiscretePDF.sumBelow_eq fun i hi => DiscretePDF.shape_live hlshape (LinkedTree.ptr_mem hi)
    rw [LinkedTree.Tree.toList, List.length_append, List.length_cons] at hfuel
    simp only [DiscretePDF.walk, hc, hleft, hright, hkey, hbelow, Option.bind_eq_bind, Option.bind_some]
    rw [DiscretePDF.entries_tree]
    split
    case isTrue hdown =>
      cases l with
      | nil => cases hdown.1
      | node l₁ k z l₂ =>
        obtain ⟨y, hy, heq⟩ := ih (w := w) hlshape hlsums (by omega)
        exact ⟨y, List.mem_append_left _ hy, heq⟩
    case isFalse =>
      cases r with
      | nil => exact ⟨x, List.mem_append_right _ List.mem_cons_self, rfl⟩
      | node r₁ k z r₂ =>
        by_cases hhere : w - states.sum l.ptr < c.weight
        · exact ⟨x, List.mem_append_right _ List.mem_cons_self, if_pos hhere⟩
        · obtain ⟨y, hy, heq⟩ := ih (w := w - states.sum l.ptr - c.weight) hrshape hrsums (by omega)
          exact ⟨y, List.mem_append_right _ (List.mem_cons_of_mem _ hy), (if_neg hhere).trans heq⟩

theorem Weighs.choose {states : DiscretePDF T} (h : Weighs states known) (hknown : known.Nonempty) {p : ℚ} (hp : 0 ≤ p ∧ p < 1) :
    ∃ es ∈ known, states.choose p = some es := by
  obtain ⟨m, ⟨⟨L, t, hinv, hentries⟩, -, hfresh⟩, hm⟩ := h
  have hlist : DiscretePDF.entries t = m.entries := by rw [DiscretePDF.entries, show t.toList = L from hinv.toList, hentries]
  cases t with
  | nil =>
    obtain ⟨es, hes⟩ := hknown
    rw [← hm, ← hlist] at hes
    cases hes
  | node l n x r =>
    obtain ⟨c, hc, -⟩ := (show DiscretePDF.view.Holds states.nodes states.m_root [] (.join .left l n x r) from hinv.holds).at
    have hroot : states.m_root = some n := hinv.root_eq
    have hshort : (LinkedTree.Tree.node l n x r).toList.length < states.next + 1 := by
      rw [show (LinkedTree.Tree.node l n x r).toList = L from hinv.toList]
      exact Nat.lt_succ_of_le (hinv.length_le hfresh)
    obtain ⟨y, hy, heq⟩ := walk_mem (w := c.sumWeights * p) hinv.holds.shape hinv.sums hshort
    refine ⟨y.1, (hm _).mp (List.mem_map_of_mem (hlist ▸ hy)), ?_⟩
    simp only [DiscretePDF.choose, if_neg (not_or.mpr ⟨hp.1.not_gt, hp.2.not_ge⟩), hroot, hc, Option.bind_eq_bind, Option.bind_some]
    exact heq

theorem Weighs.empty {states : DiscretePDF T} (h : Weighs states known) : states.m_root.isNone = true ↔ known = ∅ := by
  obtain ⟨m, ⟨⟨L, t, hinv, hentries⟩, -, hfresh⟩, hm⟩ := h
  have hlist : DiscretePDF.entries t = m.entries := by rw [DiscretePDF.entries, show t.toList = L from hinv.toList, hentries]
  have hroot : states.m_root = t.ptr := hinv.root_eq
  rw [hroot, Finset.eq_empty_iff_forall_notMem]
  simp only [← hm, ← hlist]
  cases t with
  | nil => exact iff_of_true rfl fun es hes => by cases hes
  | node l n x r =>
    refine iff_of_false (by simp [LinkedTree.Tree.ptr]) fun hall => hall x.1 (List.mem_map_of_mem ?_)
    rw [DiscretePDF.entries_tree]
    exact List.mem_append_right _ List.mem_cons_self

/-! ### What a class promises -/

/-- The states that an object of the class holds are kept by all calls. A call of `update` succeeds just when it removes states
that are there and is admitted. -/
structure Keeps (searcher : Searcher T) (Holds : searcher.State → Finset T → Prop)
    (Admits : searcher.State → Finset T → Option T → Finset T → Finset T → Readings T → Prop) : Prop where
  constructed : ∀ s, searcher.Constructed s → Holds s ∅
  empty : ∀ s known, Holds s known → (searcher.empty s = true ↔ known = ∅)
  selectState : ∀ s known o, Holds s known → known.Nonempty →
    ∃ es s', searcher.selectState s o = some (es, s') ∧ es ∈ known ∧ Holds s' known
  update : ∀ s known current addedStates removedStates o, Holds s known → Disjoint addedStates known →
    removedStates ⊆ known ∪ addedStates → Admits s known current addedStates removedStates o →
      ∃ s', searcher.update s current addedStates removedStates o = some s' ∧ Holds s' ((known ∪ addedStates) \ removedStates)
  admits : ∀ s known current addedStates removedStates o s', Holds s known → Disjoint addedStates known →
    searcher.update s current addedStates removedStates o = some s' →
      removedStates ⊆ known ∪ addedStates ∧ Admits s known current addedStates removedStates o
  adds : ∀ s known addedStates o, Admits s known none addedStates ∅ o

/-- All calls are. -/
def AdmitsAll (S : Type) : S → Finset T → Option T → Finset T → Finset T → Readings T → Prop := fun _ _ _ _ _ _ => True

theorem keeps_dfs : Keeps (DFSSearcher T) Lists (AdmitsAll (List T)) where
  constructed := by
    rintro _ rfl
    exact lists_nil
  empty _ _ h := h.isEmpty_iff
  selectState states known o h hknown := by
    obtain ⟨es, hget, hes⟩ := h.get (Nat.sub_one_lt_of_lt (h.length_pos hknown))
    have hlast : List.getLast? (α := T) states = some es := List.getLast?_eq_getElem?.trans hget
    exact ⟨es, states, congrArg (Option.map fun es => (es, states)) hlast, hes, h⟩
  update _ _ _ _ _ _ h hadded hremoved _ := updateStates_spec eraseFromBack_removes h hadded hremoved
  admits _ _ _ _ _ _ _ h hadded heq := ⟨updateStates_subset eraseFromBack_removes h hadded heq, trivial⟩
  adds _ _ _ _ := trivial

theorem keeps_bfs : Keeps (BFSSearcher T) Lists (AdmitsAll (List T)) where
  constructed := by
    rintro _ rfl
    exact lists_nil
  empty _ _ h := h.isEmpty_iff
  selectState states known o h hknown := by
    obtain ⟨es, hget, hes⟩ := h.get (h.length_pos hknown)
    have hhead : List.head? (α := T) states = some es := List.head?_eq_getElem?.trans hget
    exact ⟨es, states, congrArg (Option.map fun es => (es, states)) hhead, hes, h⟩
  update _ _ _ _ _ _ h hadded hremoved _ := updateStates_spec eraseFromFront_removes h hadded hremoved
  admits _ _ _ _ _ _ _ h hadded heq := ⟨updateStates_subset eraseFromFront_removes h hadded heq, trivial⟩
  adds _ _ _ _ := trivial

theorem keeps_random : Keeps (RandomSearcher T) Lists (AdmitsAll (List T)) where
  constructed := by
    rintro _ rfl
    exact lists_nil
  empty _ _ h := h.isEmpty_iff
  selectState states known o h hknown := by
    obtain ⟨es, hget, hes⟩ := h.get (Nat.mod_lt (o.get 0).getInt32 (h.length_pos hknown))
    exact ⟨es, states, congrArg (Option.map fun es => (es, states)) hget, hes, h⟩
  update _ _ _ _ _ _ h hadded hremoved _ := updateStates_spec eraseState_removes h hadded hremoved
  admits _ _ _ _ _ _ _ h hadded heq := ⟨updateStates_subset eraseState_removes h hadded heq, trivial⟩
  adds _ _ _ _ := trivial

def RoundHolds (s : RoundState T) (known : Finset T) : Prop := Lists s.states known

theorem keeps_round : Keeps (RoundSearch T) RoundHolds (AdmitsAll (RoundState T)) where
  constructed := by
    rintro _ rfl
    exact lists_nil
  empty _ _ h := Lists.isEmpty_iff h
  selectState s known o h hknown := by
    have hi : (if s.states.length ≤ (s.index + 1) % 2 ^ 32 then 0 else (s.index + 1) % 2 ^ 32) < s.states.length := by
      split
      case isTrue => exact h.length_pos hknown
      case isFalse hlt => exact not_le.mp hlt
    obtain ⟨es, hget, hes⟩ := Lists.get h hi
    exact ⟨es, ⟨_, s.states⟩, congrArg (Option.map fun es => (es, (⟨_, s.states⟩ : RoundState T))) hget, hes, h⟩
  update s known _ _ _ _ h hadded hremoved _ := by
    obtain ⟨states, heq, h'⟩ := updateStates_spec eraseFromBack_removes h hadded hremoved
    exact ⟨⟨s.index, states⟩, congrArg (Option.map fun states => (⟨s.index, states⟩ : RoundState T)) heq, h'⟩
  admits _ _ _ _ _ _ _ h hadded heq := by
    obtain ⟨states, heq, -⟩ := Option.map_eq_some_iff.mp heq
    exact ⟨updateStates_subset eraseFromBack_removes h hadded heq, trivial⟩
  adds _ _ _ _ := trivial

/-- A state whose weight is to be brought up to date is there. -/
def WeightAdmits (type : WeightType) : DiscretePDF T → Finset T → Option T → Finset T → Finset T → Readings T → Prop :=
  fun _ known current _ removedStates _ => type.updateWeights = true → ∀ es, current = some es → es ∉ removedStates → es ∈ known

theorem weighs_empty : Weighs (.empty : DiscretePDF T) ∅ :=
  ⟨.empty, DiscretePDF.stores_empty, fun es => by simp [SortedList.empty]⟩

theorem insert_spec {l : List T} {states : DiscretePDF T} (weight : T → ℚ) (hl : l.Nodup) (h : Weighs states known)
    (hnew : ∀ es ∈ l, es ∉ known) :
    ∃ states', l.foldlM (fun states es => states.insert es (weight es)) states = some states' ∧ Weighs states' (known ∪ l.toFinset) := by
  induction l generalizing states known with
  | nil => exact ⟨states, rfl, by simpa using h⟩
  | cons es l ih =>
    obtain ⟨hnot, hl⟩ := List.nodup_cons.mp hl
    obtain ⟨states₁, heq₁, h₁⟩ := h.insert (hnew es List.mem_cons_self) (weight es)
    obtain ⟨states', heq, h'⟩ := ih hl h₁ fun es' hes' hmem => by
      rcases Finset.mem_union.mp hmem with hmem | hmem
      · exact hnew es' (List.mem_cons_of_mem _ hes') hmem
      · exact hnot (Finset.mem_singleton.mp hmem ▸ hes')
    refine ⟨states', by rw [List.foldlM_cons, heq₁]; exact heq, ?_⟩
    rwa [Finset.union_assoc, ← Finset.insert_eq, ← List.toFinset_cons] at h'

theorem remove_removes : Removes Weighs (DiscretePDF.remove (T := T)) where
  removed _ _ _ h hes := h.remove hes
  mem states known es states' h heq := by
    obtain ⟨m, hstores, hm⟩ := h
    obtain ⟨L, fs, t, hlookup, hinv, -, -, hcase⟩ := hstores.lookup_spec es
    rcases hcase with ⟨rfl, -⟩ | ⟨l, n, w, r, rfl, hsome⟩
    · simp [DiscretePDF.remove, hlookup, DiscretePDF.read_place hinv.holds, LinkedTree.Tree.ptr] at heq
    · exact (hm es).mp (List.mem_map.mpr ⟨_, (SortedList.lookup_eq_some.mp hsome).1, rfl⟩)

theorem Weighs.mem_of_update {states states' : DiscretePDF T} {weight : ℚ} (h : Weighs states known)
    (heq : states.update es weight = some states') : es ∈ known := by
  obtain ⟨m, hstores, hm⟩ := h
  obtain ⟨L, fs, t, hlookup, hinv, -, -, hcase⟩ := hstores.lookup_spec es
  rcases hcase with ⟨rfl, -⟩ | ⟨l, n, w, r, rfl, hsome⟩
  · simp [DiscretePDF.update, hlookup, DiscretePDF.read_place hinv.holds, LinkedTree.Tree.ptr] at heq
  · exact (hm es).mp (List.mem_map.mpr ⟨_, (SortedList.lookup_eq_some.mp hsome).1, rfl⟩)

theorem updateWeight_spec {type : WeightType} {states : DiscretePDF T} (h : Weighs states known)
    (hadmits : type.updateWeights = true → ∀ es, current = some es → es ∉ removedStates → es ∈ known) :
    ∃ states', updateWeight type states current removedStates o = some states' ∧ Weighs states' known := by
  cases current with
  | none => exact ⟨states, rfl, h⟩
  | some es =>
    rw [updateWeight]
    split
    case isTrue hcond => exact h.update (hadmits hcond.1 es rfl hcond.2) _
    case isFalse => exact ⟨states, rfl, h⟩

/-- The weight of a state that is not there cannot be changed. -/
theorem updateWeight_mem {type : WeightType} {states states' : DiscretePDF T} (h : Weighs states known)
    (heq : updateWeight type states current removedStates o = some states') (hweights : type.updateWeights = true) :
    ∀ es, current = some es → es ∉ removedStates → es ∈ known := by
  rintro es rfl hnot
  rw [updateWeight, if_pos ⟨hweights, hnot⟩] at heq
  exact h.mem_of_update heq

theorem keeps_weightedRandom (type : WeightType) : Keeps (WeightedRandomSearcher T type) Weighs (WeightAdmits type) where
  constructed := by
    rintro _ rfl
    exact weighs_empty
  empty _ _ h := h.empty
  selectState states known o h hknown := by
    obtain ⟨es, hes, heq⟩ := h.choose hknown (o.get 0).getDoubleL_range
    exact ⟨es, states, congrArg (Option.map fun es => (es, states)) heq, hes, h⟩
  update states known current addedStates removedStates o h hadded hremoved hadmits := by
    obtain ⟨states₁, heq₁, h₁⟩ := updateWeight_spec (o := o) h hadmits
    obtain ⟨states₂, heq₂, h₂⟩ := insert_spec (o.get 1).getWeight (nodup_inOrder addedStates) h₁
      fun es hes => Finset.disjoint_left.mp hadded (mem_inOrder.mp hes)
    rw [toFinset_inOrder] at h₂
    obtain ⟨states₃, heq₃, h₃⟩ := remove_removes.foldlM (nodup_inOrder removedStates) h₂
      fun es hes => hremoved (mem_inOrder.mp hes)
    rw [toFinset_inOrder] at h₃
    refine ⟨states₃, ?_, h₃⟩
    simp only [WeightedRandomSearcher, heq₁, heq₂, Option.bind_eq_bind, Option.bind_some]
    exact heq₃
  admits states known current addedStates removedStates o states' h hadded heq := by
    obtain ⟨states₁, heq₁, heq⟩ := Option.bind_eq_some_iff.mp heq
    obtain ⟨states₂, heq₂, heq⟩ := Option.bind_eq_some_iff.mp heq
    have hadmits : WeightAdmits type states known current addedStates removedStates o := updateWeight_mem h heq₁
    obtain ⟨states₁', heq₁', h₁⟩ := updateWeight_spec (o := o) h hadmits
    obtain rfl := Option.some.inj (heq₁.symm.trans heq₁')
    obtain ⟨states₂', heq₂', h₂⟩ := insert_spec (o.get 1).getWeight (nodup_inOrder addedStates) h₁
      fun es hes => Finset.disjoint_left.mp hadded (mem_inOrder.mp hes)
    obtain rfl := Option.some.inj (heq₂.symm.trans heq₂')
    rw [toFinset_inOrder] at h₂
    exact ⟨fun es hes => remove_removes.subset h₂ heq es (mem_inOrder.mpr hes), hadmits⟩
  adds _ _ _ _ := fun _ es hes => by cases hes

/-! ### Searchers over others -/

section
variable {baseSearcher : Searcher T} {Holds : baseSearcher.State → Finset T → Prop}
  {Admits : baseSearcher.State → Finset T → Option T → Finset T → Finset T → Readings T → Prop}

/-- The last state is one of them. -/
def BatchingHolds (Holds : baseSearcher.State → Finset T → Prop) (s : BatchingState baseSearcher.State T) (known : Finset T) : Prop :=
  Holds s.base known ∧ ∀ es, s.lastState = some es → es ∈ known

def BatchingAdmits (Admits : baseSearcher.State → Finset T → Option T → Finset T → Finset T → Readings T → Prop)
    (s : BatchingState baseSearcher.State T) (known : Finset T) (current : Option T) (addedStates removedStates : Finset T)
    (o : Readings T) : Prop := Admits s.base known current addedStates removedStates (o.below 0)

theorem keeps_batching (h : Keeps baseSearcher Holds Admits) (timeBudget : ℚ) (instructionBudget : Nat) :
    Keeps (BatchingSearcher baseSearcher timeBudget instructionBudget) (BatchingHolds Holds) (BatchingAdmits Admits) where
  constructed s hs := ⟨h.constructed s.base hs.1, fun es hes => by rw [hs.2.2] at hes; cases hes⟩
  empty s known hs := h.empty s.base known hs.1
  selectState s known o hs hknown := by
    obtain ⟨es, base, heq, hes, hbase⟩ := h.selectState s.base known (o.below 3) hs.1 hknown
    have hselect : ∀ timeBudget : ℚ, ∃ s', BatchingHolds Holds s' known ∧
        startBatch baseSearcher s o timeBudget = some (es, s') := fun timeBudget => by
      refine ⟨⟨base, timeBudget, some es, (o.get 4).getWallTime, (o.get 5).instructions % 2 ^ 32⟩,
        ⟨hbase, fun es' hes' => ?_⟩, by simp only [startBatch, heq, Option.map_some]⟩
      obtain rfl := Option.some.inj hes'
      exact hes
    cases hlast : s.lastState with
    | none =>
      obtain ⟨s', hs', heq'⟩ := hselect s.timeBudget
      exact ⟨es, s', by simp only [BatchingSearcher, hlast]; exact heq', hes, hs'⟩
    | some last =>
      by_cases hover : (o.get 0).getWallTime - s.lastStartTime > s.timeBudget ∨
          ((o.get 1).instructions + 2 ^ 64 - s.lastStartInstructions) % 2 ^ 64 > instructionBudget
      · obtain ⟨s', hs', heq'⟩ := hselect (if (o.get 2).getWallTime - s.lastStartTime > s.timeBudget * (11 / 10)
          then (o.get 2).getWallTime - s.lastStartTime else s.timeBudget)
        exact ⟨es, s', by simp only [BatchingSearcher, hlast, if_pos hover]; exact heq', hes, hs'⟩
      · exact ⟨last, s, by simp only [BatchingSearcher, hlast, if_neg hover], hs.2 last hlast, hs⟩
  update s known current addedStates removedStates o hs hadded hremoved hadmits := by
    obtain ⟨base, heq, hbase⟩ := h.update s.base known current addedStates removedStates (o.below 0) hs.1 hadded hremoved hadmits
    refine ⟨{ s with base, lastState := s.lastState.filter (· ∉ removedStates) }, ?_, hbase, fun es hes => ?_⟩
    · simp only [BatchingSearcher, heq]
      rfl
    · obtain ⟨hlast, hnot⟩ := Option.filter_eq_some_iff.mp hes
      exact Finset.mem_sdiff.mpr ⟨Finset.mem_union_left _ (hs.2 es hlast), of_decide_eq_true hnot⟩
  admits s known current addedStates removedStates o s' hs hadded heq := by
    obtain ⟨base, heq, -⟩ := Option.bind_eq_some_iff.mp heq
    exact h.admits s.base known current addedStates removedStates (o.below 0) base hs.1 hadded heq
  adds s known addedStates o := h.adds s.base known addedStates (o.below 0)

/-- The base searcher has the states that are not paused. There are none of these only if there are no others. -/
structure DeepeningHolds (Holds : baseSearcher.State → Finset T → Prop) (s : DeepeningState baseSearcher.State T) (known : Finset T) :
    Prop where
  paused : s.pausedStates ⊆ known
  base : Holds s.base (known \ s.pausedStates)
  empty : known \ s.pausedStates = ∅ → s.pausedStates = ∅

/-- The time of the current state is over, and it is not removed. -/
def IsOver (s : DeepeningState baseSearcher.State T) (current : Option T) (removedStates : Finset T) (o : Readings T) (es : T) : Prop :=
  current = some es ∧ es ∉ removedStates ∧ (o.get 0).getWallTime - s.startTime > s.time

/-- No paused state is removed, and a state that is paused is one that the base searcher has. -/
structure DeepeningAdmits (Admits : baseSearcher.State → Finset T → Option T → Finset T → Finset T → Readings T → Prop)
    (s : DeepeningState baseSearcher.State T) (known : Finset T) (current : Option T) (addedStates removedStates : Finset T)
    (o : Readings T) : Prop where
  removed : Disjoint removedStates s.pausedStates
  base : Admits s.base (known \ s.pausedStates) current addedStates removedStates (o.below 1)
  pause : ∀ es, IsOver s current removedStates o es → es ∈ (known \ s.pausedStates) ∪ addedStates ∧
    ∀ base, baseSearcher.update s.base current addedStates removedStates (o.below 1) = some base →
      Admits base (((known \ s.pausedStates) ∪ addedStates) \ removedStates) none ∅ {es} (o.below 2)

variable {active : Finset T} {s : DeepeningState baseSearcher.State T}

/-- The current state goes from the base searcher to the paused states. -/
theorem pause_spec (h : Keeps baseSearcher Holds Admits) {elapsed : ℚ} (hbase : Holds s.base active)
    (hdisjoint : Disjoint active s.pausedStates)
    (hover : ∀ es, current = some es → es ∉ removedStates ∧ elapsed > s.time → es ∈ active ∧ Admits s.base active none ∅ {es} o) :
    ∃ s' active', pause baseSearcher s current removedStates elapsed o = some s' ∧ Holds s'.base active' ∧
      Disjoint active' s'.pausedStates ∧ active' ∪ s'.pausedStates = active ∪ s.pausedStates := by
  cases current with
  | none => exact ⟨s, active, rfl, hbase, hdisjoint, rfl⟩
  | some es =>
    rw [pause]
    split
    case isTrue hcond =>
      obtain ⟨hes, hadmits⟩ := hover es rfl hcond
      obtain ⟨base, heq, hbase'⟩ := h.update s.base active none ∅ {es} o hbase (Finset.disjoint_empty_left _)
        (by simpa using hes) hadmits
      rw [Finset.union_empty] at hbase'
      refine ⟨{ s with base, pausedStates := insert es s.pausedStates }, active \ {es}, ?_, hbase', ?_, ?_⟩
      · rw [removeState, heq]
        rfl
      · rw [Finset.disjoint_insert_right]
        exact ⟨by simp, hdisjoint.mono_left Finset.sdiff_subset⟩
      · ext es'
        simp only [Finset.mem_union, Finset.mem_sdiff, Finset.mem_singleton, Finset.mem_insert]
        by_cases heq' : es' = es
        · simp [heq', hes]
        · simp [heq']
    case isFalse => exact ⟨s, active, rfl, hbase, hdisjoint, rfl⟩

theorem resume_spec (h : Keeps baseSearcher Holds Admits) (hbase : Holds s.base active) (hdisjoint : Disjoint active s.pausedStates) :
    ∃ s', resume baseSearcher s o = some s' ∧ DeepeningHolds Holds s' (active ∪ s.pausedStates) := by
  have hactive : (active ∪ s.pausedStates) \ s.pausedStates = active := by
    rw [Finset.union_sdiff_right, Finset.sdiff_eq_self_of_disjoint hdisjoint]
  rw [resume]
  split
  case isTrue hempty =>
    obtain rfl := (h.empty s.base active hbase).mp hempty
    obtain ⟨base, heq, hbase'⟩ := h.update s.base ∅ none s.pausedStates ∅ o hbase (Finset.disjoint_empty_right _)
      (Finset.empty_subset _) (h.adds ..)
    rw [Finset.sdiff_empty] at hbase'
    refine ⟨{ s with base, time := s.time * 2, pausedStates := ∅ }, ?_, Finset.empty_subset _, ?_, fun _ => rfl⟩
    · rw [heq]
      rfl
    · rwa [Finset.sdiff_empty]
  case isFalse hempty =>
    refine ⟨s, rfl, Finset.subset_union_right, hactive.symm ▸ hbase, fun hnone => ?_⟩
    rw [hactive] at hnone
    exact absurd ((h.empty s.base active hbase).mpr hnone) hempty

theorem keeps_deepening (h : Keeps baseSearcher Holds Admits) :
    Keeps (IterativeDeepeningTimeSearcher baseSearcher) (DeepeningHolds Holds) (DeepeningAdmits Admits) where
  constructed s hs := by
    obtain ⟨hbase, -, hpaused⟩ := hs
    refine ⟨by rw [hpaused], ?_, fun _ => hpaused⟩
    rw [hpaused, Finset.sdiff_empty]
    exact h.constructed s.base hbase
  empty s known hs := by
    have hbase := h.empty s.base _ hs.base
    rw [show (IterativeDeepeningTimeSearcher baseSearcher).empty s =
      (baseSearcher.empty s.base && decide (s.pausedStates = ∅)) from rfl, Bool.and_eq_true, hbase, decide_eq_true_iff]
    constructor
    · rintro ⟨hactive, hpaused⟩
      rwa [hpaused, Finset.sdiff_empty] at hactive
    · rintro rfl
      exact ⟨Finset.empty_sdiff _, Finset.subset_empty.mp hs.paused⟩
  selectState s known o hs hknown := by
    have hactive : (known \ s.pausedStates).Nonempty := by
      rw [Finset.nonempty_iff_ne_empty]
      intro hnone
      have hpaused := hs.empty hnone
      rw [hpaused, Finset.sdiff_empty] at hnone
      exact hknown.ne_empty hnone
    obtain ⟨es, base, heq, hes, hbase⟩ := h.selectState s.base _ (o.below 0) hs.base hactive
    refine ⟨es, { s with base, startTime := (o.get 1).getWallTime }, ?_, (Finset.mem_sdiff.mp hes).1, hs.paused, hbase, hs.empty⟩
    simp only [IterativeDeepeningTimeSearcher, heq]
    rfl
  update s known current addedStates removedStates o hs hadded hremoved hadmits := by
    have hadded' : Disjoint addedStates (known \ s.pausedStates) := hadded.mono_right Finset.sdiff_subset
    have hnot : ¬∃ es ∈ removedStates, es ∈ s.pausedStates := fun ⟨es, hes, hpaused⟩ =>
      Finset.disjoint_left.mp hadmits.removed hes hpaused
    have hremoved' : removedStates ⊆ (known \ s.pausedStates) ∪ addedStates := fun es hes => by
      have hmem := hremoved hes
      rw [Finset.mem_union] at hmem ⊢
      exact hmem.imp_left fun hknown => Finset.mem_sdiff.mpr ⟨hknown, Finset.disjoint_left.mp hadmits.removed hes⟩
    obtain ⟨base, heq, hbase⟩ := h.update s.base _ current addedStates removedStates (o.below 1) hs.base hadded' hremoved' hadmits.base
    have hdisjoint : Disjoint (((known \ s.pausedStates) ∪ addedStates) \ removedStates) s.pausedStates := by
      refine Disjoint.mono_left Finset.sdiff_subset (Finset.disjoint_union_left.mpr ⟨Finset.sdiff_disjoint, ?_⟩)
      exact hadded.mono_right hs.paused
    obtain ⟨s₂, active, heq₂, hbase₂, hdisjoint₂, hunion⟩ := pause_spec (s := { s with base }) (o := o.below 2) h hbase hdisjoint
      fun es hcurrent hover => by
        obtain ⟨hes, hadmits'⟩ := hadmits.pause es ⟨hcurrent, hover⟩
        exact ⟨Finset.mem_sdiff.mpr ⟨hes, hover.1⟩, hadmits' base heq⟩
    obtain ⟨s₃, heq₃, h₃⟩ := resume_spec (o := o.below 3) h hbase₂ hdisjoint₂
    refine ⟨s₃, ?_, ?_⟩
    · simp only [IterativeDeepeningTimeSearcher, if_neg hnot, heq, Option.bind_eq_bind, Option.bind_some, heq₂]
      exact heq₃
    · have hknown : (known ∪ addedStates) \ removedStates = active ∪ s₂.pausedStates := by
        rw [hunion]
        ext es
        have hpaused : es ∈ s.pausedStates → es ∈ known := fun hes => hs.paused hes
        have hkept : es ∈ s.pausedStates → es ∉ removedStates := fun hes => Finset.disjoint_right.mp hadmits.removed hes
        simp only [Finset.mem_union, Finset.mem_sdiff]
        tauto
      rw [hknown]
      exact h₃
  admits s known current addedStates removedStates o s' hs hadded heq := by
    have hadded' : Disjoint addedStates (known \ s.pausedStates) := hadded.mono_right Finset.sdiff_subset
    obtain ⟨hnot, heq⟩ := Option.ite_none_left_eq_some.mp heq
    obtain ⟨base, heq₁, heq⟩ := Option.bind_eq_some_iff.mp heq
    obtain ⟨s₂, heq₂, -⟩ := Option.bind_eq_some_iff.mp heq
    obtain ⟨hremoved, hadmits⟩ := h.admits s.base _ current addedStates removedStates (o.below 1) base hs.base hadded' heq₁
    refine ⟨fun es hes => ?_, Finset.disjoint_left.mpr fun es hes hpaused => hnot ⟨es, hes, hpaused⟩, hadmits, ?_⟩
    · exact (Finset.union_subset_union_left Finset.sdiff_subset) (hremoved hes)
    · rintro es ⟨rfl, hover⟩
      obtain ⟨base', heq', hbase⟩ := h.update s.base _ (some es) addedStates removedStates (o.below 1) hs.base hadded' hremoved hadmits
      obtain rfl := Option.some.inj (heq₁.symm.trans heq')
      rw [pause, if_pos hover] at heq₂
      obtain ⟨base₂, heq₂, -⟩ := Option.bind_eq_some_iff.mp heq₂
      obtain ⟨hes, hadmits'⟩ := h.admits base _ none ∅ {es} (o.below 2) base₂ hbase (Finset.disjoint_empty_left _) heq₂
      refine ⟨(Finset.mem_sdiff.mp (by simpa using hes)).1, fun base' heq' => ?_⟩
      obtain rfl := Option.some.inj (heq₁.symm.trans heq')
      exact hadmits'
  adds s known addedStates o :=
    ⟨Finset.disjoint_empty_left _, h.adds .., fun es hover => by cases hover.1⟩

end

section
variable {n : Nat} {searchers : Fin (n + 1) → Searcher T} {Holds : ∀ i, (searchers i).State → Finset T → Prop}
  {Admits : ∀ i, (searchers i).State → Finset T → Option T → Finset T → Finset T → Readings T → Prop}

/-- Each of the searchers has all states. -/
structure InterleavedHolds (Holds : ∀ i, (searchers i).State → Finset T → Prop) (s : InterleavedState searchers) (known : Finset T) :
    Prop where
  all : ∀ i, Holds i (s.states i) known
  index : 0 < s.index ∧ s.index - 1 < n + 1

def InterleavedAdmits (Admits : ∀ i, (searchers i).State → Finset T → Option T → Finset T → Finset T → Readings T → Prop)
    (s : InterleavedState searchers) (known : Finset T) (current : Option T) (addedStates removedStates : Finset T) (o : Readings T) :
    Prop := ∀ i, Admits i (s.states i) known current addedStates removedStates (o.below i)

theorem InterleavedHolds.update {s : InterleavedState searchers} {known : Finset T} (h : InterleavedHolds Holds s known)
    {i : Fin (n + 1)} {state : (searchers i).State} (hstate : Holds i state known) {index : Nat} (hindex : 0 < index ∧ index - 1 < n + 1) :
    InterleavedHolds Holds ⟨Function.update s.states i state, index⟩ known where
  all j := by
    change Holds j (Function.update s.states i state j) known
    by_cases hj : j = i
    · subst hj
      rwa [Function.update_self]
    · rw [Function.update_of_ne hj]
      exact h.all j
  index := hindex

theorem keeps_interleaved (h : ∀ i, Keeps (searchers i) (Holds i) (Admits i)) :
    Keeps (InterleavedSearcher searchers) (InterleavedHolds Holds) (InterleavedAdmits Admits) where
  constructed s hs := ⟨fun i => (h i).constructed _ (hs.1 i), by rw [hs.2]; omega⟩
  empty s known hs := (h 0).empty _ known (hs.all 0)
  selectState s known o hs hknown := by
    obtain ⟨es, state, heq, hes, hstate⟩ := (h ⟨s.index - 1, hs.index.2⟩).selectState _ known (o.below 0) (hs.all _) hknown
    have hindex : 0 < (if s.index - 1 = 0 then n + 1 else s.index - 1) ∧ (if s.index - 1 = 0 then n + 1 else s.index - 1) - 1 < n + 1 := by
      have := hs.index
      split <;> omega
    refine ⟨es, ⟨Function.update s.states ⟨s.index - 1, hs.index.2⟩ state, if s.index - 1 = 0 then n + 1 else s.index - 1⟩, ?_, hes,
      hs.update hstate hindex⟩
    simp only [InterleavedSearcher, dif_pos hs.index, heq]
    rfl
  update s known current addedStates removedStates o hs hadded hremoved hadmits := by
    choose states heq hstates using fun i =>
      (h i).update _ known current addedStates removedStates (o.below i) (hs.all i) hadded hremoved (hadmits i)
    refine ⟨⟨states, s.index⟩, ?_, hstates, hs.index⟩
    have hall : ∀ i, ((searchers i).update (s.states i) current addedStates removedStates (o.below i)).isSome = true := fun i => by
      rw [heq i]
      rfl
    simp only [InterleavedSearcher, heq, Option.get_some]
    exact dif_pos fun _ => rfl
  admits s known current addedStates removedStates o s' hs hadded heq := by
    obtain ⟨hall, -⟩ := Option.dite_none_right_eq_some.mp heq
    have hadmits := fun i => (h i).admits _ known current addedStates removedStates (o.below i) _ (hs.all i) hadded
      (Option.some_get (hall i)).symm
    exact ⟨(hadmits 0).1, fun i => (hadmits i).2⟩
  adds s known addedStates o i := (h i).adds ..

end

end CapTaint.Klee.Searcher

/-! ### Compositions -/

namespace CapTaint.Klee.Composition

open Searcher

variable {T : Type} [LinearOrder T] {known : Finset T} {last : Option T}

/-- An object holds the states, each once. -/
def Holds (T : Type) [LinearOrder T] : (c : Composition) → (c.searcher T).State → Finset T → Prop
  | dfs | bfs | random => Lists
  | round => RoundHolds
  | weightedRandom _ => Weighs
  | batching base _ _ => BatchingHolds (base.Holds T)
  | iterativeDeepeningTime base => DeepeningHolds (base.Holds T)
  | interleaved searchers => InterleavedHolds fun i => (searchers i).Holds T

/-- A call of `update` does not make a searcher remove a state that it has paused, nor pause or weigh one that it does not have. -/
def Admits (T : Type) [LinearOrder T] :
    (c : Composition) → (c.searcher T).State → Finset T → Option T → Finset T → Finset T → Readings T → Prop
  | dfs | bfs | random => AdmitsAll (List T)
  | round => AdmitsAll (RoundState T)
  | weightedRandom type => WeightAdmits type
  | batching base _ _ => BatchingAdmits (base.Admits T)
  | iterativeDeepeningTime base => DeepeningAdmits (base.Admits T)
  | interleaved searchers => InterleavedAdmits fun i => (searchers i).Admits T

theorem keeps (c : Composition) : Keeps (c.searcher T) (c.Holds T) (c.Admits T) := by
  induction c with
  | dfs => exact keeps_dfs
  | bfs => exact keeps_bfs
  | random => exact keeps_random
  | round => exact keeps_round
  | weightedRandom type => exact keeps_weightedRandom type
  | batching base timeBudget instructionBudget ih => exact keeps_batching ih timeBudget instructionBudget
  | iterativeDeepeningTime base ih => exact keeps_deepening ih
  | interleaved searchers ih => exact keeps_interleaved ih

/-! ### Runs -/

/-- What is promised of a call of `update`: added states are new, removed ones are there, and the current state, if there is one,
is the last that has been selected. -/
structure Call (known : Finset T) (last current : Option T) (addedStates removedStates : Finset T) : Prop where
  current : ∀ es, current = some es → last = some es ∧ es ∈ known
  added : Disjoint addedStates known
  removed : removedStates ⊆ known ∪ addedStates

/-- The objects that calls lead to, with the states that have been added and not removed, and the last selected one. -/
inductive Reached (searcher : Searcher T) : searcher.State → Finset T → Option T → Prop
  | constructed {s : searcher.State} (hs : searcher.Constructed s) : Reached searcher s ∅ none
  | selectState {s s' : searcher.State} {known : Finset T} {last : Option T} {es : T} (h : Reached searcher s known last)
      (hknown : known.Nonempty) (o : Readings T) (heq : searcher.selectState s o = some (es, s')) : Reached searcher s' known (some es)
  | update {s s' : searcher.State} {known : Finset T} {last : Option T} (h : Reached searcher s known last) {current : Option T}
      {addedStates removedStates : Finset T} (hcall : Call known last current addedStates removedStates) (o : Readings T)
      (heq : searcher.update s current addedStates removedStates o = some s') :
      Reached searcher s' ((known ∪ addedStates) \ removedStates) (last.filter (· ∉ removedStates))

theorem Reached.holds {c : Composition} {s : (c.searcher T).State} (h : Reached (c.searcher T) s known last) : c.Holds T s known := by
  induction h with
  | constructed hs => exact c.keeps.constructed _ hs
  | selectState _ hknown o heq ih =>
    obtain ⟨es, s', heq', -, hs'⟩ := c.keeps.selectState _ _ o ih hknown
    obtain ⟨-, rfl⟩ := Prod.mk.inj (Option.some.inj (heq.symm.trans heq'))
    exact hs'
  | update _ hcall o heq ih =>
    obtain ⟨hremoved, hadmits⟩ := c.keeps.admits _ _ _ _ _ o _ ih hcall.added heq
    obtain ⟨s', heq', hs'⟩ := c.keeps.update _ _ _ _ _ o ih hcall.added hremoved hadmits
    obtain rfl := Option.some.inj (heq.symm.trans heq')
    exact hs'

/-- After any calls, the searcher holds what it has been given, and the next call of `update` goes well just when it is
admitted. -/
theorem reached_holds_iff (c : Composition) {s : (c.searcher T).State} (h : Reached (c.searcher T) s known last) :
    c.Holds T s known ∧ ((c.searcher T).empty s = true ↔ known = ∅) ∧
      (known.Nonempty → ∀ o, ∃ es s', (c.searcher T).selectState s o = some (es, s') ∧ es ∈ known) ∧
      ∀ current addedStates removedStates o, Call known last current addedStates removedStates →
        ((∃ s', (c.searcher T).update s current addedStates removedStates o = some s') ↔
          c.Admits T s known current addedStates removedStates o) := by
  have hholds := h.holds
  refine ⟨hholds, c.keeps.empty s known hholds, fun hknown o => ?_, fun current addedStates removedStates o hcall => ⟨?_, fun hadmits => ?_⟩⟩
  · obtain ⟨es, s', heq, hes, -⟩ := c.keeps.selectState s known o hholds hknown
    exact ⟨es, s', heq, hes⟩
  · rintro ⟨s', heq⟩
    exact (c.keeps.admits s known current addedStates removedStates o s' hholds hcall.added heq).2
  · obtain ⟨s', heq, -⟩ := c.keeps.update s known current addedStates removedStates o hholds hcall.added hcall.removed hadmits
    exact ⟨s', heq⟩

/-- Readings of one time. -/
def readings (getWallTime : ℚ) : Readings Nat := fun _ => ⟨getWallTime, 0, 0, 0, ⟨le_rfl, zero_lt_one⟩, fun _ => 1⟩

/-- A depth-first searcher below a deepening one, in which the second of two states is paused. -/
theorem reached_paused : Reached ((iterativeDeepeningTime dfs).searcher Nat) ⟨[1], 1, 0, {2}⟩ {1, 2} (some 2) := by
  have h₀ : Reached ((iterativeDeepeningTime dfs).searcher Nat) ⟨[], 1, 0, ∅⟩ ∅ none := .constructed ⟨rfl, rfl, rfl⟩
  have hadd₁ : ((iterativeDeepeningTime dfs).searcher Nat).update ⟨[], 1, 0, ∅⟩ none {1} ∅ (readings 0) = some ⟨[1], 1, 0, ∅⟩ := by
    simp [Composition.searcher, IterativeDeepeningTimeSearcher, DFSSearcher, updateStates, inOrder, pause, resume]
  have hadd₂ : ((iterativeDeepeningTime dfs).searcher Nat).update ⟨[1], 1, 0, ∅⟩ none {2} ∅ (readings 0) =
      some ⟨[1, 2], 1, 0, ∅⟩ := by
    simp [Composition.searcher, IterativeDeepeningTimeSearcher, DFSSearcher, updateStates, inOrder, pause, resume]
  have hselect : ((iterativeDeepeningTime dfs).searcher Nat).selectState ⟨[1, 2], 1, 0, ∅⟩ (readings 0) =
      some (2, ⟨[1, 2], 1, 0, ∅⟩) := rfl
  have hpause : ((iterativeDeepeningTime dfs).searcher Nat).update ⟨[1, 2], 1, 0, ∅⟩ (some 2) ∅ ∅ (readings 2) =
      some ⟨[1], 1, 0, {2}⟩ := by
    simp [Composition.searcher, IterativeDeepeningTimeSearcher, DFSSearcher, updateStates, inOrder, pause, resume, removeState,
      eraseFromBack, readings, Readings.get]
  have h₁ := h₀.update ⟨by simp, by simp, by simp⟩ (readings 0) hadd₁
  have h₂ := h₁.update ⟨by simp, by simp, by simp⟩ (readings 0) hadd₂
  have h₃ := h₂.selectState ⟨2, by simp⟩ (readings 0) hselect
  exact h₃.update ⟨by simp, by simp, by simp⟩ (readings 2) hpause

/-- The paused state is removed. -/
theorem not_admitted_paused : ∃ s known last, Reached ((iterativeDeepeningTime dfs).searcher Nat) s known last ∧
    Call known last none ∅ {2} ∧ ((iterativeDeepeningTime dfs).searcher Nat).update s none ∅ {2} (readings 2) = none := by
  refine ⟨_, _, _, reached_paused, ⟨by simp, by simp, by simp⟩, ?_⟩
  simp [Composition.searcher, IterativeDeepeningTimeSearcher]

theorem reached_holds_iff_paused :
    (iterativeDeepeningTime dfs).Holds Nat ⟨[1], 1, 0, {2}⟩ {1, 2} ∧
      (((iterativeDeepeningTime dfs).searcher Nat).empty ⟨[1], 1, 0, {2}⟩ = true ↔ ({1, 2} : Finset Nat) = ∅) ∧
      (({1, 2} : Finset Nat).Nonempty → ∀ o, ∃ es s',
        ((iterativeDeepeningTime dfs).searcher Nat).selectState ⟨[1], 1, 0, {2}⟩ o = some (es, s') ∧ es ∈ ({1, 2} : Finset Nat)) ∧
      ∀ current addedStates removedStates o, Call {1, 2} (some 2) current addedStates removedStates →
        ((∃ s', ((iterativeDeepeningTime dfs).searcher Nat).update ⟨[1], 1, 0, {2}⟩ current addedStates removedStates o = some s') ↔
          (iterativeDeepeningTime dfs).Admits Nat ⟨[1], 1, 0, {2}⟩ {1, 2} current addedStates removedStates o) :=
  reached_holds_iff (iterativeDeepeningTime dfs) reached_paused

end CapTaint.Klee.Composition
