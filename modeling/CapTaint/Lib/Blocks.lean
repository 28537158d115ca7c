import Mathlib

/-! Lists that are cut into blocks: an element that is not open ends its block, and an element has the label of the
    first element of its block. A list of labels in itself, without blocks, is known by its neighbours: a label that is
    not the only one has a neighbour with another label, and there are at most as many labels as changes and one. -/

namespace CapTaint.Blocks

section Labels
variable {α β : Type} {isOpen : α → Prop} [DecidablePred isOpen] {l : List α} {old new : α → β}

variable (isOpen l) in
/-- The position of the first element of the block of the position `j`. -/
def start : Nat → Nat
  | 0 => 0
  | j + 1 => if ∃ a ∈ l[j]?, isOpen a then start j else j + 1

theorem start_le (j : Nat) : start isOpen l j ≤ j := by
  induction j with
  | zero => exact le_rfl
  | succ j ih =>
    rw [start]
    split
    · exact ih.trans (Nat.le_succ j)
    · exact le_rfl

theorem start_mono {i j : Nat} (h : i ≤ j) : start isOpen l i ≤ start isOpen l j := by
  induction h with
  | refl => exact le_rfl
  | @step j _ ih =>
    refine ih.trans ?_
    rw [Nat.succ_eq_add_one, start]
    split
    · exact le_rfl
    · exact (start_le j).trans (Nat.le_succ j)

/-- Two positions are in one block when the block stays open from the first one to the second. -/
theorem start_eq_iff {i j : Nat} (h : i ≤ j) :
    start isOpen l i = start isOpen l j ↔ ∀ k, i ≤ k → k < j → ∃ a ∈ l[k]?, isOpen a := by
  constructor
  · intro heq k hik hkj
    by_contra hclosed
    -- the block of `k + 1` starts there, behind `i`
    have hstart : start isOpen l (k + 1) = k + 1 := by rw [start, if_neg hclosed]
    have hle : start isOpen l (k + 1) ≤ start isOpen l j := start_mono hkj
    have hi : start isOpen l i ≤ i := start_le i
    omega
  · intro hopen
    induction h with
    | refl => rfl
    | @step j hij ih =>
      rw [Nat.succ_eq_add_one, start, if_pos (hopen j hij (Nat.lt_succ_self j))]
      exact ih fun k hik hkj => hopen k hik (Nat.lt_succ_of_lt hkj)

theorem start_start (j : Nat) : start isOpen l (start isOpen l j) = start isOpen l j :=
  (start_eq_iff (start_le j)).mpr fun k hk hkj => by
    by_contra hclosed
    have hstart : start isOpen l (k + 1) = k + 1 := by rw [start, if_neg hclosed]
    have hle : start isOpen l (k + 1) ≤ start isOpen l j := start_mono hkj
    omega

variable (isOpen old new l) in
/-- The labels `new` come from the labels `old` when the list is passed once from its start. -/
structure Labelled : Prop where
  head : ∀ {a : α}, l.head? = some a → new a = old a
  chain : l.IsChain fun a b => new b = if isOpen a then new a else old b

theorem Labelled.congr (h : Labelled isOpen l old new) {old' new' : α → β} (hold : ∀ a ∈ l, old' a = old a)
    (hnew : ∀ a ∈ l, new' a = new a) : Labelled isOpen l old' new' where
  head ha := by
    have hmem := List.mem_of_head? ha
    rw [hnew _ hmem, hold _ hmem]
    exact h.head ha
  chain := by
    refine h.chain.imp_of_mem_imp fun a b ha hb hlink => ?_
    rw [hnew a ha, hnew b hb, hold b hb]
    exact hlink

theorem Labelled.eq_start (h : Labelled isOpen l old new) {j : Nat} {b : α} (hb : l[j]? = some b) :
    ∃ a, l[start isOpen l j]? = some a ∧ new b = old a := by
  induction j generalizing b with
  | zero => exact ⟨b, hb, h.head (by rw [List.head?_eq_getElem?, hb])⟩
  | succ j ih =>
    obtain ⟨hlt, hget⟩ := List.getElem?_eq_some_iff.mp hb
    have ha : l[j]? = some l[j] := List.getElem?_eq_getElem (Nat.lt_of_succ_lt hlt)
    have hlink := List.isChain_iff_getElem.mp h.chain j hlt
    rw [hget] at hlink
    rw [start]
    by_cases hopen : isOpen l[j]
    · rw [if_pos hopen] at hlink
      rw [if_pos ⟨_, ha, hopen⟩, hlink]
      exact ih ha
    · rw [if_neg hopen] at hlink
      rw [if_neg (by rintro ⟨a, ha', hopen'⟩; exact hopen (Option.some.inj (ha'.symm.trans ha) ▸ hopen')), hlink]
      exact ⟨b, hb, rfl⟩

/-- Elements have one label exactly when they are in one block, where the old labels were different. -/
theorem Labelled.eq_iff (h : Labelled isOpen l old new) (hold : (l.map old).Nodup) {i j : Nat} (hij : i ≤ j) {a b : α}
    (ha : l[i]? = some a) (hb : l[j]? = some b) :
    new a = new b ↔ ∀ k, i ≤ k → k < j → ∃ c ∈ l[k]?, isOpen c := by
  obtain ⟨a', ha', hnewa⟩ := h.eq_start ha
  obtain ⟨b', hb', hnewb⟩ := h.eq_start hb
  rw [← start_eq_iff hij, hnewa, hnewb]
  have hlt : start isOpen l i < (l.map old).length := by
    rw [List.length_map]
    exact (List.getElem?_eq_some_iff.mp ha').1
  have hlabel := List.getElem?_inj hlt hold (j := start isOpen l j)
  rw [List.getElem?_map, List.getElem?_map, ha', hb'] at hlabel
  simpa using hlabel

/-- Labels that come from labels of blocks are the same. -/
theorem Labelled.again (h : Labelled isOpen l old new) {newer : α → β} (h' : Labelled isOpen l new newer) :
    ∀ a ∈ l, newer a = new a := by
  intro b hb
  obtain ⟨j, hj⟩ := List.mem_iff_getElem?.mp hb
  obtain ⟨a, ha, hnew⟩ := h.eq_start hj
  obtain ⟨a', ha', hnewer⟩ := h'.eq_start hj
  obtain rfl := Option.some.inj (ha.symm.trans ha')
  obtain ⟨a'', ha'', hfirst⟩ := h.eq_start ha
  rw [start_start] at ha''
  obtain rfl := Option.some.inj (ha.symm.trans ha'')
  rw [hnewer, hfirst, hnew]

end Labels

/-! ### Changes of a label -/

section Changes
variable {β : Type} [DecidableEq β]

/-- The neighbours with different labels. -/
def changes (m : List β) : List (β × β) := (m.zip m.tail).filter fun p => p.1 ≠ p.2

theorem mem_changes_cons {a b : β} {m : List β} {p : β × β} :
    p ∈ changes (a :: b :: m) ↔ a ≠ b ∧ p = (a, b) ∨ p ∈ changes (b :: m) := by
  simp only [changes, List.tail_cons, List.zip_cons_cons, List.filter_cons]
  by_cases hab : a = b
  · simp [hab]
  · simp [hab]

/-- A label is next to a change when there is another one. -/
theorem exists_change_iff {m : List β} {v : β} (hv : v ∈ m) :
    (∃ p ∈ changes m, v = p.1 ∨ v = p.2) ↔ ∃ u ∈ m, u ≠ v := by
  constructor
  · rintro ⟨⟨a, b⟩, hp, hvp⟩
    obtain ⟨hzip, hne⟩ := List.mem_filter.mp hp
    have ha := (List.of_mem_zip hzip).1
    have hb := List.mem_of_mem_tail (List.of_mem_zip hzip).2
    have hne : a ≠ b := by simpa using hne
    rcases hvp with rfl | rfl
    · exact ⟨b, hb, hne.symm⟩
    · exact ⟨a, ha, hne⟩
  · rintro ⟨u, hu, hne⟩
    induction m generalizing u with
    | nil => cases hv
    | cons a m ih =>
      cases m with
      | nil =>
        rw [List.mem_singleton] at hv hu
        exact absurd (hu.trans hv.symm) hne
      | cons b m =>
        by_cases hab : a = b
        · -- the first two labels are the same one
          subst hab
          have hcut : ∀ x ∈ a :: a :: m, x ∈ a :: m := by simp
          obtain ⟨p, hp, hvp⟩ := ih (hcut v hv) u (hcut u hu) hne
          exact ⟨p, mem_changes_cons.mpr (.inr hp), hvp⟩
        · by_cases hva : v = a ∨ v = b
          · exact ⟨(a, b), mem_changes_cons.mpr (.inl ⟨hab, rfl⟩), hva⟩
          · obtain ⟨hva, hvb⟩ := not_or.mp hva
            have hv' : v ∈ b :: m := (List.mem_cons.mp hv).resolve_left hva
            obtain ⟨p, hp, hvp⟩ := ih hv' b List.mem_cons_self (Ne.symm hvb)
            exact ⟨p, mem_changes_cons.mpr (.inr hp), hvp⟩

/-- There is at most one label more than there are changes. -/
theorem card_le_changes (m : List β) : m.toFinset.card ≤ (changes m).length + if m = [] then 0 else 1 := by
  induction m with
  | nil => simp
  | cons a m ih =>
    cases m with
    | nil => simp
    | cons b m =>
      simp only [reduceCtorEq, if_false] at ih ⊢
      rw [List.toFinset_cons]
      by_cases hab : a = b
      · subst hab
        rw [Finset.insert_eq_of_mem (by simp)]
        refine ih.trans (Nat.succ_le_succ ?_)
        simp [changes]
      · refine (Finset.card_insert_le _ _).trans ?_
        simp only [changes, List.tail_cons, List.zip_cons_cons, List.filter_cons] at ih ⊢
        simp [hab] at ih ⊢
        omega

end Changes
end CapTaint.Blocks
