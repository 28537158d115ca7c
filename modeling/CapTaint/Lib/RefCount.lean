import Mathlib.Algebra.Order.BigOperators.Group.Finset

/-! # Reference counts

Immutable cells that point to older cells, each with the number of references to it. A cell is freed when the last
reference to it is given up. Cell 0 is static: it may point to itself. -/

namespace CapTaint.RefCount

variable {α : Type}

structure Cell (α : Type) where
  data : α
  refs : Nat

structure Heap (α : Type) where
  cell : Nat → Option (Cell α)
  next : Nat

namespace Heap

def set (h : Heap α) (p : Nat) (c : Option (Cell α)) : Heap α := { h with cell := Function.update h.cell p c }

/-- The new cell has one reference, which its maker owns. -/
def alloc (h : Heap α) (data : α) : Heap α := ⟨Function.update h.cell h.next (some ⟨data, 1⟩), h.next + 1⟩

def incref (h : Heap α) (p : Nat) : Option (Heap α) := (h.cell p).map fun c => h.set p (some { c with refs := c.refs + 1 })

/-- The cell is freed with its last reference, and gives up its own references. There is no result when the steps are
used up, or when the cell has been freed before. -/
def decref (kids : α → List Nat) : Nat → Heap α → Nat → Option (Heap α)
  | 0, _, _ => none
  | n + 1, h, p => do
    let c ← h.cell p
    if c.refs - 1 = 0 then (kids c.data).foldlM (fun h k => decref kids n h k) (h.set p none)
    else return h.set p (some { c with refs := c.refs - 1 })

end Heap

/-! ### Owners -/

variable (kids : α → List Nat)

/-- The references from a cell. -/
def held (h : Heap α) (p q : Nat) : Nat := (h.cell q).elim 0 fun c => (kids c.data).count p

/-- The references from all cells. -/
def pointers (h : Heap α) (p : Nat) : Nat := ∑ q ∈ Finset.range h.next, held kids h p q

/-- The references to the cells are those from cells and from the list. -/
structure Owned (h : Heap α) (roots : List Nat) : Prop where
  static : 0 ∈ roots
  counted : ∀ p c, h.cell p = some c → c.refs = roots.count p + pointers kids h p
  used : ∀ p c, h.cell p = some c → 0 < c.refs
  roots : ∀ p ∈ roots, (h.cell p).isSome = true
  closed : ∀ q c, h.cell q = some c → ∀ k ∈ kids c.data, (h.cell k).isSome = true
  older : ∀ q c, h.cell q = some c → ∀ k ∈ kids c.data, k < q ∨ q = 0
  fresh : ∀ p, (h.cell p).isSome = true → p < h.next

/-- Cells that are left have the data that they had. -/
structure Same (h h' : Heap α) : Prop where
  next : h.next ≤ h'.next
  data : ∀ p c', h'.cell p = some c' → p < h.next → ∃ c, h.cell p = some c ∧ c.data = c'.data

/-- No cell is freed. -/
def Keeps (h h' : Heap α) : Prop := ∀ p c, h.cell p = some c → ∃ c', h'.cell p = some c' ∧ c'.data = c.data

variable {kids} {h h' h'' : Heap α} {roots roots' : List Nat} {p q : Nat} {c : Cell α} {data : α}

theorem Same.refl (h : Heap α) : Same h h := ⟨le_rfl, fun _ c hc _ => ⟨c, hc, rfl⟩⟩

theorem Same.trans (h₁ : Same h h') (h₂ : Same h' h'') : Same h h'' where
  next := h₁.next.trans h₂.next
  data p c hc hp := by
    obtain ⟨c', hc', heq'⟩ := h₂.data p c hc (hp.trans_le h₁.next)
    obtain ⟨c'', hc'', heq''⟩ := h₁.data p c' hc' hp
    exact ⟨c'', hc'', heq''.trans heq'⟩

theorem Keeps.trans (h₁ : Keeps h h') (h₂ : Keeps h' h'') : Keeps h h'' := by
  intro p c hc
  obtain ⟨c', hc', heq'⟩ := h₁ p c hc
  obtain ⟨c'', hc'', heq''⟩ := h₂ p c' hc'
  exact ⟨c'', hc'', heq''.trans heq'⟩

theorem Owned.perm (ho : Owned kids h roots) (hperm : roots.Perm roots') : Owned kids h roots' where
  static := hperm.mem_iff.mp ho.static
  counted p c hc := by rw [← hperm.count_eq]; exact ho.counted p c hc
  used := ho.used
  roots p hp := ho.roots p (hperm.mem_iff.mpr hp)
  closed := ho.closed
  older := ho.older
  fresh := ho.fresh

/-! ### References -/

theorem cell_set (h : Heap α) (p q : Nat) (c : Option (Cell α)) : (h.set p c).cell q = if q = p then c else h.cell q :=
  Function.update_apply ..

theorem cell_alloc_of_ne (hp : p ≠ h.next) : (h.alloc data).cell p = h.cell p := Function.update_of_ne hp _ _

theorem cell_alloc (h : Heap α) (data : α) : (h.alloc data).cell h.next = some ⟨data, 1⟩ := Function.update_self ..

/-- A change of counts does not change the references. -/
theorem pointers_set_refs (hc : h.cell p = some c) (refs : Nat) (r : Nat) :
    pointers kids (h.set p (some { c with refs })) r = pointers kids h r := by
  refine Finset.sum_congr rfl fun q _ => ?_
  rw [held, held, cell_set]
  split
  case isTrue heq => rw [heq, hc, Option.elim_some, Option.elim_some]
  case isFalse => rfl

/-- The references from a cell go with it. -/
theorem pointers_set_none (hc : h.cell p = some c) (hp : p < h.next) (r : Nat) :
    pointers kids h r = (kids c.data).count r + pointers kids (h.set p none) r := by
  have hmem : p ∈ Finset.range h.next := Finset.mem_range.mpr hp
  have hold : held kids h r p = (kids c.data).count r := by rw [held, hc, Option.elim_some]
  have hnew : held kids (h.set p none) r p = 0 := by rw [held, cell_set, if_pos rfl, Option.elim_none]
  rw [pointers, ← Finset.add_sum_erase _ _ hmem, hold, pointers, show (h.set p none).next = h.next from rfl,
    ← Finset.add_sum_erase (Finset.range h.next) (held kids (h.set p none) r) hmem, hnew, Nat.zero_add]
  refine congrArg _ (Finset.sum_congr rfl fun q hq => ?_)
  rw [held, held, cell_set, if_neg (Finset.ne_of_mem_erase hq)]

theorem pointers_alloc (r : Nat) : pointers kids (h.alloc data) r = pointers kids h r + (kids data).count r := by
  rw [pointers, show (h.alloc data).next = h.next + 1 from rfl, Finset.sum_range_succ]
  refine congrArg₂ _ (Finset.sum_congr rfl fun q hq => ?_) ?_
  · rw [held, held, cell_alloc_of_ne (Finset.mem_range.mp hq).ne]
  · rw [held, cell_alloc, Option.elim_some]

theorem held_of_mem (hc : h.cell q = some c) (hmem : p ∈ kids c.data) (hq : q < h.next) : 0 < pointers kids h p := by
  refine (Nat.lt_of_lt_of_le (List.count_pos_iff.mpr hmem) ?_)
  have hle : held kids h p q ≤ pointers kids h p :=
    Finset.single_le_sum (f := held kids h p) (fun _ _ => Nat.zero_le _) (Finset.mem_range.mpr hq)
  rwa [held, hc, Option.elim_some] at hle

/-- A cell that is in use is owned by the list or by a cell. -/
theorem Owned.owner (ho : Owned kids h roots) (hc : h.cell p = some c) :
    p ∈ roots ∨ ∃ q c', h.cell q = some c' ∧ p ∈ kids c'.data := by
  have hpos := ho.used p c hc
  rw [ho.counted p c hc] at hpos
  rcases Nat.eq_zero_or_pos (roots.count p) with hzero | hroot
  · rw [hzero, Nat.zero_add] at hpos
    obtain ⟨q, -, hq⟩ := Finset.exists_ne_zero_of_sum_ne_zero hpos.ne'
    cases hcell : h.cell q with
    | none =>
      rw [held, hcell] at hq
      exact absurd rfl hq
    | some c' =>
      rw [held, hcell, Option.elim_some] at hq
      exact .inr ⟨q, c', hcell, List.count_pos_iff.mp (Nat.pos_of_ne_zero hq)⟩
  · exact .inl (List.count_pos_iff.mp hroot)

/-- What the owners keep is kept with all that it leads to. -/
theorem Owned.keeps (ho : Owned kids h roots) (ho' : Owned kids h' roots') (hsub : roots ⊆ roots') (hsame : Same h h') :
    Keeps h h' := by
  have hlive : ∀ n p c, h.cell p = some c → h.next ≤ p + n → (h'.cell p).isSome = true := by
    intro n
    induction n with
    | zero =>
      intro p c hc hn
      exact absurd (ho.fresh p (Option.isSome_of_eq_some hc)) (Nat.not_lt.mpr hn)
    | succ n ih =>
      intro p c hc hn
      rcases ho.owner hc with hroot | ⟨q, c', hq, hmem⟩
      · exact ho'.roots p (hsub hroot)
      · have hq' : (h'.cell q).isSome = true := by
          rcases ho.older q c' hq p hmem with hlt | rfl
          · exact ih q c' hq (by omega)
          · exact ho'.roots 0 ho'.static
        obtain ⟨c'', hc''⟩ := Option.isSome_iff_exists.mp hq'
        obtain ⟨c₀, hc₀, heq⟩ := hsame.data q c'' hc'' (ho.fresh q (Option.isSome_of_eq_some hq))
        obtain rfl := Option.some.inj (hq.symm.trans hc₀)
        exact ho'.closed q c'' hc'' p (heq ▸ hmem)
  intro p c hc
  obtain ⟨c', hc'⟩ := Option.isSome_iff_exists.mp (hlive h.next p c hc (Nat.le_add_left _ _))
  obtain ⟨c₀, hc₀, heq⟩ := hsame.data p c' hc' (ho.fresh p (Option.isSome_of_eq_some hc))
  obtain rfl := Option.some.inj (hc.symm.trans hc₀)
  exact ⟨c', hc', heq.symm⟩

/-! ### Operations -/

/-- The references that the new cell takes over are from now on its own. -/
theorem Owned.alloc (ho : Owned kids h (kids data ++ roots)) (hstatic : 0 ∈ roots) :
    Owned kids (h.alloc data) (h.next :: roots) ∧ Keeps h (h.alloc data) ∧ Same h (h.alloc data) ∧
      (h.alloc data).cell h.next = some ⟨data, 1⟩ := by
  have hlt : ∀ p, (h.cell p).isSome = true → p ≠ h.next := fun p hp => (ho.fresh p hp).ne
  have hold : ∀ p, p ≠ h.next → (h.alloc data).cell p = h.cell p := fun p hp => cell_alloc_of_ne hp
  have hnew : (h.alloc data).cell h.next = some ⟨data, 1⟩ := cell_alloc h data
  have hlive : ∀ p, (h.cell p).isSome = true → ((h.alloc data).cell p).isSome = true := fun p hp => by rwa [hold p (hlt p hp)]
  have hkeeps : Keeps h (h.alloc data) := fun p c hc => ⟨c, by rw [hold p (hlt p (Option.isSome_of_eq_some hc)), hc], rfl⟩
  have hzero : ∀ l : List Nat, (∀ p ∈ l, (h.cell p).isSome = true) → l.count h.next = 0 := fun l hl =>
    List.count_eq_zero.mpr fun hmem => hlt _ (hl _ hmem) rfl
  have hnone : pointers kids h h.next = 0 := by
    refine Finset.sum_eq_zero fun q _ => ?_
    cases hcell : h.cell q with
    | none => rw [held, hcell, Option.elim_none]
    | some c =>
      rw [held, hcell, Option.elim_some]
      exact hzero _ (ho.closed q c hcell)
  refine ⟨⟨List.mem_cons_of_mem _ hstatic, fun p c hc => ?_, fun p c hc => ?_, fun p hp => ?_, fun q c hc k hk => ?_,
    fun q c hc k hk => ?_, fun p hp => ?_⟩, hkeeps, ⟨Nat.le_succ _, fun p c hc hp => ⟨c, by rwa [hold p hp.ne] at hc, rfl⟩⟩, hnew⟩
  · rw [pointers_alloc]
    by_cases heq : p = h.next
    · subst heq
      obtain rfl := Option.some.inj (hnew.symm.trans hc)
      rw [List.count_cons_self, hnone, hzero _ fun p hp => ho.roots p (List.mem_append_right _ hp),
        hzero _ fun p hp => ho.roots p (List.mem_append_left _ hp)]
    · rw [hold p heq] at hc
      rw [ho.counted p c hc, List.count_append, List.count_cons_of_ne (Ne.symm heq)]
      omega
  · by_cases heq : p = h.next
    · subst heq
      obtain rfl := Option.some.inj (hnew.symm.trans hc)
      exact Nat.one_pos
    · rw [hold p heq] at hc
      exact ho.used p c hc
  · rcases List.mem_cons.mp hp with rfl | hp
    · exact Option.isSome_of_eq_some hnew
    · exact hlive p (ho.roots p (List.mem_append_right _ hp))
  · by_cases heq : q = h.next
    · subst heq
      obtain rfl := Option.some.inj (hnew.symm.trans hc)
      exact hlive k (ho.roots k (List.mem_append_left _ hk))
    · rw [hold q heq] at hc
      exact hlive k (ho.closed q c hc k hk)
  · by_cases heq : q = h.next
    · subst heq
      obtain rfl := Option.some.inj (hnew.symm.trans hc)
      exact .inl (ho.fresh k (ho.roots k (List.mem_append_left _ hk)))
    · rw [hold q heq] at hc
      exact ho.older q c hc k hk
  · by_cases heq : p = h.next
    · exact heq ▸ Nat.lt_succ_self _
    · rw [hold p heq] at hp
      exact (ho.fresh p hp).trans (Nat.lt_succ_self _)

/-- A change of the count of a cell that matches a change of the list. -/
theorem Owned.set_refs (ho : Owned kids h roots) (hc : h.cell p = some c) {refs : Nat} (hpos : 0 < refs)
    (hrefs : refs = roots'.count p + pointers kids h p) (hothers : ∀ q, q ≠ p → roots'.count q = roots.count q)
    (hstatic : 0 ∈ roots') : Owned kids (h.set p (some { c with refs })) roots' ∧ Keeps h (h.set p (some { c with refs })) ∧
      Same h (h.set p (some { c with refs })) := by
  have hcell : ∀ q c', (h.set p (some { c with refs })).cell q = some c' →
      ∃ c₀, h.cell q = some c₀ ∧ c₀.data = c'.data ∧ ((q = p ∧ c'.refs = refs) ∨ (q ≠ p ∧ c'.refs = c₀.refs)) := by
    intro q c' hc'
    rw [cell_set] at hc'
    split at hc'
    case isTrue heq =>
      obtain rfl := Option.some.inj hc'
      exact ⟨c, heq ▸ hc, rfl, .inl ⟨heq, rfl⟩⟩
    case isFalse hne => exact ⟨c', hc', rfl, .inr ⟨hne, rfl⟩⟩
  have hkeeps : Keeps h (h.set p (some { c with refs })) := by
    intro q c' hc'
    rw [cell_set]
    split
    case isTrue heq =>
      obtain rfl := Option.some.inj (hc.symm.trans (heq ▸ hc'))
      exact ⟨_, rfl, rfl⟩
    case isFalse => exact ⟨c', hc', rfl⟩
  have hlive : ∀ q, (h.cell q).isSome = true → ((h.set p (some { c with refs })).cell q).isSome = true := by
    intro q hq
    obtain ⟨c', hc'⟩ := Option.isSome_iff_exists.mp hq
    obtain ⟨c'', hc'', -⟩ := hkeeps q c' hc'
    exact Option.isSome_of_eq_some hc''
  refine ⟨⟨hstatic, fun q c' hc' => ?_, fun q c' hc' => ?_, fun q hq => ?_, fun q c' hc' k hk => ?_, fun q c' hc' k hk => ?_,
    fun q hq => ?_⟩, hkeeps, ⟨le_rfl, fun q c' hc' _ => ?_⟩⟩
  · obtain ⟨c₀, hc₀, -, ⟨rfl, hr⟩ | ⟨hne, hr⟩⟩ := hcell q c' hc'
    · rw [pointers_set_refs hc, hr, hrefs]
    · rw [pointers_set_refs hc, hr, hothers q hne, ho.counted q c₀ hc₀]
  · obtain ⟨c₀, hc₀, -, ⟨-, hr⟩ | ⟨-, hr⟩⟩ := hcell q c' hc'
    · rwa [hr]
    · rw [hr]
      exact ho.used q c₀ hc₀
  · by_cases heq : q = p
    · subst heq
      exact hlive q (Option.isSome_of_eq_some hc)
    · exact hlive q (ho.roots q (List.count_pos_iff.mp (hothers q heq ▸ List.count_pos_iff.mpr hq)))
  · obtain ⟨c₀, hc₀, hdata, -⟩ := hcell q c' hc'
    exact hlive k (ho.closed q c₀ hc₀ k (hdata ▸ hk))
  · obtain ⟨c₀, hc₀, hdata, -⟩ := hcell q c' hc'
    exact ho.older q c₀ hc₀ k (hdata ▸ hk)
  · obtain ⟨c', hc'⟩ := Option.isSome_iff_exists.mp hq
    obtain ⟨c₀, hc₀, -⟩ := hcell q c' hc'
    exact ho.fresh q (Option.isSome_of_eq_some hc₀)
  · obtain ⟨c₀, hc₀, hdata, -⟩ := hcell q c' hc'
    exact ⟨c₀, hc₀, hdata⟩

theorem Owned.incref (ho : Owned kids h roots) (hlive : (h.cell p).isSome = true) :
    ∃ h', h.incref p = some h' ∧ Owned kids h' (p :: roots) ∧ Keeps h h' ∧ Same h h' := by
  obtain ⟨c, hc⟩ := Option.isSome_iff_exists.mp hlive
  refine ⟨h.set p (some { c with refs := c.refs + 1 }), by rw [Heap.incref, hc, Option.map_some], ?_⟩
  refine ho.set_refs hc (Nat.succ_pos _) ?_ (fun q hne => List.count_cons_of_ne (Ne.symm hne)) (List.mem_cons_of_mem _ ho.static)
  rw [List.count_cons_self, ho.counted p c hc]
  omega

/-- The last reference to a cell: the cell is freed. -/
theorem Owned.free (ho : Owned kids h (p :: roots)) (hc : h.cell p = some c) (hrefs : c.refs - 1 = 0) (hstatic : 0 ∈ roots) :
    Owned kids (h.set p none) (kids c.data ++ roots) ∧ Same h (h.set p none) ∧ ∀ k ∈ kids c.data, k < p := by
  have hcount := ho.counted p c hc
  rw [List.count_cons_self] at hcount
  have hroots : p ∉ roots := fun hmem => by
    have hpos := List.count_pos_iff.mpr hmem
    omega
  have hpointers : ∀ q c', h.cell q = some c' → p ∉ kids c'.data := fun q c' hc' hmem => by
    have hpos := held_of_mem hc' hmem (ho.fresh q (Option.isSome_of_eq_some hc'))
    omega
  have hp : p ≠ 0 := fun heq => hroots (heq ▸ hstatic)
  have hcell : ∀ q, q ≠ p → (h.set p none).cell q = h.cell q := fun q hq => by rw [cell_set, if_neg hq]
  have hsome : ∀ q c', (h.set p none).cell q = some c' → q ≠ p ∧ h.cell q = some c' := by
    intro q c' hc'
    rw [cell_set] at hc'
    split at hc'
    case isTrue => cases hc'
    case isFalse hne => exact ⟨hne, hc'⟩
  refine ⟨⟨List.mem_append_right _ hstatic, fun q c' hc' => ?_, fun q c' hc' => ho.used q c' (hsome q c' hc').2, fun q hq => ?_,
    fun q c' hc' k hk => ?_, fun q c' hc' => ho.older q c' (hsome q c' hc').2, fun q hq => ?_⟩,
    ⟨le_rfl, fun q c' hc' _ => ⟨c', (hsome q c' hc').2, rfl⟩⟩, fun k hk => (ho.older p c hc k hk).resolve_right hp⟩
  · obtain ⟨hne, hc'⟩ := hsome q c' hc'
    have hq := ho.counted q c' hc'
    rw [List.count_cons_of_ne (Ne.symm hne), pointers_set_none hc (ho.fresh p (Option.isSome_of_eq_some hc))] at hq
    rw [List.count_append]
    omega
  · rcases List.mem_append.mp hq with hkid | hroot
    · rw [hcell q fun heq => hpointers p c hc (heq ▸ hkid)]
      exact ho.closed p c hc q hkid
    · rw [hcell q fun heq => hroots (heq ▸ hroot)]
      exact ho.roots q (List.mem_cons_of_mem _ hroot)
  · obtain ⟨-, hc'⟩ := hsome q c' hc'
    rw [hcell k fun heq => hpointers q c' hc' (heq ▸ hk)]
    exact ho.closed q c' hc' k hk
  · obtain ⟨c', hc'⟩ := Option.isSome_iff_exists.mp hq
    exact ho.fresh q (Option.isSome_of_eq_some (hsome q c' hc').2)

theorem Owned.decrefs {n : Nat} (hn : ∀ {h : Heap α} {p : Nat} {roots : List Nat}, Owned kids h (p :: roots) → 0 ∈ roots → p < n →
      ∃ h', h.decref kids n p = some h' ∧ Owned kids h' roots ∧ Same h h')
    (ks : List Nat) (hks : ∀ k ∈ ks, k < n) (hstatic : 0 ∈ roots) (ho : Owned kids h (ks ++ roots)) :
    ∃ h', ks.foldlM (fun h k => h.decref kids n k) h = some h' ∧ Owned kids h' roots ∧ Same h h' := by
  induction ks generalizing h with
  | nil => exact ⟨h, rfl, ho, .refl h⟩
  | cons k ks ih =>
    obtain ⟨h', hdecref, ho', hsame⟩ := hn ho (List.mem_append_right _ hstatic) (hks k List.mem_cons_self)
    obtain ⟨h'', hrest, ho'', hsame'⟩ := ih (fun k hk => hks k (List.mem_cons_of_mem _ hk)) ho'
    exact ⟨h'', by rw [List.foldlM_cons, hdecref]; exact hrest, ho'', hsame.trans hsame'⟩

/-- A reference is given up, with all that only it kept in use. -/
theorem Owned.decref {n : Nat} (ho : Owned kids h (p :: roots)) (hstatic : 0 ∈ roots) (hn : p < n) :
    ∃ h', h.decref kids n p = some h' ∧ Owned kids h' roots ∧ Same h h' := by
  induction n generalizing h p roots with
  | zero => exact absurd hn (Nat.not_lt_zero _)
  | succ n ih =>
    obtain ⟨c, hc⟩ := Option.isSome_iff_exists.mp (ho.roots p List.mem_cons_self)
    rw [Heap.decref, hc]
    simp only [bind, Option.bind]
    split
    case isTrue hlast =>
      obtain ⟨hfree, hsame, hkids⟩ := ho.free hc hlast hstatic
      obtain ⟨h', hdecrefs, ho', hsame'⟩ :=
        hfree.decrefs ih (kids c.data) (fun k hk => (hkids k hk).trans_le (Nat.le_of_lt_succ hn)) hstatic
      exact ⟨h', hdecrefs, ho', hsame.trans hsame'⟩
    case isFalse hmore =>
      have hcount := ho.counted p c hc
      rw [List.count_cons_self] at hcount
      have hrefs : c.refs - 1 = roots.count p + pointers kids h p := by omega
      obtain ⟨ho', -, hsame⟩ := ho.set_refs hc (Nat.pos_of_ne_zero hmore) hrefs
        (fun q hne => (List.count_cons_of_ne (Ne.symm hne)).symm) hstatic
      exact ⟨_, rfl, ho', hsame⟩

end CapTaint.RefCount
