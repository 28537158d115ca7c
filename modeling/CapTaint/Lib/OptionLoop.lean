import Mathlib

/-! # Loops that may fail

`mapM` and `foldlM` in `Option`: what each element gives when the loop succeeds, and when it does. -/

namespace CapTaint.OptionLoop

section
variable {α β γ : Type} {f : α → Option β} {g : α → β} {l : List α} {ys : List β} {x : α} {y : β}

/-! ### `mapM` -/

theorem mapM_cons_eq_some : (x :: l).mapM f = some ys ↔ ∃ y ys', f x = some y ∧ l.mapM f = some ys' ∧ ys = y :: ys' := by
  rw [List.mapM_cons]
  constructor
  · intro h
    obtain ⟨y, hy, h⟩ := Option.bind_eq_some_iff.mp h
    obtain ⟨ys', hys, h⟩ := Option.bind_eq_some_iff.mp h
    exact ⟨y, ys', hy, hys, (Option.some.inj h).symm⟩
  · rintro ⟨y, ys', hy, hys, rfl⟩
    rw [hy, hys]
    rfl

/-- A loop that succeeds pairs each element with its value. -/
theorem forall₂_of_mapM (h : l.mapM f = some ys) : List.Forall₂ (fun x y => f x = some y) l ys := by
  induction l generalizing ys with
  | nil =>
    obtain rfl : [] = ys := by simpa using h
    exact .nil
  | cons x l ih =>
    obtain ⟨y, ys', hy, hys, rfl⟩ := mapM_cons_eq_some.mp h
    exact .cons hy (ih hys)

theorem mapM_mem (h : l.mapM f = some ys) (hx : x ∈ l) : ∃ y ∈ ys, f x = some y := by
  have hall := forall₂_of_mapM h
  clear h
  induction hall with
  | nil => cases hx
  | @cons a b l ys hab _ ih =>
    rcases List.mem_cons.mp hx with rfl | hx
    · exact ⟨b, List.mem_cons_self, hab⟩
    · obtain ⟨y, hy, hfx⟩ := ih hx
      exact ⟨y, List.mem_cons_of_mem _ hy, hfx⟩

theorem mem_mapM (h : l.mapM f = some ys) (hy : y ∈ ys) : ∃ x ∈ l, f x = some y := by
  have hall := forall₂_of_mapM h
  clear h
  induction hall with
  | nil => cases hy
  | @cons a b l ys hab _ ih =>
    rcases List.mem_cons.mp hy with rfl | hy
    · exact ⟨a, List.mem_cons_self, hab⟩
    · obtain ⟨x, hx, hfx⟩ := ih hy
      exact ⟨x, List.mem_cons_of_mem _ hx, hfx⟩

/-- A loop succeeds if each of its turns does. -/
theorem mapM_forall₂ {R : α → β → Prop} (h : ∀ x ∈ l, ∃ y, f x = some y ∧ R x y) :
    ∃ ys, l.mapM f = some ys ∧ List.Forall₂ R l ys := by
  induction l with
  | nil => exact ⟨[], rfl, .nil⟩
  | cons x l ih =>
    obtain ⟨y, hy, hR⟩ := h x List.mem_cons_self
    obtain ⟨ys, hys, hall⟩ := ih fun z hz => h z (List.mem_cons_of_mem x hz)
    exact ⟨y :: ys, mapM_cons_eq_some.mpr ⟨y, ys, hy, hys, rfl⟩, .cons hR hall⟩

theorem exists_mapM {P : β → Prop} (h : ∀ x ∈ l, ∃ y, f x = some y ∧ P y) : ∃ ys, l.mapM f = some ys ∧ ∀ y ∈ ys, P y := by
  obtain ⟨ys, hys, hall⟩ := mapM_forall₂ h
  refine ⟨ys, hys, fun y hy => ?_⟩
  clear hys
  induction hall with
  | nil => cases hy
  | cons hP _ ih =>
    rcases List.mem_cons.mp hy with rfl | hy
    · exact hP
    · exact ih (fun x hx => h x (List.mem_cons_of_mem _ hx)) hy

theorem mapM_eq_some (h : ∀ x ∈ l, f x = some (g x)) : l.mapM f = some (l.map g) := by
  induction l with
  | nil => rfl
  | cons x l ih =>
    have hrest := ih fun y hy => h y (List.mem_cons_of_mem x hy)
    exact mapM_cons_eq_some.mpr ⟨g x, l.map g, h x List.mem_cons_self, hrest, rfl⟩

theorem map_eq_of_forall₂ {R : α → β → Prop} {u : α → γ} {v : β → γ} (h : List.Forall₂ R l ys)
    (huv : ∀ x y, R x y → v y = u x) : ys.map v = l.map u := by
  induction h with
  | nil => rfl
  | cons hR _ ih => rw [List.map_cons, List.map_cons, huv _ _ hR, ih]

end

/-! ### `foldlM` -/

section
variable {σ α τ : Type}

theorem foldlM_singleton (f : σ → α → Option σ) (s : σ) (a : α) : [a].foldlM f s = f s a := by
  rw [List.foldlM_cons]
  rcases f s a with _ | s' <;> rfl

theorem bind_ite {P Q : Prop} [Decidable P] [Decidable Q] {_ : Decidable (P ∧ Q)} (o : Option σ) (k : σ → Option τ) :
    ((if P then o else none) >>= fun s => if Q then k s else none) = if P ∧ Q then o >>= k else none := by
  by_cases hP : P
  · by_cases hQ : Q
    · simp only [if_pos hP, if_pos hQ, if_pos (And.intro hP hQ)]
    · simp only [if_neg hQ, if_neg fun h : P ∧ Q => hQ h.2]
      exact Option.bind_fun_none _
  · rw [if_neg hP, if_neg fun h => hP h.1]
    rfl

/-- Each turn of a loop does `g` with the items of one element, or fails; so the loop does it with all items. -/
theorem foldlM_range_flatMap {g : List α → σ → Option σ} {f : σ → Option σ} {P : Prop} [Decidable P] {items : Nat → List α}
    (hnil : ∀ s, g [] s = some s) (happend : ∀ xs ys s, g (xs ++ ys) s = g xs s >>= g ys)
    (hf : ∀ s i, f s = if P then g (items i) s else none) (n : Nat) (s : σ) :
    (List.range n).foldlM (fun s _ => f s) s = if n ≠ 0 → P then g ((List.range n).flatMap items) s else none := by
  induction n with
  | zero =>
    rw [if_pos fun h => absurd rfl h]
    exact (hnil s).symm
  | succ n ih =>
    rw [List.range_succ, List.foldlM_append, ih, List.flatMap_append, List.flatMap_singleton, happend]
    simp only [foldlM_singleton, ne_eq, Nat.succ_ne_zero, not_false_eq_true, forall_const]
    by_cases hP : P
    · rw [if_pos fun _ => hP, if_pos hP]
      simp only [hf _ n, if_pos hP]
    · simp only [hf _ n, if_neg hP]
      exact Option.bind_fun_none _

end

end CapTaint.OptionLoop

/-! ### Computations that may fail

How a sequence of steps in `Except` that ends well is taken apart. -/

namespace CapTaint.Result

variable {ε α β : Type} {x : Except ε α} {f : α → Except ε β} {b : β}

theorem bind_eq_ok : x >>= f = .ok b ↔ ∃ a, x = .ok a ∧ f a = .ok b := by
  cases x with
  | error e => exact ⟨nofun, fun ⟨_, h, _⟩ => nomatch h⟩
  | ok a =>
    constructor
    · exact fun h => ⟨a, rfl, h⟩
    · rintro ⟨a', ha, h⟩
      obtain rfl := Except.ok.inj ha
      exact h

end CapTaint.Result
