import Mathlib.Data.Option.Basic
import Mathlib.Data.List.Forall2
import Mathlib.Tactic.Common

/-! # Computations beside a specification, and states that fork

A computation that may abort is compared with a partial one that says what it should do. When one state of several is
replaced by those that it forks into, the one that a given run follows is still alone. -/

namespace CapTaint.Forking

variable {ε α β γ δ : Type}

/-- What the computation ends with, if it ends well, satisfies `P`. -/
def Ensures (P : α → Prop) (x : Except ε α) : Prop := ∀ a, x = .ok a → P a

/-- Whenever the specification has a result, the computation ends with a related one. -/
def Computes (R : α → β → Prop) (x : Except ε α) (y : Option β) : Prop := ∀ b, y = some b → ∃ a, x = .ok a ∧ R a b

namespace Ensures

variable {P Q : α → Prop} {S : β → Prop} {x : Except ε α} {f : α → Except ε β} {a : α}

theorem pure (h : P a) : Ensures P (Pure.pure a : Except ε α) := by
  intro b hb
  obtain rfl := Except.ok.inj hb
  exact h

theorem error (e : ε) : Ensures P (.error e) := fun _ h => by cases h

theorem bind (h : Ensures P x) (hf : ∀ a, P a → Ensures S (f a)) : Ensures S (x >>= f) := by
  cases x with
  | error e => exact error e
  | ok a => exact hf a (h a rfl)

theorem trivial : Ensures (fun _ => True) x := fun _ _ => True.intro

end Ensures

namespace Computes

variable {R : α → β → Prop} {S : γ → δ → Prop} {x : Except ε α} {y : Option β} {f : α → Except ε γ} {g : β → Option δ}
    {a : α} {b : β}

theorem pure (h : R a b) : Computes R (Pure.pure a : Except ε α) (some b) := by
  intro b' hb
  obtain rfl := Option.some.inj hb
  exact ⟨a, rfl, h⟩

theorem none : Computes R x (none : Option β) := fun _ h => by cases h

theorem bind (h : Computes R x y) (hf : ∀ a b, R a b → Computes S (f a) (g b)) : Computes S (x >>= f) (y >>= g) := by
  intro d hd
  obtain ⟨b, hb, hg⟩ := Option.bind_eq_some_iff.mp hd
  obtain ⟨a, rfl, hab⟩ := h b hb
  exact hf a b hab d hg

section
variable {ι : Type} {f : ι → Except ε α} {g : ι → Option β}

theorem mapM (l : List ι) (h : ∀ i ∈ l, Computes R (f i) (g i)) : Computes (List.Forall₂ R) (l.mapM f) (l.mapM g) := by
  induction l with
  | nil => exact pure .nil
  | cons i l ih =>
    obtain ⟨hi, hl⟩ := List.forall_mem_cons.mp h
    rw [List.mapM_cons, List.mapM_cons]
    exact hi.bind fun a b hab => (ih hl).bind fun as bs has => pure (.cons hab has)

theorem mapM_option (o : Option ι) (h : ∀ i, Computes R (f i) (g i)) : Computes (Option.Rel R) (o.mapM f) (o.mapM g) := by
  cases o with
  | none => exact pure .none
  | some i =>
    intro o ho
    have ho : (g i).map some = some o := ho
    obtain ⟨b, hb, rfl⟩ := Option.map_eq_some_iff.mp ho
    obtain ⟨a, ha, hab⟩ := h i b hb
    exact ⟨some a, congrArg (some <$> ·) ha, .some hab⟩

end
end Computes

/-- One element satisfies `P`, and the others satisfy `Q`. -/
def Alone (P Q : α → Prop) : List α → Prop
  | [] => False
  | x :: l => (P x ∧ ∀ y ∈ l, Q y) ∨ (Q x ∧ Alone P Q l)

namespace Alone

variable {P P' Q : α → Prop} {l results : List α} {x : α}

theorem singleton (h : P x) : Alone P Q [x] := .inl ⟨h, by simp⟩

theorem append_right (h : Alone P Q l) {r : List α} (hr : ∀ y ∈ r, Q y) : Alone P Q (l ++ r) := by
  induction l with
  | nil => exact h.elim
  | cons x l ih =>
    rcases h with ⟨hx, hl⟩ | ⟨hx, hl⟩
    · exact .inl ⟨hx, List.forall_mem_append.mpr ⟨hl, hr⟩⟩
    · exact .inr ⟨hx, ih hl⟩

theorem append_left (h : Alone P Q l) {r : List α} (hr : ∀ y ∈ r, Q y) : Alone P Q (r ++ l) := by
  induction r with
  | nil => exact h
  | cons x r ih =>
    obtain ⟨hx, hrest⟩ := List.forall_mem_cons.mp hr
    exact .inr ⟨hx, ih hrest⟩

variable (P') in
/-- An element is replaced: it is the one, or one of the others. -/
theorem splice {i : Nat} (h : Alone P Q l) (hi : l[i]? = some x) :
    (P x ∧ ∀ results, Alone P' Q results → Alone P' Q (l.take i ++ results ++ l.drop (i + 1))) ∨
      (Q x ∧ ∀ results, (∀ y ∈ results, Q y) → Alone P Q (l.take i ++ results ++ l.drop (i + 1))) := by
  induction l generalizing i with
  | nil => exact h.elim
  | cons z l ih =>
    cases i with
    | zero =>
      obtain rfl : z = x := by simpa using hi
      rcases h with ⟨hz, hl⟩ | ⟨hz, hl⟩
      · exact .inl ⟨hz, fun results hresults => hresults.append_right hl⟩
      · exact .inr ⟨hz, fun results hresults => hl.append_left hresults⟩
    | succ i =>
      rw [List.getElem?_cons_succ] at hi
      rcases h with ⟨hz, hl⟩ | ⟨hz, hl⟩
      · refine .inr ⟨hl x (List.mem_of_getElem? hi), fun results hresults => .inl ⟨hz, fun y hy => ?_⟩⟩
        rcases List.mem_append.mp hy with hy | hy
        · rcases List.mem_append.mp hy with hy | hy
          exacts [hl y (List.mem_of_mem_take hy), hresults y hy]
        · exact hl y (List.mem_of_mem_drop hy)
      · rcases ih hl hi with ⟨hx, hall⟩ | ⟨hx, hall⟩
        · exact .inl ⟨hx, fun results hresults => .inr ⟨hz, hall results hresults⟩⟩
        · exact .inr ⟨hx, fun results hresults => .inr ⟨hz, hall results hresults⟩⟩

/-- The one is at an index, and what does not satisfy `Q` is it. -/
theorem exists_index (h : Alone P Q l) :
    ∃ (i : Nat) (x : α), l[i]? = some x ∧ P x ∧ ∀ (j : Nat) (y : α), l[j]? = some y → ¬Q y → j = i := by
  induction l with
  | nil => exact h.elim
  | cons z l ih =>
    rcases h with ⟨hz, hl⟩ | ⟨hz, hl⟩
    · refine ⟨0, z, rfl, hz, fun j y hj hy => ?_⟩
      cases j with
      | zero => rfl
      | succ j => exact absurd (hl y (List.mem_of_getElem? hj)) hy
    · obtain ⟨i, x, hi, hx, hunique⟩ := ih hl
      refine ⟨i + 1, x, hi, hx, fun j y hj hy => ?_⟩
      cases j with
      | zero =>
        obtain rfl : z = y := by simpa using hj
        exact absurd hz hy
      | succ j => rw [hunique j y hj hy]

end Alone

end CapTaint.Forking
