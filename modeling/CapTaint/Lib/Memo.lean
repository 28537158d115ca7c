import Mathlib.Data.List.Basic
import Mathlib.Data.Option.Basic

/-! # Remembered results

Computations that may fail and keep a table of results. Whether they look into the table makes no difference as long as its
entries are results. -/

namespace CapTaint

/-- A computation with a table from keys to results. -/
abbrev Memo (κ ρ : Type) : Type → Type := StateT (List (κ × ρ)) Option

namespace Memo
variable {κ ρ α β : Type} [DecidableEq κ]

/-- The result of the table; if there is none, that of the computation, which is entered. -/
def remember (key : κ) (actual : Memo κ ρ ρ) : Memo κ ρ ρ := fun table =>
  match table.lookup key with
  | some found => some (found, table)
  | none => (actual table).map fun result => (result.1, (key, result.1) :: result.2)

/-- The result from the empty table. -/
def value (m : Memo κ ρ α) : Option α := (m []).map Prod.fst

omit [DecidableEq κ] in
@[simp] theorem liftM_some (a : α) : (liftM (some a) : Memo κ ρ α) = pure a := rfl

/-- What the table finds is the result of a function. -/
def Sound (f : κ → Option ρ) (table : List (κ × ρ)) : Prop := ∀ key result, table.lookup key = some result → f key = some result

variable {f : κ → Option ρ} {m plain : Memo κ ρ α}

theorem Sound.nil : Sound f [] := fun _ _ h => absurd h.symm (Option.some_ne_none _)

theorem Sound.cons {key : κ} {result : ρ} {table : List (κ × ρ)} (h : Sound f table) (hresult : f key = some result) :
    Sound f ((key, result) :: table) := by
  intro key' result' hlookup
  rw [List.lookup_cons] at hlookup
  by_cases heq : key' = key
  · rw [heq, beq_self_eq_true] at hlookup
    obtain rfl := Option.some.inj hlookup
    rw [heq, hresult]
  · rw [beq_false_of_ne heq] at hlookup
    exact h key' result' hlookup

/-- The plain computation does not use the table. The other one gives the same from every sound table, which it keeps sound. -/
structure Agrees (f : κ → Option ρ) (m plain : Memo κ ρ α) : Prop where
  unused : ∀ table, plain table = plain.value.map (·, table)
  result : ∀ table, Sound f table → (m table).map Prod.fst = plain.value
  sound : ∀ table, Sound f table → ∀ p, m table = some p → Sound f p.2

namespace Agrees

protected theorem pure (a : α) : Agrees f (pure a : Memo κ ρ α) (pure a) where
  unused _ := rfl
  result _ _ := rfl
  sound table hsound p h := by
    obtain rfl : (a, table) = p := Option.some.inj h
    exact hsound

protected theorem failure : Agrees f (failure : Memo κ ρ α) failure where
  unused _ := rfl
  result _ _ := rfl
  sound _ _ _ h := absurd h.symm (Option.some_ne_none _)

/-- What may fail but has nothing to do with the table. -/
protected theorem lift (x : Option α) : Agrees f (liftM x : Memo κ ρ α) (liftM x) where
  unused _ := by cases x <;> rfl
  result _ _ := by cases x <;> rfl
  sound table hsound p h := by
    cases x with
    | none => exact absurd h.symm (Option.some_ne_none _)
    | some a =>
      obtain rfl : (a, table) = p := Option.some.inj h
      exact hsound

theorem value_bind {g : α → Memo κ ρ β} (h : Agrees f m plain) : (plain >>= g).value = plain.value.bind fun a => (g a).value := by
  show ((plain []).bind fun p => g p.1 p.2).map Prod.fst = _
  rw [h.unused]
  cases plain.value with
  | none => rfl
  | some a => rfl

protected theorem bind {g gplain : α → Memo κ ρ β} (h : Agrees f m plain) (hg : ∀ a, Agrees f (g a) (gplain a)) :
    Agrees f (m >>= g) (plain >>= gplain) where
  unused table := by
    rw [h.value_bind]
    show (plain table).bind (fun p => gplain p.1 p.2) = _
    rw [h.unused]
    cases plain.value with
    | none => rfl
    | some a => exact (hg a).unused table
  result table hsound := by
    rw [h.value_bind, ← h.result table hsound]
    show ((m table).bind fun p => g p.1 p.2).map Prod.fst = _
    cases hm : m table with
    | none => rfl
    | some p => exact (hg p.1).result p.2 (h.sound table hsound p hm)
  sound table hsound q hq := by
    obtain ⟨p, hm, hg'⟩ := Option.bind_eq_some_iff.mp (show ((m table).bind fun p => g p.1 p.2) = some q from hq)
    exact (hg p.1).sound p.2 (h.sound table hsound p hm) q hg'

/-- A found result is the one that the computation would give. -/
protected theorem remember {key : κ} {actual plain : Memo κ ρ ρ} (h : Agrees f actual plain) (hkey : f key = plain.value) :
    Agrees f (remember key actual) plain where
  unused := h.unused
  result table hsound := by
    unfold Memo.remember
    cases hlookup : table.lookup key with
    | some found => exact (hsound key found hlookup).symm.trans hkey
    | none =>
      rw [← h.result table hsound]
      exact Option.map_map ..
  sound table hsound p hp := by
    unfold Memo.remember at hp
    cases hlookup : table.lookup key with
    | some found =>
      rw [hlookup] at hp
      obtain rfl := Option.some.inj hp
      exact hsound
    | none =>
      rw [hlookup] at hp
      obtain ⟨q, hq, rfl⟩ := Option.map_eq_some_iff.mp hp
      have hresult := h.result table hsound
      rw [hq] at hresult
      exact (h.sound table hsound q hq).cons (hkey.trans hresult.symm)

/-- From the empty table the results are the same. -/
theorem value_eq (h : Agrees f m plain) : m.value = plain.value := h.result [] .nil

end Agrees
end Memo
end CapTaint
