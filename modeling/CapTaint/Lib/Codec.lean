import Mathlib.Data.List.Basic
import Mathlib.Data.Vector.Basic

/-! # Codes of values

A reader takes a value from the front of a list of symbols, and a writer appends symbols to a list. Both may fail, and
what a failed one leaves behind is kept. -/

namespace CapTaint.Codec

variable {ε σ α β : Type}

theorem bind_ok {s s' : σ} {a : α} {x : EStateM ε σ α} {f : α → EStateM ε σ β} (h : x s = .ok a s') :
    (x >>= f) s = f a s' := by
  simp only [bind, EStateM.bind, h]

theorem bind_error {s s' : σ} {e : ε} {x : EStateM ε σ α} {f : α → EStateM ε σ β} (h : x s = .error e s') :
    (x >>= f) s = .error e s' := by
  simp only [bind, EStateM.bind, h]

theorem bind_eq_ok {s s' : σ} {b : β} {x : EStateM ε σ α} {f : α → EStateM ε σ β} (h : (x >>= f) s = .ok b s') :
    ∃ a middle, x s = .ok a middle ∧ f a middle = .ok b s' := by
  cases hx : x s with
  | ok a middle => exact ⟨a, middle, rfl, (bind_ok hx).symm.trans h⟩
  | error e middle => rw [bind_error hx] at h; cases h

/-- The loop that reads `n` elements. -/
def many (reader : EStateM ε σ α) : (n : Nat) → EStateM ε σ (List.Vector α n)
  | 0 => return .nil
  | n + 1 => do
    let x ← reader
    let xs ← many reader n
    return x ::ᵥ xs

/-! ### What a computation ensures -/

/-- Wherever the computation succeeds, its result satisfies `P`. -/
def Ensures (x : EStateM ε σ α) (P : α → Prop) : Prop := ∀ s s' a, x s = .ok a s' → P a

theorem Ensures.pure {P : α → Prop} {a : α} (h : P a) : Ensures (pure a : EStateM ε σ α) P := by
  rintro s s' b ⟨⟩
  exact h

theorem Ensures.bind {P : β → Prop} {x : EStateM ε σ α} {f : α → EStateM ε σ β} {Q : α → Prop} (hx : Ensures x Q)
    (hf : ∀ a, Q a → Ensures (f a) P) : Ensures (x >>= f) P := by
  intro s s' b h
  obtain ⟨a, middle, ha, hb⟩ := bind_eq_ok h
  exact hf a (hx s middle a ha) middle s' b hb

theorem Ensures.mono {P Q : α → Prop} {x : EStateM ε σ α} (h : Ensures x P) (hPQ : ∀ a, P a → Q a) : Ensures x Q :=
  fun s s' a hs => hPQ a (h s s' a hs)

theorem Ensures.true (x : EStateM ε σ α) : Ensures x fun _ => True := fun _ _ _ _ => trivial

theorem Ensures.throw (e : ε) (P : α → Prop) : Ensures (throw e : EStateM ε σ α) P := fun _ _ _ h => nomatch h

/-- A loop succeeds only if each of its rounds does. -/
theorem Ensures.forM {P : α → Prop} {f : α → EStateM ε σ Unit} (hf : ∀ a, Ensures (f a) fun _ => P a) :
    (l : List α) → Ensures (l.forM f) fun _ => ∀ a ∈ l, P a
  | [] => Ensures.pure (by simp)
  | a :: l => by
    refine Ensures.bind (hf a) fun _ ha => Ensures.mono (Ensures.forM hf l) fun _ hl => ?_
    simpa using ⟨ha, hl⟩

theorem Ensures.many {P : α → Prop} {reader : EStateM ε σ α} (h : Ensures reader P) :
    (n : Nat) → Ensures (many reader n) fun l => ∀ a ∈ l.val, P a
  | 0 => Ensures.pure fun _ ha => absurd ha List.not_mem_nil
  | n + 1 => by
    refine Ensures.bind h fun a ha => Ensures.bind (Ensures.many h n) fun l hl => Ensures.pure fun b hb => ?_
    rcases List.mem_cons.mp hb with rfl | hb
    · exact ha
    · exact hl b hb

/-! ### Writers -/

/-- The writer appends `code`, whatever has been written before. -/
def Writes (writer : EStateM ε (List σ) Unit) (code : List σ) : Prop := ∀ s, writer s = .ok () (s ++ code)

theorem Writes.bind {writer writer' : EStateM ε (List σ) Unit} {code code' : List σ} (h : Writes writer code)
    (h' : Writes writer' code') : Writes (writer >>= fun _ => writer') (code ++ code') := by
  intro s
  rw [bind_ok (h s), h' (s ++ code), List.append_assoc]

theorem Writes.forM {f : α → EStateM ε (List σ) Unit} {code : α → List σ} :
    {l : List α} → (∀ a ∈ l, Writes (f a) (code a)) → Writes (l.forM f) (l.flatMap code)
  | [], _ => fun s => by rw [List.flatMap_nil, List.append_nil]; rfl
  | a :: l, h => by
    rw [List.flatMap_cons]
    exact (h a List.mem_cons_self).bind (Writes.forM fun b hb => h b (List.mem_cons_of_mem a hb))

/-! ### Readers -/

/-- The reader gets `a` from `code`, whatever stands behind it, and fails with `e` when `code` ends too early. -/
structure Reads (e : ε) (reader : EStateM ε (List σ) α) (code : List σ) (a : α) : Prop where
  whole : ∀ rest, reader (code ++ rest) = .ok a rest
  cut : ∀ {front back}, code = front ++ back → back ≠ [] → ∃ rest, reader front = .error e rest

namespace Reads

variable {e : ε} {reader : EStateM ε (List σ) α} {next : α → EStateM ε (List σ) β} {code code' : List σ} {a : α} {b : β}

theorem pure (a : α) : Reads e (pure a : EStateM ε (List σ) α) [] a where
  whole _ := rfl
  cut h hback := absurd (List.append_eq_nil_iff.mp h.symm).2 hback

/-- A code that ends in its first part is refused by the first reader, one that ends in its second part by the next. -/
theorem bind (h : Reads e reader code a) (h' : Reads e (next a) code' b) : Reads e (reader >>= next) (code ++ code') b where
  whole rest := by rw [List.append_assoc, bind_ok (h.whole _), h'.whole]
  cut {front back} hcut hback := by
    rcases List.append_eq_append_iff.mp hcut with ⟨middle, rfl, hcode⟩ | ⟨middle, rfl, rfl⟩
    · rw [bind_ok (h.whole middle)]
      exact h'.cut hcode hback
    · by_cases hmiddle : middle = []
      · subst hmiddle
        have hfront := h.whole []
        simp only [List.append_nil] at hfront
        rw [bind_ok hfront]
        exact h'.cut (List.nil_append _).symm hback
      · obtain ⟨rest, hrest⟩ := h.cut rfl hmiddle
        exact ⟨rest, bind_error hrest⟩

/-- The last part of a code may be left to a pure function of what has been read. -/
theorem map {f : α → EStateM ε (List σ) β} (h : Reads e reader code a) (hf : f a = Pure.pure b) :
    Reads e (reader >>= f) code b := by
  have hbind : Reads e (reader >>= f) (code ++ []) b := h.bind (hf ▸ Reads.pure b)
  rwa [List.append_nil] at hbind

theorem many {code : α → List σ} : {l : List α} → {n : Nat} → (h : l.length = n) →
    (∀ a ∈ l, Reads e reader (code a) a) → Reads e (Codec.many reader n) (l.flatMap code) ⟨l, h⟩
  | [], 0, _, _ => pure _
  | a :: l, n + 1, h, hl => by
    rw [List.flatMap_cons]
    exact (hl a List.mem_cons_self).bind
      ((many (Nat.succ.inj h) fun b hb => hl b (List.mem_cons_of_mem a hb)).map rfl)

end Reads

end CapTaint.Codec
