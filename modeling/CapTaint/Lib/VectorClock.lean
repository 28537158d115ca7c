import Mathlib

/-! Vector clocks that are passed on. A step has an actor, which may hand its clock to others, and may be stamped with
    the clock of its actor. Actors count only when they have handed their clock on, so two stamps may be equal; a stamp
    that is below another one and differs from it belongs to an earlier step that the later one depends on. -/

/-! ### Lists that grow at the end -/

namespace CapTaint.Snoc

variable {α : Type} {l : List α} {x y : α} {i : ℕ}

theorem getElem?_snoc_of_some (h : l[i]? = some y) : (l ++ [x])[i]? = some y := by
  rw [List.getElem?_append_left (List.getElem?_eq_some_iff.mp h).1, h]

theorem getElem?_snoc_cases (h : (l ++ [x])[i]? = some y) : l[i]? = some y ∨ i = l.length ∧ y = x := by
  rcases Nat.lt_or_ge i l.length with hi | hi
  · exact .inl (by rwa [List.getElem?_append_left hi] at h)
  · rw [List.getElem?_append_right hi] at h
    obtain ⟨hlt, hx⟩ := List.getElem?_eq_some_iff.mp h
    rw [List.length_singleton] at hlt
    exact .inr ⟨by omega, by simpa using hx.symm⟩

end CapTaint.Snoc

namespace CapTaint.VectorClock
open Relation Snoc

variable {ι : Type}

structure Step (ι : Type) where
  actor : ι
  /-- Those that take over the clock of the actor. -/
  targets : List ι
  stamp : Option (ι → ℕ)

/-- The later step is by the actor of the earlier one, or by one of its targets. -/
def Precedes (history : List (Step ι)) (i j : ℕ) : Prop :=
  i < j ∧ ∃ a b, history[i]? = some a ∧ history[j]? = some b ∧ (b.actor = a.actor ∨ b.actor ∈ a.targets)

def Before (history : List (Step ι)) : ℕ → ℕ → Prop := TransGen (Precedes history)

/-- Every later step of `q` depends on step `i`. -/
def Known (history : List (Step ι)) (i : ℕ) (q : ι) : Prop :=
  ∃ k a, history[k]? = some a ∧ (i = k ∨ Before history i k) ∧ (q = a.actor ∨ q ∈ a.targets)

/-! ### Histories grow -/

variable {history : List (Step ι)} {s : Step ι}

theorem Before.snoc {i j : ℕ} (h : Before history i j) : Before (history ++ [s]) i j := by
  refine TransGen.mono (fun a b hab => ?_) i j h
  obtain ⟨hlt, x, y, hx, hy, hxy⟩ := hab
  exact ⟨hlt, x, y, getElem?_snoc_of_some hx, getElem?_snoc_of_some hy, hxy⟩

theorem Known.snoc {i : ℕ} {q : ι} (h : Known history i q) : Known (history ++ [s]) i q := by
  obtain ⟨k, a, ha, hik, hq⟩ := h
  exact ⟨k, a, getElem?_snoc_of_some ha, hik.imp id Before.snoc, hq⟩

theorem Known.before {i : ℕ} (h : Known history i s.actor) : Before (history ++ [s]) i history.length := by
  obtain ⟨k, a, ha, hik, hactor⟩ := h
  have hlast : Precedes (history ++ [s]) k history.length :=
    ⟨(List.getElem?_eq_some_iff.mp ha).1, a, s, getElem?_snoc_of_some ha, by simp, hactor⟩
  rcases hik with rfl | hik
  · exact .single hlast
  · exact hik.snoc.tail hlast

theorem known_own {i : ℕ} {a : Step ι} (h : history[i]? = some a) : Known history i a.actor :=
  ⟨i, a, h, .inl rfl, .inl rfl⟩

/-- What the actor knows, its targets know after the step. -/
theorem Known.handed {i : ℕ} {q : ι} (h : Known history i s.actor) (hq : q ∈ s.targets) : Known (history ++ [s]) i q :=
  ⟨history.length, s, by simp, .inr h.before, .inr hq⟩

/-! ### Clocks -/

/-- What a step may do to the clocks: `c q k` is what `q` knows of the count of `k`. The live ones are those that act
    again, and the present ones have begun. -/
structure Moves (present live live' : Set ι) (c c' : ι → ι → ℕ) (s : Step ι) : Prop where
  actor_live : s.actor ∈ live
  actor_present : s.actor ∈ present
  absent : ∀ q ∉ present, ∀ k, c q k = 0
  mono : ∀ q k, c q k ≤ c' q k
  actor_others : ∀ k ≠ s.actor, c' s.actor k = c s.actor k
  frame : ∀ q, q ≠ s.actor → q ∉ s.targets → c' q = c q
  target : ∀ q ∈ s.targets, q ≠ s.actor → ∀ k ≠ q, c' q k ≤ max (c q k) (c' s.actor k)
  /-- What the targets take over is below the count of an actor that goes on. -/
  counted : s.actor ∈ live' → s.targets ≠ [] →
    ∃ m < c' s.actor s.actor, ∀ q ∈ s.targets, q ≠ s.actor → c' q s.actor ≤ max (c q s.actor) m
  born : ∀ q ∈ live', q ∈ live ∨ c q q < c' q q
  stamp : ∀ V, s.stamp = some V → V = c' s.actor ∧ s.actor ∈ live'

/-- The clocks after a history. -/
structure Clocked (history : List (Step ι)) (present live : Set ι) (c : ι → ι → ℕ) : Prop where
  le_own : ∀ p q, c q p ≤ c p p
  lt_own : ∀ p ∈ live, ∀ q ∈ present, q ≠ p → c q p < c p p
  stamp_le : ∀ {i : ℕ} {a : Step ι} {V : ι → ℕ}, history[i]? = some a → a.stamp = some V → ∀ k, V k ≤ c a.actor k
  known : ∀ {i : ℕ} {a : Step ι} {V : ι → ℕ}, history[i]? = some a → a.stamp = some V →
    ∀ q ∈ present, V a.actor ≤ c q a.actor → Known history i q
  ordered : ∀ {i j : ℕ} {a b : Step ι} {V W : ι → ℕ}, history[i]? = some a → history[j]? = some b →
    a.stamp = some V → b.stamp = some W → (∀ k, V k ≤ W k) → V ≠ W → Before history i j

section
variable [DecidableEq ι] {present present' live live' : Set ι} {c c' : ι → ι → ℕ}

/-- What anyone else knows of `p` after the step, it or the actor knew before, unless `p` is the actor. -/
theorem Moves.others_le (hs : Moves present live live' c c' s) {p q : ι} (hqp : q ≠ p) (hp : p ≠ s.actor) :
    c' q p ≤ max (c q p) (c s.actor p) := by
  by_cases hq : q = s.actor
  · rw [hq, hs.actor_others p hp]
    exact le_max_right _ _
  by_cases htarget : q ∈ s.targets
  · have hle := hs.target q htarget hq p (Ne.symm hqp)
    rwa [hs.actor_others p hp] at hle
  · rw [hs.frame q hq htarget]
    exact le_max_left _ _

theorem Clocked.le_own_step (h : Clocked history present live c) (hs : Moves present live live' c c' s) (p q : ι) :
    c' q p ≤ c' p p := by
  by_cases hqp : q = p
  · rw [hqp]
  by_cases hp : p = s.actor
  · subst hp
    by_cases htarget : q ∈ s.targets
    · exact (hs.target q htarget hqp s.actor (Ne.symm hqp)).trans
        (max_le ((h.le_own s.actor q).trans (hs.mono _ _)) le_rfl)
    · rw [hs.frame q hqp htarget]
      exact (h.le_own s.actor q).trans (hs.mono _ _)
  · exact (hs.others_le hqp hp).trans ((max_le (h.le_own p q) (h.le_own p s.actor)).trans (hs.mono p p))

theorem Clocked.lt_own_step (h : Clocked history present live c) (hs : Moves present live live' c c' s)
    (hpresent : ∀ q ∈ present', q ∈ present ∨ q ∈ s.targets) {p q : ι} (hp : p ∈ live') (hq : q ∈ present') (hqp : q ≠ p) :
    c' q p < c' p p := by
  by_cases hpa : p = s.actor
  · subst hpa
    have hold : q ∈ present → c q s.actor < c' s.actor s.actor := fun hthere =>
      (h.lt_own s.actor hs.actor_live q hthere hqp).trans_le (hs.mono _ _)
    by_cases htarget : q ∈ s.targets
    · obtain ⟨m, hm, hle⟩ := hs.counted hp (List.ne_nil_of_mem htarget)
      refine (hle q htarget hqp).trans_lt (max_lt ?_ hm)
      by_cases hthere : q ∈ present
      · exact hold hthere
      · rw [hs.absent q hthere]
        exact (Nat.zero_le m).trans_lt hm
    · rw [hs.frame q hqp htarget]
      exact hold ((hpresent q hq).resolve_right htarget)
  refine (hs.others_le hqp hpa).trans_lt ?_
  rcases hs.born p hp with hlive | hcount
  · have hactor : c s.actor p < c' p p :=
      (h.lt_own p hlive s.actor hs.actor_present (Ne.symm hpa)).trans_le (hs.mono p p)
    refine max_lt ?_ hactor
    by_cases hthere : q ∈ present
    · exact (h.lt_own p hlive q hthere hqp).trans_le (hs.mono p p)
    · rw [hs.absent q hthere]
      exact (Nat.zero_le _).trans_lt hactor
  · exact (max_le (h.le_own p q) (h.le_own p s.actor)).trans_lt hcount

/-- A stamp below the clock of `q` is one that `q` knows, also after the step. -/
theorem Clocked.known_step (h : Clocked history present live c) (hs : Moves present live live' c c' s)
    (hpresent : ∀ q ∈ present', q ∈ present ∨ q ∈ s.targets) {i : ℕ} {a : Step ι} {V : ι → ℕ}
    (ha : history[i]? = some a) (hV : a.stamp = some V) {q : ι} (hq : q ∈ present') (hle : V a.actor ≤ c' q a.actor) :
    Known (history ++ [s]) i q := by
  by_cases hown : q = a.actor
  · exact hown ▸ (known_own ha).snoc
  by_cases hqa : q = s.actor
  · rw [hqa, hs.actor_others a.actor (fun heq => hown (hqa.trans heq.symm))] at hle
    exact hqa ▸ (h.known ha hV s.actor hs.actor_present hle).snoc
  by_cases htarget : q ∈ s.targets
  · -- the count came from the actor, or `q` had it already
    have hactor : V a.actor ≤ c' s.actor a.actor → Known (history ++ [s]) i q := by
      intro hle'
      refine Known.handed ?_ htarget
      by_cases haa : a.actor = s.actor
      · exact haa ▸ known_own ha
      · rw [hs.actor_others a.actor haa] at hle'
        exact h.known ha hV s.actor hs.actor_present hle'
    rcases le_max_iff.mp (hle.trans (hs.target q htarget hqa a.actor (Ne.symm hown))) with hold | hold
    · by_cases hthere : q ∈ present
      · exact (h.known ha hV q hthere hold).snoc
      · rw [hs.absent q hthere] at hold
        exact hactor (hold.trans (Nat.zero_le _))
    · exact hactor hold
  · rw [hs.frame q hqa htarget] at hle
    exact (h.known ha hV q ((hpresent q hq).resolve_right htarget) hle).snoc

theorem Clocked.step (h : Clocked history present live c) (hs : Moves present live live' c c' s)
    (hpresent : ∀ q ∈ present', q ∈ present ∨ q ∈ s.targets) (hmono : ∀ q ∈ present, q ∈ present')
    (hactors : ∀ a ∈ history, a.actor ∈ present) : Clocked (history ++ [s]) present' live' c' := by
  refine ⟨h.le_own_step hs, fun p hp q hq hqp => h.lt_own_step hs hpresent hp hq hqp, ?_, ?_, ?_⟩
  · intro i a V ha hV k
    rcases getElem?_snoc_cases ha with ha | ⟨rfl, rfl⟩
    · exact (h.stamp_le ha hV k).trans (hs.mono a.actor k)
    · rw [(hs.stamp V hV).1]
  · intro i a V ha hV q hq hle
    rcases getElem?_snoc_cases ha with ha | ⟨rfl, rfl⟩
    · exact h.known_step hs hpresent ha hV hq hle
    · -- no one else has the count of a stamp that is new
      obtain ⟨rfl, hlive⟩ := hs.stamp V hV
      by_cases hqa : q = a.actor
      · exact ⟨history.length, a, by simp, .inl rfl, .inl hqa⟩
      · exact absurd hle (Nat.not_le.mpr (h.lt_own_step hs hpresent hlive hq hqa))
  · intro i j a b V W ha hb hV hW hle hne
    rcases getElem?_snoc_cases ha with hold | ⟨rfl, rfl⟩
    · rcases getElem?_snoc_cases hb with hb | ⟨rfl, rfl⟩
      · exact (h.ordered hold hb hV hW hle hne).snoc
      · -- the later step is the new one
        obtain ⟨rfl, _⟩ := hs.stamp W hW
        refine Known.before ?_
        by_cases hown : b.actor = a.actor
        · exact hown ▸ known_own hold
        · have hcount := hle a.actor
          rw [hs.actor_others a.actor (Ne.symm hown)] at hcount
          exact h.known hold hV b.actor hs.actor_present hcount
    · -- the new stamp is not below an earlier one
      obtain ⟨rfl, hlive⟩ := hs.stamp V hV
      rcases getElem?_snoc_cases hb with hb | ⟨rfl, rfl⟩
      · exfalso
        have hbelow : ∀ k, W k ≤ c' b.actor k := fun k => (h.stamp_le hb hW k).trans (hs.mono b.actor k)
        by_cases hown : b.actor = a.actor
        · exact hne (funext fun k => le_antisymm (hle k) (hown ▸ hbelow k))
        · have hthere := hmono _ (hactors b (List.mem_of_getElem? hb))
          exact absurd ((hle a.actor).trans (hbelow a.actor))
            (Nat.not_le.mpr (h.lt_own_step hs hpresent hlive hthere hown))
      · exact absurd (Option.some.inj (hV.symm.trans hW)) hne

end
end CapTaint.VectorClock
