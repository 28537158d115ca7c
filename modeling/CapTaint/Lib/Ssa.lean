import Mathlib.Data.List.Forall2
import Mathlib.Logic.Function.Basic

/-! # Control flow graphs with PHI nodes

A block has PHI nodes, other instructions and a terminator. The blocks are numbers. What the other instructions and the
terminators of the kind `other` do is left open: control goes from the latter to any of their successors. -/

namespace CapTaint.Ssa

/-- The value for each edge into the block. -/
structure PHINode (V : Type) where
  incoming : List (V × Nat)
  deriving DecidableEq

/-- The condition of a branch: a value of type `i1`, or a comparison that the block ends with. -/
inductive Condition (V K : Type)
  | value (v : V)
  | equal (v : V) (c : K)

inductive Terminator (V K : Type)
  | br (dest : Nat)
  | condBr (condition : Condition V K) (ifTrue ifFalse : Nat)
  | switch (condition : V) (defaultDest : Nat) (cases : List (K × Nat))
  | other (successors : List Nat)

structure BasicBlock (V K I : Type) where
  phis : List (PHINode V)
  instructions : List I
  terminator : Terminator V K

/-- The blocks in their order. The numbers from `next` on are not in use. -/
structure Function (V K I : Type) where
  blocks : List Nat
  body : Nat → Option (BasicBlock V K I)
  next : Nat

variable {V K I : Type}

/-- What the values are when a terminator is executed. -/
structure Env (V K : Type) where
  value : V → K
  holds : V → Bool

namespace Terminator

/-- The edges out of the block. -/
def successors : Terminator V K → List Nat
  | br dest => [dest]
  | condBr _ ifTrue ifFalse => [ifTrue, ifFalse]
  | switch _ defaultDest cases => defaultDest :: cases.map (·.2)
  | other successors => successors

variable [DecidableEq K]

/-- The successor that a switch selects. -/
def select (cases : List (K × Nat)) (defaultDest : Nat) (c : K) : Nat :=
  ((cases.find? (·.1 = c)).map (·.2)).getD defaultDest

/-- Control goes to the block. -/
def Goes (ρ : Env V K) (dest : Nat) : Terminator V K → Prop
  | br d => dest = d
  | condBr (.value v) ifTrue ifFalse => dest = if ρ.holds v then ifTrue else ifFalse
  | condBr (.equal v c) ifTrue ifFalse => dest = if ρ.value v = c then ifTrue else ifFalse
  | switch v defaultDest cases => dest = select cases defaultDest (ρ.value v)
  | other successors => dest ∈ successors

theorem select_cons (case : K × Nat) (cases : List (K × Nat)) (defaultDest : Nat) (c : K) :
    select (case :: cases) defaultDest c = if c = case.1 then case.2 else select cases defaultDest c := by
  by_cases h : case.1 = c
  · simp [select, h]
  · simp [select, h, Ne.symm h]

theorem select_mem (cases : List (K × Nat)) (defaultDest : Nat) (c : K) :
    select cases defaultDest c ∈ defaultDest :: cases.map (·.2) := by
  induction cases with
  | nil => exact List.mem_singleton_self _
  | cons case cases ih =>
    rw [select_cons]
    split
    · exact List.mem_cons_of_mem _ List.mem_cons_self
    · rcases List.mem_cons.mp ih with h | h
      · rw [h]
        exact List.mem_cons_self
      · exact List.mem_cons_of_mem _ (List.mem_cons_of_mem _ h)

theorem Goes.mem_successors {ρ : Env V K} {dest : Nat} {t : Terminator V K} (h : t.Goes ρ dest) : dest ∈ t.successors := by
  cases t with
  | br d => exact List.mem_singleton.mpr h
  | condBr condition ifTrue ifFalse =>
    cases condition with
    | value v =>
      rw [Goes] at h
      rw [h]
      split <;> simp [successors]
    | equal v c =>
      rw [Goes] at h
      rw [h]
      split <;> simp [successors]
  | switch v defaultDest cases =>
    rw [Goes] at h
    exact h ▸ select_mem cases defaultDest (ρ.value v)
  | other successors => exact h

end Terminator

/-! ### PHI nodes -/

namespace PHINode

/-- The number of entries for a predecessor. -/
def entries (phi : PHINode V) (p : Nat) : Nat := phi.incoming.countP (·.2 = p)

/-- The value that the node has when control comes from `p`. -/
def valueFor (phi : PHINode V) (p : Nat) : Option V := (phi.incoming.find? (·.2 = p)).map (·.1)

/-- Entries for one predecessor have one value. -/
def Agree (phi : PHINode V) : Prop := ∀ x ∈ phi.incoming, ∀ y ∈ phi.incoming, x.2 = y.2 → x.1 = y.1

variable {phi : PHINode V} {p : Nat} {v : V}

theorem valueFor_eq (h : phi.Agree) (hv : (v, p) ∈ phi.incoming) : phi.valueFor p = some v := by
  obtain ⟨entry, hentry⟩ : ∃ entry, phi.incoming.find? (·.2 = p) = some entry :=
    Option.isSome_iff_exists.mp (List.find?_isSome.mpr ⟨(v, p), hv, decide_eq_true rfl⟩)
  have hp := List.find?_some hentry
  rw [valueFor, hentry, Option.map_some]
  exact congrArg some (h entry (List.mem_of_find?_eq_some hentry) (v, p) hv (of_decide_eq_true hp))

theorem exists_entry (h : 0 < phi.entries p) : ∃ v, (v, p) ∈ phi.incoming := by
  obtain ⟨⟨v, q⟩, hmem, hq⟩ := List.countP_pos_iff.mp h
  obtain rfl := of_decide_eq_true hq
  exact ⟨v, hmem⟩

end PHINode

/-! ### Functions -/

namespace Function

/-- The edges out of a block. -/
def succ (f : Function V K I) (p : Nat) : List Nat := (f.body p).elim [] fun bb => bb.terminator.successors

theorem succ_eq {f : Function V K I} {p : Nat} {bb : BasicBlock V K I} (h : f.body p = some bb) :
    f.succ p = bb.terminator.successors := by
  rw [succ, h, Option.elim_some]

theorem succ_none {f : Function V K I} {p : Nat} (h : f.body p = none) : f.succ p = [] := by
  rw [succ, h, Option.elim_none]

/-- Each PHI node has an entry for each edge into its block, and one value for each predecessor. -/
structure WellFormed (f : Function V K I) : Prop where
  blocks : ∀ b, b ∈ f.blocks ↔ (f.body b).isSome = true
  fresh : ∀ b, (f.body b).isSome = true → b < f.next
  targets : ∀ p, ∀ b ∈ f.succ p, (f.body b).isSome = true
  entries : ∀ b bb, f.body b = some bb → ∀ phi ∈ bb.phis, ∀ p, phi.entries p = (f.succ p).count b
  agree : ∀ b bb, f.body b = some bb → ∀ phi ∈ bb.phis, phi.Agree

/-- The values of the PHI nodes of `b` when control comes from `p`. -/
def phiValues (f : Function V K I) (b p : Nat) : Option (List (Option V)) :=
  (f.body b).map fun bb => bb.phis.map (·.valueFor p)

/-- A block that only passes control on. -/
def Plain (f : Function V K I) (b : Nat) : Prop := ∃ bb, f.body b = some bb ∧ bb.phis = [] ∧ bb.instructions = []

variable [DecidableEq K]

def Goes (f : Function V K I) (ρ : Env V K) (b dest : Nat) : Prop := ∃ bb, f.body b = some bb ∧ bb.terminator.Goes ρ dest

/-- From the end of `b` control arrives at `dest` in `g`, coming from `p`, through blocks that `f` does not have. -/
inductive Arrives (f g : Function V K I) (ρ : Env V K) (dest : Nat) : Nat → Nat → Prop
  | direct {b : Nat} (h : g.Goes ρ b dest) : Arrives f g ρ dest b b
  | through {b n p : Nat} (h : g.Goes ρ b n) (hnew : f.body n = none) (hplain : g.Plain n) (hrest : Arrives f g ρ dest n p) :
      Arrives f g ρ dest b p

/-- `g` has the blocks of `f`, and control goes from block to block as in `f`, where the PHI nodes get the same values. -/
structure Lowers (f g : Function V K I) : Prop where
  instructions : ∀ b bb, f.body b = some bb → ∃ bb', g.body b = some bb' ∧ bb'.instructions = bb.instructions
  goes : ∀ ρ b dest, f.Goes ρ b dest → ∃ p, Arrives f g ρ dest b p ∧ g.phiValues dest p = f.phiValues dest b

variable {f g h : Function V K I} {ρ : Env V K} {b c dest n p q : Nat}

theorem Arrives.append (hb : Arrives f h ρ n b p) (hnew : f.body n = none) (hplain : h.Plain n)
    (hn : Arrives f h ρ dest n q) : Arrives f h ρ dest b q := by
  induction hb with
  | direct hgo => exact .through hgo hnew hplain hn
  | through hgo hnew' hplain' _ ih => exact .through hgo hnew' hplain' ih

theorem Arrives.of_new (hnew : ∀ n, g.body n = none → f.body n = none) (ha : Arrives g h ρ dest b p) :
    Arrives f h ρ dest b p := by
  induction ha with
  | direct hgo => exact .direct hgo
  | through hgo hn hplain _ ih => exact .through hgo (hnew _ hn) hplain ih

theorem Lowers.refl (f : Function V K I) : Lowers f f :=
  ⟨fun _ bb hbb => ⟨bb, hbb, rfl⟩, fun _ b _ hgo => ⟨b, .direct hgo, rfl⟩⟩

/-- A plain block stays plain: it has no PHI nodes for which a value could be given. -/
theorem Lowers.plain (hgh : Lowers g h) (hplain : g.Plain n) (hvalues : h.phiValues n p = g.phiValues n b) : h.Plain n := by
  obtain ⟨bb, hbb, hphis, hinstructions⟩ := hplain
  obtain ⟨bb', hbb', hinstructions'⟩ := hgh.instructions n bb hbb
  refine ⟨bb', hbb', ?_, hinstructions'.trans hinstructions⟩
  rw [phiValues, phiValues, hbb, hbb', Option.map_some, Option.map_some, hphis] at hvalues
  exact List.map_eq_nil_iff.mp (Option.some.inj hvalues)

theorem Lowers.trans (hfg : Lowers f g) (hgh : Lowers g h) : Lowers f h where
  instructions b bb hbb := by
    obtain ⟨bb', hbb', hinstructions⟩ := hfg.instructions b bb hbb
    obtain ⟨bb'', hbb'', hinstructions'⟩ := hgh.instructions b bb' hbb'
    exact ⟨bb'', hbb'', hinstructions'.trans hinstructions⟩
  goes ρ b dest hgo := by
    have hnew : ∀ n, g.body n = none → f.body n = none := by
      intro n hn
      cases hbody : f.body n with
      | none => rfl
      | some bb =>
        obtain ⟨bb', hbb', -⟩ := hfg.instructions n bb hbody
        rw [hn] at hbb'
        cases hbb'
    obtain ⟨p, harrives, hvalues⟩ := hfg.goes ρ b dest hgo
    rw [← hvalues]
    clear hvalues hgo
    -- each step in `g` is a chain in `h`
    induction harrives with
    | direct hstep =>
      obtain ⟨q, hq, hqvalues⟩ := hgh.goes ρ _ dest hstep
      exact ⟨q, hq.of_new hnew, hqvalues⟩
    | through hstep hn hplain _ ih =>
      obtain ⟨q, hq, hqvalues⟩ := hgh.goes ρ _ _ hstep
      obtain ⟨r, hr, hrvalues⟩ := ih
      exact ⟨r, (hq.of_new hnew).append hn (hgh.plain hplain hqvalues) hr, hrvalues⟩

end Function

end CapTaint.Ssa
