import Mathlib

/-! # Distances by sweeps

Distances are numbers, with 0 for what cannot be reached. A loop sweeps over the nodes and lowers their distances in place
until a sweep changes nothing. -/

namespace CapTaint.Distance

variable {α κ σ ι : Type*} {a b d best val : Nat}

/-- What the distance costs: 0 stands for no way at all. -/
def cost (d : Nat) : ℕ∞ := if d = 0 then ⊤ else d

/-- The least number with the property, or 0 when there is none. -/
def IsDistance (P : Nat → Prop) (d : Nat) : Prop := if d = 0 then ∀ n, ¬P n else IsLeast {n | P n} d

/-- `if (val) if (best == 0 || val < best) best = val` -/
def better (best val : Nat) : Nat := if val ≠ 0 ∧ (best = 0 ∨ val < best) then val else best

/-- One way after another. -/
def plus (a b : Nat) : Nat := if a = 0 ∨ b = 0 then 0 else a + b

@[simp] theorem cost_zero : cost 0 = ⊤ := if_pos rfl

theorem cost_of_ne (hd : d ≠ 0) : cost d = d := if_neg hd

theorem cost_le_iff {n : Nat} : cost d ≤ n ↔ d ≠ 0 ∧ d ≤ n := by
  unfold cost
  split <;> simp_all

theorem cost_ne_top (hd : d ≠ 0) : cost d ≠ ⊤ := by
  rw [cost_of_ne hd]
  exact ENat.natCast_ne_top d

theorem cost_injective : Function.Injective cost := by
  intro a b h
  by_cases ha : a = 0 <;> by_cases hb : b = 0
  · rw [ha, hb]
  · rw [ha, cost_zero] at h
    exact absurd h.symm (cost_ne_top hb)
  · rw [hb, cost_zero] at h
    exact absurd h (cost_ne_top ha)
  · rw [cost_of_ne ha, cost_of_ne hb] at h
    exact_mod_cast h

theorem isDistance_iff {P : Nat → Prop} : IsDistance P d ↔ (d ≠ 0 → P d) ∧ ∀ n, P n → cost d ≤ n := by
  unfold IsDistance
  by_cases hd : d = 0
  · simp [hd]
  · rw [if_neg hd]
    refine and_congr ⟨fun h _ => h, fun h => h hd⟩ (forall₂_congr fun n _ => ?_)
    rw [cost_of_ne hd, Nat.cast_le]

theorem cost_better (best val : Nat) : cost (better best val) = min (cost best) (cost val) := by
  unfold better
  by_cases hval : val = 0
  · simp [hval]
  by_cases hbest : best = 0
  · simp [hval, hbest]
  rw [cost_of_ne hbest, cost_of_ne hval]
  split
  case isTrue h =>
    rw [cost_of_ne hval, min_eq_right]
    exact_mod_cast (h.2.resolve_left hbest).le
  case isFalse h =>
    have hle : best ≤ val := by
      by_contra hlt
      exact h ⟨hval, .inr (not_le.mp hlt)⟩
    rw [cost_of_ne hbest, min_eq_left]
    exact_mod_cast hle

theorem better_cases (best val : Nat) : better best val = best ∨ better best val = val ∧ val ≠ 0 := by
  unfold better
  split
  case isTrue h => exact .inr ⟨rfl, h.1⟩
  case isFalse => exact .inl rfl

theorem plus_eq_zero : plus a b = 0 ↔ a = 0 ∨ b = 0 := by
  unfold plus
  split <;> omega

theorem plus_of_ne (ha : a ≠ 0) (hb : b ≠ 0) : plus a b = a + b := if_neg (not_or.mpr ⟨ha, hb⟩)

theorem cost_plus_le {m n : Nat} (ha : cost a ≤ m) (hb : cost b ≤ n) : cost (plus a b) ≤ (m + n : Nat) := by
  obtain ⟨ha, hm⟩ := cost_le_iff.mp ha
  obtain ⟨hb, hn⟩ := cost_le_iff.mp hb
  rw [plus_of_ne ha hb, cost_le_iff]
  omega

/-! ### The best of several -/

/-- The loop over the ways, from the best one before it. -/
def bestOf (f : α → Nat) (best : Nat) (l : List α) : Nat := l.foldl (fun best x => better best (f x)) best

variable {f : α → Nat} {l : List α}

theorem cost_bestOf_le (f : α → Nat) (best : Nat) (l : List α) : cost (bestOf f best l) ≤ cost best := by
  induction l generalizing best with
  | nil => exact le_rfl
  | cons x l ih =>
    refine (ih (better best (f x))).trans ?_
    rw [cost_better]
    exact min_le_left _ _

theorem cost_bestOf_le_of_mem {x : α} (hx : x ∈ l) (best : Nat) : cost (bestOf f best l) ≤ cost (f x) := by
  induction l generalizing best with
  | nil => cases hx
  | cons y l ih =>
    rcases List.mem_cons.mp hx with rfl | hx
    · refine (cost_bestOf_le f (better best (f x)) l).trans ?_
      rw [cost_better]
      exact min_le_right _ _
    · exact ih hx (better best (f y))

theorem bestOf_cases (f : α → Nat) (best : Nat) (l : List α) :
    bestOf f best l = best ∨ ∃ x ∈ l, bestOf f best l = f x ∧ f x ≠ 0 := by
  induction l generalizing best with
  | nil => exact .inl rfl
  | cons x l ih =>
    rcases ih (better best (f x)) with hsame | ⟨y, hy, hbest⟩
    · rcases better_cases best (f x) with hkept | ⟨hnew, hne⟩
      · exact .inl (hsame.trans hkept)
      · exact .inr ⟨x, List.mem_cons_self, hsame.trans hnew, hne⟩
    · exact .inr ⟨y, List.mem_cons_of_mem x hy, hbest⟩

/-! ### The rank of an assignment -/

/-- The costs of the keys. They are well-founded, as there are finitely many keys. -/
def rank (keys : List ι) (d : ι → Nat) : {k // k ∈ keys} → ℕ∞ := fun k => cost (d k)

instance wellFoundedLT_costs (keys : List ι) : WellFoundedLT ({k // k ∈ keys} → ℕ∞) :=
  have : Finite {k // k ∈ keys} := (List.finite_toSet keys).to_subtype
  Function.wellFoundedLT

variable {keys : List ι} {d d' : ι → Nat}

theorem rank_le (hle : ∀ k, cost (d' k) ≤ cost (d k)) : rank keys d' ≤ rank keys d := fun k => hle k

theorem rank_lt (hle : ∀ k, cost (d' k) ≤ cost (d k)) {k : ι} (hk : k ∈ keys) (hne : d' k ≠ d k) :
    rank keys d' < rank keys d :=
  Pi.lt_def.mpr ⟨rank_le hle, ⟨k, hk⟩, (hle k).lt_of_ne fun h => hne (cost_injective h)⟩

/-! ### Bounds

A distance that is found is a cost of at most `M` on top of another one, so it is at most `M` for each key that is reached. -/

section
variable [DecidableEq ι] {M : Nat}

/-- The keys that have a distance. -/
def reached (keys : List ι) (d : ι → Nat) : Finset ι := keys.toFinset.filter fun k => d k ≠ 0

def Bounded (M : Nat) (keys : List ι) (d : ι → Nat) : Prop := ∀ k, d k ≤ M * (reached keys d).card

theorem card_reached_le : (reached keys d).card ≤ keys.length :=
  (Finset.card_filter_le _ _).trans (List.toFinset_card_le keys)

theorem Bounded.le (h : Bounded M keys d) (k : ι) : d k ≤ M * keys.length :=
  (h k).trans (Nat.mul_le_mul_left M card_reached_le)

/-- Distances of at most one, of the keys. -/
theorem Bounded.of_le_one (hM : 1 ≤ M) (hone : ∀ k, d k ≤ 1) (hkeys : ∀ k, d k ≠ 0 → k ∈ keys) : Bounded M keys d := by
  intro k
  by_cases hzero : d k = 0
  · rw [hzero]
    exact Nat.zero_le _
  · have hmem : k ∈ reached keys d := Finset.mem_filter.mpr ⟨List.mem_toFinset.mpr (hkeys k hzero), hzero⟩
    have hcard : 1 ≤ (reached keys d).card := Finset.card_pos.mpr ⟨k, hmem⟩
    exact (hone k).trans (Nat.mul_le_mul hM hcard)

theorem Bounded.update (h : Bounded M keys d) {k : ι} (hk : k ∈ keys) {val : Nat} (hcost : cost val ≤ cost (d k))
    (hval : val = d k ∨ ∃ a j, a ≤ M ∧ val = a + d j) : Bounded M keys (Function.update d k val) := by
  have hsub : reached keys d ⊆ reached keys (Function.update d k val) := by
    intro j hj
    obtain ⟨hmem, hne⟩ := Finset.mem_filter.mp hj
    refine Finset.mem_filter.mpr ⟨hmem, ?_⟩
    rw [Function.update_apply]
    split
    case isTrue hjk =>
      subst hjk
      rw [cost_of_ne hne] at hcost
      exact (cost_le_iff.mp hcost).1
    case isFalse => exact hne
  have hcard := Nat.mul_le_mul_left M (Finset.card_le_card hsub)
  intro j
  rw [Function.update_apply]
  split
  case isFalse => exact (h j).trans hcard
  case isTrue hjk =>
    by_cases hzero : d k = 0
    · rcases hval with rfl | ⟨a, i, ha, rfl⟩
      · exact (h k).trans hcard
      by_cases hnone : a + d i = 0
      · rw [hnone]
        exact Nat.zero_le _
      -- the key is reached for the first time
      have hnew : reached keys d ⊂ reached keys (Function.update d k (a + d i)) := by
        refine Finset.ssubset_iff_subset_ne.mpr ⟨hsub, fun heq => ?_⟩
        have hmem : k ∈ reached keys (Function.update d k (a + d i)) :=
          Finset.mem_filter.mpr ⟨List.mem_toFinset.mpr hk, by rwa [Function.update_self]⟩
        rw [← heq] at hmem
        exact (Finset.mem_filter.mp hmem).2 hzero
      have hlt := Nat.mul_le_mul_left M (Finset.card_lt_card hnew)
      rw [Nat.mul_succ] at hlt
      have := h i
      omega
    · rw [cost_of_ne hzero] at hcost
      exact ((cost_le_iff.mp hcost).2.trans (h k)).trans hcard

end

/-! ### Sweeps -/

section
variable (step : σ → κ → σ × Bool)

/-- The step at each node in turn, and whether one of the steps changed something. -/
def sweep (nodes : List κ) (s : σ × Bool) : σ × Bool :=
  nodes.foldl (fun s node => ((step s.1 node).1, s.2 || (step s.1 node).2)) s

/-- `do { changed = false; body } while (changed)`, at most `fuel` times. -/
def doWhile (nodes : List κ) : Nat → σ → Option σ
  | 0, _ => none
  | fuel + 1, s =>
    if (sweep step nodes (s, false)).2 then doWhile nodes fuel (sweep step nodes (s, false)).1
    else some (sweep step nodes (s, false)).1

def after (nodes : List κ) (s : σ) : σ := nodes.foldl (fun s node => (step s node).1) s

/-- `B` holds in each state on the way, however often the nodes are swept. -/
def Always (B : σ → Prop) (nodes : List κ) (s : σ) : Prop :=
  ∀ rounds done, done <+: (List.replicate rounds nodes).flatten → B (after step done s)

end

variable {step : σ → κ → σ × Bool} {nodes : List κ} {s : σ} {P B : σ → Prop} {changed : Bool}

@[simp] theorem sweep_fst (step : σ → κ → σ × Bool) (nodes : List κ) (s : σ × Bool) :
    (sweep step nodes s).1 = after step nodes s.1 := by
  induction nodes generalizing s with
  | nil => rfl
  | cons node nodes ih => exact ih _

theorem Always.start (h : Always step B nodes s) : B s := h 0 [] (List.nil_prefix)

theorem Always.within (h : Always step B nodes s) {done : List κ} (hdone : done <+: nodes) : B (after step done s) :=
  h 1 done (by simpa using hdone)

theorem Always.sweep (h : Always step B nodes s) : Always step B nodes (after step nodes s) := by
  intro rounds done hdone
  have hround := h (rounds + 1) (nodes ++ done) (by
    rw [List.replicate_succ, List.flatten_cons]
    exact (List.prefix_append_right_inj nodes).mpr hdone)
  rwa [after, List.foldl_append] at hround

theorem doWhile_unique {fuel fuel' : Nat} {s' s'' : σ} (h : doWhile step nodes fuel s = some s')
    (h' : doWhile step nodes fuel' s = some s'') : s' = s'' := by
  induction fuel generalizing s fuel' with
  | zero => cases h
  | succ fuel ih =>
    cases fuel' with
    | zero => cases h'
    | succ fuel' =>
      rw [doWhile] at h h'
      split at h
      case isTrue hend =>
        rw [if_pos hend] at h'
        exact ih h h'
      case isFalse hend =>
        rw [if_neg hend] at h'
        exact Option.some.inj (h.symm.trans h')

theorem after_append (l l' : List κ) (s : σ) : after step (l ++ l') s = after step l' (after step l s) :=
  List.foldl_append

theorem Always.cons (hfirst : ∀ done, done <+: nodes → B (after step done s)) (h : Always step B nodes (after step nodes s)) :
    Always step B nodes s := by
  intro rounds done hdone
  cases rounds with
  | zero => exact hfirst done ((List.prefix_nil.mp hdone) ▸ List.nil_prefix)
  | succ rounds =>
    rw [List.replicate_succ, List.flatten_cons] at hdone
    rcases List.prefix_or_prefix_of_prefix hdone (List.prefix_append nodes _) with hshort | ⟨rest, rfl⟩
    · exact hfirst done hshort
    · rw [after_append]
      exact h rounds rest ((List.prefix_append_right_inj nodes).mp hdone)

/-- A sweep that reports no change saw the same state at each node. -/
theorem unchanged_of_sweep (hsame : ∀ s, ∀ node ∈ nodes, (step s node).2 = false → (step s node).1 = s) {l : List κ}
    (hl : l ⊆ nodes) (hend : (Distance.sweep step l (s, changed)).2 = false) :
    changed = false ∧ ∀ node ∈ l, (step s node).2 = false := by
  induction l generalizing s changed with
  | nil => exact ⟨hend, fun _ hnode => nomatch hnode⟩
  | cons node l ih =>
    obtain ⟨hchanged, hall⟩ := ih (fun x hx => hl (List.mem_cons_of_mem node hx)) hend
    obtain ⟨hchanged, hnode⟩ := Bool.or_eq_false_iff.mp hchanged
    have hstep : (step s node).1 = s := hsame s node (hl List.mem_cons_self) hnode
    rw [hstep] at hall
    exact ⟨hchanged, List.forall_mem_cons.mpr ⟨hnode, hall⟩⟩

theorem after_of_unchanged (hsame : ∀ s, ∀ node ∈ nodes, (step s node).2 = false → (step s node).1 = s)
    (hstill : ∀ node ∈ nodes, (step s node).2 = false) {done : List κ} (hdone : done ⊆ nodes) : after step done s = s := by
  induction done with
  | nil => rfl
  | cons node done ih =>
    have hnode : node ∈ nodes := hdone List.mem_cons_self
    rw [after, List.foldl_cons, hsame s node hnode (hstill node hnode)]
    exact ih fun x hx => hdone (List.mem_cons_of_mem node hx)

/-- Where the loop ends, the states of its rounds are all that there are. -/
theorem Always.of_doWhile (hsame : ∀ s, ∀ node ∈ nodes, (step s node).2 = false → (step s node).1 = s) {fuel : Nat} {s' : σ}
    (hloop : doWhile step nodes fuel s = some s')
    (hB : ∀ done, done <+: (List.replicate fuel nodes).flatten → B (after step done s)) : Always step B nodes s := by
  induction fuel generalizing s with
  | zero => cases hloop
  | succ fuel ih =>
    rw [List.replicate_succ, List.flatten_cons] at hB
    have hfirst : ∀ done, done <+: nodes → B (after step done s) := fun done hdone =>
      hB done (hdone.trans (List.prefix_append nodes _))
    rw [doWhile] at hloop
    split at hloop
    case isTrue =>
      rw [sweep_fst] at hloop
      refine .cons hfirst (ih hloop fun done hdone => ?_)
      rw [← after_append]
      exact hB _ ((List.prefix_append_right_inj nodes).mpr hdone)
    case isFalse hend =>
      obtain ⟨-, hstill⟩ := unchanged_of_sweep hsame (List.Subset.refl nodes) (Bool.eq_false_iff.mpr hend)
      intro rounds done hdone
      rw [after_of_unchanged hsame hstill fun node hnode => ?_]
      · exact hfirst [] List.nil_prefix
      · obtain ⟨round, hround, hin⟩ := List.mem_flatten.mp (hdone.subset hnode)
        rwa [List.eq_of_mem_replicate hround] at hin

/-- Each step keeps `P`, and lowers the rank when it changes the state. -/
structure Improves [Preorder α] (step : σ → κ → σ × Bool) (nodes : List κ) (P B : σ → Prop) (rank : σ → α) : Prop where
  keeps : ∀ s, P s → B s → ∀ node ∈ nodes, B (step s node).1 → P (step s node).1
  unchanged : ∀ s, ∀ node ∈ nodes, (step s node).2 = false → (step s node).1 = s
  lowers : ∀ s, P s → B s → ∀ node ∈ nodes, B (step s node).1 → (step s node).2 = true → rank (step s node).1 < rank s

section
variable [Preorder α] {rank : σ → α}

theorem Improves.after (h : Improves step nodes P B rank) {l : List κ} (hl : l ⊆ nodes) (hs : P s)
    (hB : ∀ done, done <+: l → B (after step done s)) : P (after step l s) := by
  induction l generalizing s with
  | nil => exact hs
  | cons node l ih =>
    have hnext : B (step s node).1 := hB [node] ⟨l, rfl⟩
    refine ih (fun x hx => hl (List.mem_cons_of_mem node hx)) ?_ fun done hdone => ?_
    · exact h.keeps s hs (hB [] List.nil_prefix) node (hl List.mem_cons_self) hnext
    · exact hB (node :: done) (List.cons_prefix_cons.mpr ⟨rfl, hdone⟩)

theorem Improves.sweep_changed (h : Improves step nodes P B rank) {l : List κ} (hl : l ⊆ nodes) (hs : P s)
    (hB : ∀ done, done <+: l → B (Distance.after step done s)) :
    rank (Distance.after step l s) ≤ rank s ∧
      ((sweep step l (s, changed)).2 = true → changed = true ∨ rank (Distance.after step l s) < rank s) := by
  induction l generalizing s changed with
  | nil => exact ⟨le_rfl, .inl⟩
  | cons node l ih =>
    have hmem : node ∈ nodes := hl List.mem_cons_self
    have hnow : B s := hB [] List.nil_prefix
    have hnext : B (step s node).1 := hB [node] ⟨l, rfl⟩
    obtain ⟨hle, hlt⟩ := @ih (step s node).1 (changed || (step s node).2) (fun x hx => hl (List.mem_cons_of_mem node hx))
      (h.keeps s hs hnow node hmem hnext) fun done hdone => hB (node :: done) (List.cons_prefix_cons.mpr ⟨rfl, hdone⟩)
    have hstep : rank (step s node).1 ≤ rank s := by
      cases hnode : (step s node).2 with
      | true => exact (h.lowers s hs hnow node hmem hnext hnode).le
      | false => rw [h.unchanged s node hmem hnode]
    refine ⟨hle.trans hstep, fun hend => ?_⟩
    rcases hlt hend with hchanged | hlt
    · rcases (Bool.or_eq_true _ _).mp hchanged with hchanged | hnode
      · exact .inl hchanged
      · exact .inr (hle.trans_lt (h.lowers s hs hnow node hmem hnext hnode))
    · exact .inr (hlt.trans_le hstep)

/-- The loop ends, in a state that no step changes. -/
theorem Improves.exists_doWhile [WellFoundedLT α] (h : Improves step nodes P B rank) (hs : P s) (hB : Always step B nodes s) :
    ∃ fuel s', doWhile step nodes fuel s = some s' ∧ P s' ∧ B s' ∧ ∀ node ∈ nodes, (step s' node).2 = false := by
  induction hr : rank s using WellFoundedLT.induction generalizing s with
  | ind r ih =>
    subst hr
    have hafter : P (Distance.after step nodes s) := h.after (List.Subset.refl nodes) hs fun _ => hB.within
    cases hend : (sweep step nodes (s, false)).2 with
    | true =>
      rcases (h.sweep_changed (List.Subset.refl nodes) hs fun _ => hB.within).2 hend with hfalse | hlt
      · cases hfalse
      · obtain ⟨fuel, s', hloop, hrest⟩ := ih _ hlt hafter hB.sweep rfl
        refine ⟨fuel + 1, s', ?_, hrest⟩
        rw [doWhile, if_pos hend, sweep_fst, hloop]
    | false =>
      obtain ⟨-, hall⟩ := unchanged_of_sweep h.unchanged (List.Subset.refl nodes) hend
      refine ⟨1, s, ?_, hs, hB.start, hall⟩
      rw [doWhile, hend, if_neg Bool.false_ne_true, sweep_fst, after_of_unchanged h.unchanged hall (List.Subset.refl nodes)]

end
end CapTaint.Distance
