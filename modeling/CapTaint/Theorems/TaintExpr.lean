import Mathlib
import CapTaint.TaintExpr

/-! # Resolved taint

The traversal is a loop over the leaves that it reaches. Each distinct leaf is collected once, but an untainted leaf
hides the taint of the equal ones behind it. -/

namespace CapTaint

namespace TaintExpr

variable {value leaf : TaintExpr} {ls related related' : List TaintExpr} {s : TaintResult}

/-- No leaf of the list is equal to it. -/
def Fresh (leaf : TaintExpr) (related : List TaintExpr) : Prop := leaf.toExpr ∉ related.map toExpr

/-- What is added to a list for the leaves `ls`: each distinct symbolic leaf once, when the list has it not yet. -/
structure Collects (ls before collected : List TaintExpr) : Prop where
  nodup : (collected.map toExpr).Nodup
  fresh : ∀ leaf ∈ collected, leaf ∈ ls ∧ leaf.isConstant = false ∧ leaf.Fresh before
  complete : ∀ leaf ∈ ls, leaf.isConstant = false → ¬leaf.Fresh (before ++ collected)

/-- The taint of a value is the taint of its leaves, and each distinct symbolic leaf is collected once. -/
structure Resolves (value : TaintExpr) (s s' : TaintResult) : Prop where
  isTaint : s'.isTaint = true ↔ s.isTaint = true ∨ ∃ leaf ∈ value.leaves, leaf.isTaint = true
  collected : ∃ collected, s'.relatedSymbolicExpr = s.relatedSymbolicExpr ++ collected ∧
    Collects value.leaves s.relatedSymbolicExpr collected

/-- The leaves that the traversal reaches: of two equal kids, those of the first. -/
def reached : TaintExpr → List TaintExpr
  | constant isTaint width value => [constant isTaint width value]
  | read isTaint updates index => [read isTaint updates index]
  | concat isTaint left right => [concat isTaint left right]
  | notOptimized src => src.reached
  | select cond trueExpr falseExpr => cond.reached ++ trueExpr.reached ++ falseExpr.reached
  | extract expr _ _ => expr.reached
  | zext src _ => src.reached
  | sext src _ => src.reached
  | not expr => expr.reached
  | arith _ left right => if left.equal right then left.reached else left.reached ++ right.reached
  | cmp _ left right => if left.equal right then left.reached else left.reached ++ right.reached

/-- A tainted leaf shows its taint when it is a constant or the first of its equals. -/
def Exposed (ls related : List TaintExpr) : Prop :=
  ∃ before leaf after, ls = before ++ leaf :: after ∧ leaf.isTaint = true ∧
    (leaf.isConstant = true ∨ leaf.Fresh (related ++ before))

/-! ### The loop over the leaves -/

/-- The visit of a leaf. -/
def resolveLeaf (s : TaintResult) (leaf : TaintExpr) : TaintResult :=
  if leaf.isConstant then { s with isTaint := s.isTaint || leaf.isTaint } else leaf.resolveSymbolic s

theorem resolveTaintExpr_eq (value : TaintExpr) (s : TaintResult) :
    value.resolveTaintExpr s = value.reached.foldl resolveLeaf s := by
  induction value generalizing s with
  | constant | read | concat => rfl
  | notOptimized _ ih | extract _ _ _ ih | zext _ _ ih | sext _ _ ih | not _ ih => exact ih s
  | select cond trueExpr falseExpr ihc iht ihf =>
    rw [resolveTaintExpr, reached, List.foldl_append, List.foldl_append, ← ihc, ← iht, ← ihf]
  | arith _ left right ihl ihr | cmp _ left right ihl ihr =>
    rw [resolveTaintExpr, reached]
    split
    · exact ihl s
    · rw [List.foldl_append, ← ihl, ← ihr]

theorem any_equal : related.any (·.equal leaf) = true ↔ ¬leaf.Fresh related := by
  rw [Fresh, not_not, List.mem_map]
  simp only [List.any_eq_true, equal, decide_eq_true_eq]

theorem resolveLeaf_constant (h : leaf.isConstant = true) :
    resolveLeaf s leaf = { s with isTaint := s.isTaint || leaf.isTaint } := if_pos h

theorem resolveLeaf_known (h : leaf.isConstant = false) (hknown : ¬leaf.Fresh s.relatedSymbolicExpr) : resolveLeaf s leaf = s := by
  rw [resolveLeaf, if_neg (by rw [h]; exact Bool.false_ne_true), resolveSymbolic, if_pos (any_equal.mpr hknown)]

theorem resolveLeaf_fresh (h : leaf.isConstant = false) (hfresh : leaf.Fresh s.relatedSymbolicExpr) :
    resolveLeaf s leaf = { relatedSymbolicExpr := s.relatedSymbolicExpr ++ [leaf], isTaint := s.isTaint || leaf.isTaint } := by
  rw [resolveLeaf, if_neg (by rw [h]; exact Bool.false_ne_true), resolveSymbolic,
    if_neg (mt any_equal.mp (not_not.mpr hfresh))]

/-! ### Collected leaves -/

theorem mem_toExpr : leaf.toExpr ∈ related.map toExpr ↔ ¬leaf.Fresh related := not_not.symm

theorem foldl_collects (ls : List TaintExpr) (s : TaintResult) :
    ∃ collected, (ls.foldl resolveLeaf s).relatedSymbolicExpr = s.relatedSymbolicExpr ++ collected ∧
      Collects ls s.relatedSymbolicExpr collected := by
  induction ls generalizing s with
  | nil => exact ⟨[], (List.append_nil _).symm, ⟨.nil, by simp, by simp⟩⟩
  | cons leaf ls ih =>
    rw [List.foldl_cons]
    obtain ⟨collected, heq, hnodup, hfresh, hcomplete⟩ := ih (resolveLeaf s leaf)
    rcases Bool.eq_false_or_eq_true leaf.isConstant with hconst | hconst
    · rw [resolveLeaf_constant hconst] at heq hfresh hcomplete ⊢
      refine ⟨collected, heq, hnodup, fun l hl => ⟨List.mem_cons_of_mem _ (hfresh l hl).1, (hfresh l hl).2⟩, ?_⟩
      rintro l hl hsymbolic
      rcases List.mem_cons.mp hl with rfl | hl
      · rw [hconst] at hsymbolic
        cases hsymbolic
      · exact hcomplete l hl hsymbolic
    by_cases hknown : leaf.Fresh s.relatedSymbolicExpr
    · rw [resolveLeaf_fresh hconst hknown] at heq hfresh hcomplete ⊢
      have hnot : ∀ l ∈ collected, l.Fresh s.relatedSymbolicExpr ∧ l.toExpr ≠ leaf.toExpr := fun l hl => by
        simpa [Fresh] using (hfresh l hl).2.2
      refine ⟨leaf :: collected, by simpa using heq, ?_, ?_, ?_⟩
      · refine List.nodup_cons.mpr ⟨?_, hnodup⟩
        rintro hmem
        obtain ⟨l, hl, hequal⟩ := List.mem_map.mp hmem
        exact (hnot l hl).2 hequal
      · rintro l hl
        rcases List.mem_cons.mp hl with rfl | hl
        · exact ⟨List.mem_cons_self, hconst, hknown⟩
        · exact ⟨List.mem_cons_of_mem _ (hfresh l hl).1, (hfresh l hl).2.1, (hnot l hl).1⟩
      · rintro l hl hsymbolic
        rcases List.mem_cons.mp hl with rfl | hl
        · simp [Fresh]
        · simpa using hcomplete l hl hsymbolic
    · rw [resolveLeaf_known hconst hknown] at heq hfresh hcomplete ⊢
      refine ⟨collected, heq, hnodup, fun l hl => ⟨List.mem_cons_of_mem _ (hfresh l hl).1, (hfresh l hl).2⟩, ?_⟩
      rintro l hl hsymbolic
      rcases List.mem_cons.mp hl with rfl | hl
      · exact fun h => hknown fun hmem => h (by simp [List.mem_map.mp hmem])
      · exact hcomplete l hl hsymbolic

/-! ### Taint of the reached leaves -/

/-- Both lists hide the same symbolic leaves. -/
def HidesSame (related related' : List TaintExpr) : Prop :=
  ∀ leaf : TaintExpr, leaf.isConstant = false → (leaf.Fresh related ↔ leaf.Fresh related')

theorem Exposed.congr (hsame : HidesSame related related') (h : Exposed ls related) : Exposed ls related' := by
  obtain ⟨before, leaf, after, heq, htaint, hor⟩ := h
  refine ⟨before, leaf, after, heq, htaint, ?_⟩
  rcases Bool.eq_false_or_eq_true leaf.isConstant with hconst | hconst
  · exact .inl hconst
  · have hfresh := hor.resolve_left (by rw [hconst]; exact Bool.false_ne_true)
    have hleaf := hsame leaf hconst
    simp only [Fresh, List.map_append, List.mem_append, not_or] at hfresh hleaf ⊢
    exact .inr ⟨hleaf.mp hfresh.1, hfresh.2⟩

theorem exposed_cons : Exposed (leaf :: ls) related ↔
    (leaf.isTaint = true ∧ (leaf.isConstant = true ∨ leaf.Fresh related)) ∨ Exposed ls (related ++ [leaf]) := by
  constructor
  · rintro ⟨before, l, after, heq, htaint, hor⟩
    cases before with
    | nil =>
      obtain ⟨rfl, rfl⟩ := List.cons.inj heq
      exact .inl ⟨htaint, by rwa [List.append_nil] at hor⟩
    | cons first before =>
      obtain ⟨rfl, rfl⟩ := List.cons.inj heq
      exact .inr ⟨before, l, after, rfl, htaint, by rwa [List.append_assoc]⟩
  · rintro (⟨htaint, hor⟩ | ⟨before, l, after, rfl, htaint, hor⟩)
    · exact ⟨[], leaf, ls, rfl, htaint, by rwa [List.append_nil]⟩
    · exact ⟨leaf :: before, l, after, rfl, htaint, by rwa [List.append_assoc] at hor⟩

/-- A constant hides no symbolic leaf. -/
theorem toExpr_ne (hleaf : leaf.isConstant = true) (hvalue : value.isConstant = false) : value.toExpr ≠ leaf.toExpr := by
  cases leaf with
  | constant => cases value <;> simp_all [toExpr, isConstant]
  | _ => cases hleaf

theorem hidesSame_constant (h : leaf.isConstant = true) : HidesSame related (related ++ [leaf]) := fun l hl => by
  simp [Fresh, toExpr_ne h hl]

theorem hidesSame_known (h : ¬leaf.Fresh related) : HidesSame related (related ++ [leaf]) := fun l _ => by
  have hmem := mem_toExpr.mpr h
  simp only [Fresh, List.map_append, List.mem_append, List.map_singleton, List.mem_singleton, not_or]
  exact ⟨fun hl => ⟨hl, fun heq => hl (heq ▸ hmem)⟩, And.left⟩

theorem HidesSame.symm (h : HidesSame related related') : HidesSame related' related := fun leaf hleaf => (h leaf hleaf).symm

theorem foldl_isTaint (ls : List TaintExpr) (s : TaintResult) :
    (ls.foldl resolveLeaf s).isTaint = true ↔ s.isTaint = true ∨ Exposed ls s.relatedSymbolicExpr := by
  induction ls generalizing s with
  | nil => exact ⟨.inl, fun h => h.resolve_right fun ⟨_, _, _, heq, _⟩ => by simp at heq⟩
  | cons leaf ls ih =>
    rw [List.foldl_cons, ih, exposed_cons]
    rcases Bool.eq_false_or_eq_true leaf.isConstant with hconst | hconst
    · have hsame := @hidesSame_constant leaf s.relatedSymbolicExpr hconst
      have hrest : Exposed ls s.relatedSymbolicExpr ↔ Exposed ls (s.relatedSymbolicExpr ++ [leaf]) :=
        ⟨Exposed.congr hsame, Exposed.congr hsame.symm⟩
      rw [resolveLeaf_constant hconst, hrest, Bool.or_eq_true]
      simp [hconst, or_assoc]
    by_cases hfresh : leaf.Fresh s.relatedSymbolicExpr
    · rw [resolveLeaf_fresh hconst hfresh, Bool.or_eq_true]
      simp [hfresh, or_assoc]
    · have hsame := hidesSame_known hfresh
      have hrest : Exposed ls s.relatedSymbolicExpr ↔ Exposed ls (s.relatedSymbolicExpr ++ [leaf]) :=
        ⟨Exposed.congr hsame, Exposed.congr hsame.symm⟩
      rw [resolveLeaf_known hconst hfresh, hrest]
      simp [hconst, hfresh]

/-! ### Reached leaves -/

theorem mem_leaves_of_mem_reached (h : leaf ∈ value.reached) : leaf ∈ value.leaves := by
  induction value with
  | constant | read | concat => exact h
  | notOptimized _ ih | extract _ _ _ ih | zext _ _ ih | sext _ _ ih | not _ ih => exact ih h
  | select cond trueExpr falseExpr ihc iht ihf =>
    simp only [reached, leaves, List.mem_append] at h ⊢
    exact h.imp (Or.imp ihc iht) ihf
  | arith _ left right ihl ihr | cmp _ left right ihl ihr =>
    rw [reached] at h
    rw [leaves, List.mem_append]
    split at h
    · exact .inl (ihl h)
    · exact (List.mem_append.mp h).imp ihl ihr

/-- The leaves of an expression without marks. -/
def exprLeaves : Klee.Expr → List Klee.Expr
  | .constant width value => [.constant width value]
  | .read updates index => [.read updates index]
  | .concat left right => [.concat left right]
  | .notOptimized src => exprLeaves src
  | .select cond trueExpr falseExpr => exprLeaves cond ++ exprLeaves trueExpr ++ exprLeaves falseExpr
  | .extract expr _ _ => exprLeaves expr
  | .zext src _ => exprLeaves src
  | .sext src _ => exprLeaves src
  | .not expr => exprLeaves expr
  | .arith _ left right => exprLeaves left ++ exprLeaves right
  | .cmp _ left right => exprLeaves left ++ exprLeaves right

theorem map_leaves (value : TaintExpr) : value.leaves.map toExpr = exprLeaves value.toExpr := by
  induction value with
  | constant | read | concat => rfl
  | notOptimized _ ih | extract _ _ _ ih | zext _ _ ih | sext _ _ ih | not _ ih => exact ih
  | select cond trueExpr falseExpr ihc iht ihf =>
    rw [leaves, toExpr, exprLeaves, List.map_append, List.map_append, ihc, iht, ihf]
  | arith _ left right ihl ihr | cmp _ left right ihl ihr =>
    rw [leaves, toExpr, exprLeaves, List.map_append, ihl, ihr]

/-- Each leaf is equal to one that is reached. -/
theorem exists_reached (h : leaf ∈ value.leaves) : leaf.toExpr ∈ value.reached.map toExpr := by
  induction value generalizing leaf with
  | constant | read | concat => exact List.mem_map_of_mem h
  | notOptimized _ ih | extract _ _ _ ih | zext _ _ ih | sext _ _ ih | not _ ih => exact ih h
  | select cond trueExpr falseExpr ihc iht ihf =>
    simp only [reached, leaves, List.map_append, List.mem_append] at h ⊢
    exact h.imp (Or.imp ihc iht) ihf
  | arith _ left right ihl ihr | cmp _ left right ihl ihr =>
    rw [leaves, List.mem_append] at h
    rw [reached]
    split
    · rename_i hequal
      rcases h with h | h
      · exact ihl h
      · -- the leaves of equal kids are equal
        have hmem : leaf.toExpr ∈ left.leaves.map toExpr := by
          rw [map_leaves, of_decide_eq_true hequal, ← map_leaves]
          exact List.mem_map_of_mem h
        obtain ⟨l, hl, heq⟩ := List.mem_map.mp hmem
        exact heq ▸ ihl hl
    · rw [List.map_append, List.mem_append]
      exact h.imp ihl ihr

theorem isConstant_congr {a b : TaintExpr} (h : a.toExpr = b.toExpr) : a.isConstant = b.isConstant := by
  rcases Bool.eq_false_or_eq_true a.isConstant with ha | ha <;> rcases Bool.eq_false_or_eq_true b.isConstant with hb | hb
  · rw [ha, hb]
  · exact absurd h.symm (toExpr_ne ha hb)
  · exact absurd h (toExpr_ne hb ha)
  · rw [ha, hb]

/-! ### Results -/

theorem resolveTaintExpr_isTaint (value : TaintExpr) (s : TaintResult) :
    (value.resolveTaintExpr s).isTaint = true ↔ s.isTaint = true ∨ Exposed value.reached s.relatedSymbolicExpr := by
  rw [resolveTaintExpr_eq]
  exact foldl_isTaint value.reached s

theorem resolveTaintExpr_collects (value : TaintExpr) (s : TaintResult) :
    ∃ collected, (value.resolveTaintExpr s).relatedSymbolicExpr = s.relatedSymbolicExpr ++ collected ∧
      Collects value.leaves s.relatedSymbolicExpr collected := by
  rw [resolveTaintExpr_eq]
  obtain ⟨collected, heq, hnodup, hfresh, hcomplete⟩ := foldl_collects value.reached s
  refine ⟨collected, heq, hnodup, fun l hl => ⟨mem_leaves_of_mem_reached (hfresh l hl).1, (hfresh l hl).2⟩, fun l hl hsymbolic => ?_⟩
  obtain ⟨l', hl', hequal⟩ := List.mem_map.mp (exists_reached hl)
  have hknown := hcomplete l' hl' ((isConstant_congr hequal).trans hsymbolic)
  rwa [Fresh, hequal] at hknown

theorem Exposed.exists_leaf (h : Exposed value.reached related) : ∃ leaf ∈ value.leaves, leaf.isTaint = true := by
  obtain ⟨before, leaf, after, heq, htaint, -⟩ := h
  exact ⟨leaf, mem_leaves_of_mem_reached (heq ▸ List.mem_append_right _ List.mem_cons_self), htaint⟩

theorem resolveTaintExpr_iff (value : TaintExpr) (s : TaintResult) :
    Resolves value s (value.resolveTaintExpr s) ↔
      ((∃ leaf ∈ value.leaves, leaf.isTaint = true) → s.isTaint = true ∨ Exposed value.reached s.relatedSymbolicExpr) := by
  constructor
  · intro h hleaf
    exact (resolveTaintExpr_isTaint value s).mp (h.isTaint.mpr (.inr hleaf))
  · intro h
    refine ⟨?_, ?_⟩
    · rw [resolveTaintExpr_isTaint]
      exact ⟨Or.imp_right Exposed.exists_leaf, fun hor => hor.elim .inl h⟩
    · exact resolveTaintExpr_collects value s

/-- The first byte of an array. -/
def firstByte (isTaint : Bool) : TaintExpr := read isTaint (.root { id := 0, size := 4 }) (.constant 32 0)

/-- The sum of a byte and a tainted copy of it: only the left operand is visited. -/
theorem not_resolves_add :
    ¬Resolves (arith .add (firstByte false) (firstByte true)) {}
      ((arith .add (firstByte false) (firstByte true)).resolveTaintExpr {}) := by
  intro h
  have htaint := h.isTaint.mpr (.inr ⟨firstByte true, by simp [firstByte, leaves], rfl⟩)
  rw [resolveTaintExpr, if_pos (by rfl)] at htaint
  cases htaint

end TaintExpr
end CapTaint
