import CapTaint.Theorems.Evaluator

/-! # Evaluation is the semantics

Under any assignment, an expression whose evaluated divisors are not zero evaluates to the constant that the semantics
gives, if the evaluator does not come to an expression that is kept from being optimized. -/

namespace CapTaint.Klee

variable {opt : Bool} {w : Nat} {e : Expr} {init : Array → Nat → Nat}

/-! ### Values under any contents of arrays -/

mutual
/-- The value of an expression where `init` are the elements of arrays before all updates, also behind their ends. -/
def Expr.valueIn (init : Array → Nat → Nat) : Expr → Nat
  | .constant _ value => value.toNat
  | .notOptimized src => src.valueIn init
  | .read updates index => updates.readIn init (index.valueIn init)
  | .select cond trueExpr falseExpr => if cond.valueIn init ≠ 0 then trueExpr.valueIn init else falseExpr.valueIn init
  | .concat left right => left.valueIn init * 2 ^ right.getWidth + right.valueIn init
  | .extract expr offset width => expr.valueIn init / 2 ^ offset % 2 ^ width
  | .zext src _ => src.valueIn init
  | .sext src width => ((BitVec.ofNat src.getWidth (src.valueIn init)).signExtend width).toNat
  | .not expr => (~~~BitVec.ofNat expr.getWidth (expr.valueIn init)).toNat
  | .arith kind left right =>
    (applyArith kind (BitVec.ofNat left.getWidth (left.valueIn init)) (BitVec.ofNat left.getWidth (right.valueIn init))).toNat
  | .cmp kind left right =>
    (kind.eval (BitVec.ofNat left.getWidth (left.valueIn init)) (BitVec.ofNat left.getWidth (right.valueIn init))).toNat

/-- The newest update at the index decides. -/
def UpdateList.readIn (init : Array → Nat → Nat) : UpdateList → Nat → Nat
  | .root array, i => init array i
  | .extend next index value, i => if index.valueIn init = i then value.valueIn init else next.readIn init i
end

mutual
/-- Every evaluated divisor is not zero, and no expression that is kept from being optimized is evaluated. Of the updates
    those are evaluated that are not older than the one that is read. -/
def Expr.Evaluable (init : Array → Nat → Nat) : Expr → Prop
  | .constant _ _ => True
  | .notOptimized _ => False
  | .read updates index => index.Evaluable init ∧ updates.Evaluable init (index.valueIn init)
  | .select cond trueExpr falseExpr => cond.Evaluable init ∧ trueExpr.Evaluable init ∧ falseExpr.Evaluable init
  | .concat left right => left.Evaluable init ∧ right.Evaluable init
  | .extract expr _ _ => expr.Evaluable init
  | .zext src _ => src.Evaluable init
  | .sext src _ => src.Evaluable init
  | .not expr => expr.Evaluable init
  | .arith kind left right =>
    left.Evaluable init ∧ right.Evaluable init ∧ (divides kind = true → right.valueIn init ≠ 0)
  | .cmp _ left right => left.Evaluable init ∧ right.Evaluable init

def UpdateList.Evaluable (init : Array → Nat → Nat) : UpdateList → Nat → Prop
  | .root _, _ => True
  | .extend next index value, i =>
    index.Evaluable init ∧ (index.valueIn init = i → value.Evaluable init) ∧
      (index.valueIn init ≠ i → next.Evaluable init i)
end

theorem Expr.kids_evaluable (h : e.Evaluable init) : ∀ kid ∈ e.kids, kid.Evaluable init := by
  cases e with
  | constant _ _ => exact nofun
  | notOptimized src => exact absurd h id
  | not src | extract src _ _ | zext src _ | sext src _ => exact List.forall_mem_singleton.mpr h
  | read ul index => exact List.forall_mem_singleton.mpr h.1
  | select c t f => simpa [Expr.kids] using ⟨h.1, h.2.1, h.2.2⟩
  | concat l r | cmp _ l r => simpa [Expr.kids] using ⟨h.1, h.2⟩
  | arith _ l r => simpa [Expr.kids] using ⟨h.1, h.2.1⟩

/-- The elements are below two to the range. -/
def InRange (init : Array → Nat → Nat) : Prop := ∀ (array : Array) (i : Nat), init array i < 2 ^ array.range

mutual
theorem Expr.valueIn_lt (hinit : InRange init) : (e : Expr) → e.WellTyped → e.valueIn init < 2 ^ e.getWidth
  | .constant _ value, _ => value.isLt
  | .notOptimized src, h => Expr.valueIn_lt hinit src h
  | .read ul _, h => UpdateList.readIn_lt hinit ul h.1 _
  | .select _ t f, h => by
    rw [Expr.valueIn, Expr.getWidth]
    split
    · exact Expr.valueIn_lt hinit t h.2.1
    · rw [h.2.2.2.2]
      exact Expr.valueIn_lt hinit f h.2.2.1
  | .concat l r, h => concat_lt (Expr.valueIn_lt hinit l h.1) (Expr.valueIn_lt hinit r h.2)
  | .extract _ _ _, _ => Nat.mod_lt _ (Nat.two_pow_pos _)
  | .zext src width, h => (Expr.valueIn_lt hinit src h.1).trans (Nat.pow_lt_pow_right Nat.one_lt_two h.2)
  | .sext _ _, _ => BitVec.isLt _
  | .not _, _ => BitVec.isLt _
  | .arith _ _ _, _ => BitVec.isLt _
  | .cmp _ _ _, _ => Bool.toNat_lt _

theorem UpdateList.readIn_lt (hinit : InRange init) : (ul : UpdateList) → ul.WellTyped → (i : Nat) →
    ul.readIn init i < 2 ^ ul.array.range
  | .root array, _, i => hinit array i
  | .extend next _ value, h, i => by
    rw [UpdateList.readIn]
    split
    · have hvalue := Expr.valueIn_lt hinit value h.2.2.1
      rwa [h.2.2.2.2] at hvalue
    · exact UpdateList.readIn_lt hinit next h.1 i
end

/-! ### Folding -/

/-- The constant that an expression stands for. -/
def Expr.constantIn (init : Array → Nat → Nat) (e : Expr) : Expr :=
  .constant e.getWidth (BitVec.ofNat e.getWidth (e.valueIn init))

theorem Expr.constantIn_typed (he : e.WellTyped) : (e.constantIn init).Typed e.getWidth := .constant (e.width_pos he) _

theorem Expr.constantIn_value (hinit : InRange init) (he : e.WellTyped) (v : Valuation) :
    (e.constantIn init).value v = e.valueIn init := by
  rw [Expr.constantIn, Expr.value, BitVec.toNat_ofNat, Nat.mod_eq_of_lt (Expr.valueIn_lt hinit e he)]

/-- The expression with its kids replaced by the constants that they stand for. Reads are left as they are. -/
def Expr.foldKids (init : Array → Nat → Nat) : Expr → Expr
  | .select cond trueExpr falseExpr => .select (cond.constantIn init) (trueExpr.constantIn init) (falseExpr.constantIn init)
  | .concat left right => .concat (left.constantIn init) (right.constantIn init)
  | .extract expr offset width => .extract (expr.constantIn init) offset width
  | .zext src width => .zext (src.constantIn init) width
  | .sext src width => .sext (src.constantIn init) width
  | .not expr => .not (expr.constantIn init)
  | .arith kind left right => .arith kind (left.constantIn init) (right.constantIn init)
  | .cmp kind left right => .cmp kind (left.constantIn init) (right.constantIn init)
  | e => e

/-- What holds of the expressions that are folded. -/
structure Folds (init : Array → Nat → Nat) (w : Nat) (e : Expr) : Prop extends e.Typed w where
  evaluable : e.Evaluable init
  symbolic : e.isConstant = false
  notRead : ∀ ul index, e ≠ .read ul index

theorem Folds.foldKids_typed (h : Folds init w e) : (e.foldKids init).Typed w := by
  obtain ⟨⟨he, hw⟩, hevaluable, hsymbolic, hread⟩ := h
  subst hw
  cases e with
  | constant _ _ => cases hsymbolic
  | notOptimized _ => exact absurd hevaluable id
  | read ul index => exact absurd rfl (hread ul index)
  | select c t f =>
    exact ⟨⟨(Expr.constantIn_typed he.1).1, (Expr.constantIn_typed he.2.1).1, (Expr.constantIn_typed he.2.2.1).1,
      he.2.2.2.1, he.2.2.2.2⟩, rfl⟩
  | concat l r => exact ⟨⟨(Expr.constantIn_typed he.1).1, (Expr.constantIn_typed he.2).1⟩, rfl⟩
  | extract src off k => exact ⟨⟨(Expr.constantIn_typed he.1).1, he.2⟩, rfl⟩
  | zext src k | sext src k => exact ⟨⟨(Expr.constantIn_typed he.1).1, he.2⟩, rfl⟩
  | not src =>
    have hsrc : (src.constantIn init).Typed src.getWidth := Expr.constantIn_typed he
    exact ⟨hsrc.1, rfl⟩
  | arith kind l r | cmp kind l r =>
    exact ⟨⟨(Expr.constantIn_typed he.1).1, (Expr.constantIn_typed he.2.1).1, he.2.2⟩, rfl⟩

theorem Folds.foldKids_value (hinit : InRange init) (h : Folds init w e) (v : Valuation) :
    (e.foldKids init).value v = e.valueIn init := by
  obtain ⟨⟨he, -⟩, hevaluable, hsymbolic, hread⟩ := h
  cases e with
  | constant _ _ => cases hsymbolic
  | notOptimized _ => exact absurd hevaluable id
  | read ul index => exact absurd rfl (hread ul index)
  | select c t f =>
    rw [Expr.foldKids, Expr.value, Expr.constantIn_value hinit he.1, Expr.constantIn_value hinit he.2.1,
      Expr.constantIn_value hinit he.2.2.1, Expr.valueIn]
  | concat l r =>
    rw [Expr.foldKids, Expr.value, Expr.constantIn_value hinit he.1, Expr.constantIn_value hinit he.2, Expr.valueIn]
    rfl
  | extract src off k => rw [Expr.foldKids, Expr.value, Expr.constantIn_value hinit he.1, Expr.valueIn]
  | zext src k => rw [Expr.foldKids, Expr.value, Expr.constantIn_value hinit he.1, Expr.valueIn]
  | sext src k =>
    rw [Expr.foldKids, Expr.value, Expr.constantIn_value hinit he.1, Expr.valueIn]
    rfl
  | not src =>
    have he : src.WellTyped := he
    rw [Expr.foldKids, Expr.value, Expr.constantIn_value hinit he, Expr.valueIn]
    rfl
  | arith kind l r | cmp kind l r =>
    rw [Expr.foldKids, Expr.value, Expr.constantIn_value hinit he.1, Expr.constantIn_value hinit he.2.1, Expr.valueIn]
    rfl

theorem Folds.foldKids_kids (h : Folds init w e) : (e.foldKids init).kids = e.kids.map (Expr.constantIn init) ∧
    (e.foldKids init).rebuild opt (e.kids.map (Expr.constantIn init)) =
      e.rebuild opt (e.kids.map (Expr.constantIn init)) := by
  obtain ⟨-, hevaluable, hsymbolic, hread⟩ := h
  cases e with
  | constant _ _ => cases hsymbolic
  | notOptimized _ => exact absurd hevaluable id
  | read ul index => exact absurd rfl (hread ul index)
  | _ => exact ⟨rfl, rfl⟩

theorem Folds.foldKids_sound (h : Folds init w e) (v : Valuation) :
    (e.foldKids init).isConstant = false ∧ (e.foldKids init).Sound opt false v := by
  obtain ⟨-, hevaluable, hsymbolic, hread⟩ := h
  cases e with
  | constant _ _ => cases hsymbolic
  | notOptimized _ => exact absurd hevaluable id
  | read ul index => exact absurd rfl (hread ul index)
  | _ => exact ⟨rfl, by simp [Expr.foldKids, Expr.constantIn, Expr.Sound]⟩

theorem Folds.divisor (hinit : InRange init) (h : Folds init w e) {kind : ArithKind} {l r : Expr}
    (he : e.foldKids init = .arith kind l r) (hdiv : divides kind = true) : r ≠ .constant w 0 := by
  obtain ⟨htyped, hevaluable, hsymbolic, hread⟩ := h
  cases e with
  | arith kind' l' r' =>
    obtain ⟨rfl, rfl, rfl⟩ := Expr.arith.inj he
    intro hzero
    refine hevaluable.2.2 hdiv ?_
    rw [← Expr.constantIn_value hinit htyped.1.2.1 fun _ _ => 0, hzero]
    exact BitVec.toNat_ofNat _ _
  | constant _ _ => cases he
  | notOptimized _ => cases he
  | read ul index => cases he
  | _ => cases he

/-- Constant kids are folded to the constant of the expression. -/
theorem Folds.rebuild (hinit : InRange init) (h : Folds init w e) :
    e.rebuild opt (e.kids.map (Expr.constantIn init)) = .ok (e.constantIn init) := by
  -- the kids do not depend on a valuation, so that any will do
  obtain ⟨hkids, hrebuild⟩ : _ ∧ (e.foldKids init).rebuild opt _ = _ := h.foldKids_kids
  obtain ⟨hsymbolic, hsound⟩ : _ ∧ (e.foldKids init).Sound opt false fun _ _ => 0 := h.foldKids_sound _
  have hcases : Rebuilt opt (· = fun _ _ => 0) w (e.foldKids init) _ _ ∨ _ :=
    rebuild_cases h.foldKids_typed hsymbolic (kids_refl h.foldKids_typed)
  rw [hkids, hrebuild] at hcases
  rcases hcases with ⟨r, hr, hrewrites, -⟩ | ⟨-, kind, l, r, l', hnode, hdiv, hzero⟩
  · have hconst : r.isConstant = true := by
      refine rebuild_isConstant (fun src he => ?_) h.notRead (fun kid hkid => ?_) hr
      · have := h.evaluable
        rw [he] at this
        exact this
      · obtain ⟨kid', -, rfl⟩ := List.mem_map.mp hkid
        rfl
    obtain ⟨k, c, rfl⟩ := Expr.exists_constant hconst
    obtain rfl : k = w := hrewrites.typed.2
    have hbits := (hrewrites.value false _ rfl hsound).2
    rw [Expr.bits_constant, Expr.bits, h.foldKids_value hinit] at hbits
    rw [hr, hbits, Expr.constantIn, h.width]
  · rw [hnode] at hkids
    obtain rfl : r = .constant w 0 := (List.cons.inj (List.cons.inj (hkids.trans hzero)).2).1
    exact absurd rfl (h.divisor hinit hnode hdiv)

/-! ### The visits -/

/-- A table whose results are the constants. -/
def Visited.Constants (init : Array → Nat → Nat) (visited : Visited) : Prop :=
  ∀ entry ∈ visited, entry.1.WellTyped → entry.1.Evaluable init → entry.2 = entry.1.constantIn init

theorem Visited.constants_nil : Visited.Constants init [] := nofun

/-- A visit ends with the constant `c`. -/
def VisitGives (init : Array → Nat → Nat) (c : Expr) (result : Except Abort (Expr × Visited)) : Prop :=
  ∃ visited, result = .ok (c, visited) ∧ visited.Constants init

section
variable {visited : Visited} {visit : Expr → Visited → Except Abort (Expr × Visited)} {kids : List Expr}

theorem visitKids_constants (hvisit : ∀ kid ∈ kids, ∀ visited : Visited, visited.Constants init →
      VisitGives init (kid.constantIn init) (visit kid visited)) (hok : visited.Constants init) :
    ∃ visited', ExprVisitor.visitKids visit kids visited = .ok (kids.map (Expr.constantIn init), visited') ∧
      visited'.Constants init := by
  induction kids generalizing visited with
  | nil => exact ⟨visited, rfl, hok⟩
  | cons kid kids ih =>
    obtain ⟨visited₁, hkid, hok₁⟩ := hvisit kid List.mem_cons_self visited hok
    obtain ⟨visited₂, hkids, hok₂⟩ := ih (fun k hk => hvisit k (List.mem_cons_of_mem _ hk)) hok₁
    unfold ExprVisitor.visitKids
    simp only [hkid, bind, Except.bind, hkids]
    exact ⟨visited₂, rfl, hok₂⟩

theorem constantIn_of_isConstant (h : e.isConstant = true) : e.constantIn init = e := by
  obtain ⟨k, c, rfl⟩ := Expr.exists_constant h
  simp [Expr.constantIn, Expr.valueIn, Expr.getWidth]

/-- Unchanged kids are constants, which have been folded before. -/
theorem doChildren_gives (hinit : InRange init) (h : Folds init w e) (hfolds : ExprEvaluator.folds e = false)
    (hvisit : ∀ kid ∈ e.kids, ∀ visited : Visited, visited.Constants init →
      VisitGives init (kid.constantIn init) (visit kid visited)) (hok : visited.Constants init) :
    VisitGives init (e.constantIn init) (ExprEvaluator.doChildren opt visit e visited) := by
  obtain ⟨visited', hkids, hok'⟩ := visitKids_constants hvisit hok
  unfold ExprEvaluator.doChildren
  simp only [hkids, bind, Except.bind]
  split
  case isTrue hsame =>
    have : ExprEvaluator.folds e = true := folds_eq_true h.notRead fun kid hkid => by
      rw [← hsame] at hkid
      obtain ⟨kid', -, rfl⟩ := List.mem_map.mp hkid
      rfl
    rw [this] at hfolds
    cases hfolds
  case isFalse =>
    rw [h.rebuild hinit]
    exact ⟨visited', rfl, hok'⟩

theorem protectedDivOperation_gives (hinit : InRange init) {kind : ArithKind} {left right : Expr}
    (hdiv : divides kind = true) (h : Folds init w (.arith kind left right))
    (hfolds : ExprEvaluator.folds (.arith kind left right) = false)
    (hvisit : ∀ kid ∈ (Expr.arith kind left right).kids, ∀ visited : Visited, visited.Constants init →
      VisitGives init (kid.constantIn init) (visit kid visited)) (hok : visited.Constants init) :
    VisitGives init ((Expr.arith kind left right).constantIn init)
      (ExprEvaluator.protectedDivOperation opt visit kind left right visited) := by
  obtain ⟨visited₁, hl, hok₁⟩ := hvisit left List.mem_cons_self visited hok
  obtain ⟨visited₂, hr, hok₂⟩ := hvisit right (by simp [Expr.kids]) visited₁ hok₁
  have hne : BitVec.ofNat right.getWidth (right.valueIn init) ≠ 0 := fun hzero => by
    refine h.evaluable.2.2 hdiv ?_
    rw [← Expr.constantIn_value hinit h.wellTyped.2.1 fun _ _ => 0, Expr.constantIn, hzero]
    exact BitVec.toNat_ofNat _ _
  have hdivisor : ExprEvaluator.protectedDivisor right (right.constantIn init) = right.constantIn init := if_neg hne
  unfold ExprEvaluator.protectedDivOperation
  simp only [hl, hr, bind, Except.bind, hdivisor]
  split
  case isTrue =>
    have hrebuild : (Expr.arith kind left right).rebuild opt [left.constantIn init, right.constantIn init] = _ :=
      h.rebuild hinit
    rw [hrebuild]
    exact ⟨visited₂, rfl, hok₂⟩
  case isFalse hsame =>
    obtain ⟨hleft, hright⟩ : left.constantIn init = left ∧ right.constantIn init = right := by simpa using hsame
    have : ExprEvaluator.folds (.arith kind left right) = true := by
      rw [← hleft, ← hright]
      rfl
    rw [this] at hfolds
    cases hfolds

/-- What the evaluator is given for the elements that it does not know itself. -/
def InitialElements (init : Array → Nat → Nat) (getInitialValue : Array → Nat → Expr) : Prop :=
  ∀ (array : Array) (i : Nat), array.WellFormed →
    (∀ c, array.isConstantArray = true → i < array.size → array.constantValues[i]? = some c → init array i = c.toNat) ∧
      (¬(array.isConstantArray = true ∧ i < array.size) →
        getInitialValue array i = .constant array.range (BitVec.ofNat _ (init array i)))

theorem evalRead_gives {getInitialValue : Array → Nat → Expr} (hinit : InRange init)
    (helements : InitialElements init getInitialValue) {bound : Nat}
    (hvisit : ∀ e : Expr, e.WellTyped → e.Evaluable init → e.weight < bound → ∀ visited : Visited,
      visited.Constants init → VisitGives init (e.constantIn init) (visit e visited)) (i : Nat) :
    (ul : UpdateList) → ul.WellTyped → ul.weight < bound → ul.Evaluable init i →
    (visited : Visited) → visited.Constants init →
    VisitGives init (.constant ul.array.range (BitVec.ofNat _ (ul.readIn init i)))
      (ExprEvaluator.evalRead opt getInitialValue visit i ul visited)
  | .root array, hul, _, _, visited, hok => by
    obtain ⟨hconstants, hothers⟩ := helements array i hul
    unfold ExprEvaluator.evalRead
    split
    case isTrue hconst =>
      have hlt : i < array.constantValues.length := (hul.constants hconst.1).symm ▸ hconst.2
      have hget : array.constantValues[i]? = some array.constantValues[i] := List.getElem?_eq_getElem hlt
      rw [hget]
      refine ⟨visited, ?_, hok⟩
      rw [UpdateList.readIn, hconstants _ hconst.1 hconst.2 hget]
      simp [UpdateList.array]
    case isFalse hconst =>
      rw [hothers hconst]
      exact ⟨visited, rfl, hok⟩
  | .extend next updateIndex value, hul, hbound, hevaluable, visited, hok => by
    rw [UpdateList.weight] at hbound
    obtain ⟨hindex, hvalue, hnext⟩ := hevaluable
    obtain ⟨visited₁, hui, hok₁⟩ := hvisit updateIndex hul.2.1 hindex (by omega) visited hok
    have hnat : (BitVec.ofNat updateIndex.getWidth (updateIndex.valueIn init)).toNat = updateIndex.valueIn init := by
      rw [BitVec.toNat_ofNat, Nat.mod_eq_of_lt (Expr.valueIn_lt hinit updateIndex hul.2.1)]
    unfold ExprEvaluator.evalRead
    simp only [hui, bind, Except.bind, Expr.constantIn]
    rw [hnat, UpdateList.readIn]
    split
    case isTrue hsame =>
      obtain ⟨visited₂, hv, hok₂⟩ := hvisit value hul.2.2.1 (hvalue hsame) (by omega) visited₁ hok₁
      refine ⟨visited₂, ?_, hok₂⟩
      rw [hv, Expr.constantIn, hul.2.2.2.2]
      rfl
    case isFalse hother => exact evalRead_gives hinit helements hvisit i next hul.1 (by omega) (hnext hother) visited₁ hok₁

theorem visitActual_gives {getInitialValue : Array → Nat → Expr} (hinit : InRange init)
    (helements : InitialElements init getInitialValue) (he : e.WellTyped) (hevaluable : e.Evaluable init)
    (hvisit : ∀ e' : Expr, e'.WellTyped → e'.Evaluable init → e'.weight < e.weight → ∀ visited : Visited,
      visited.Constants init → VisitGives init (e'.constantIn init) (visit e' visited)) (hok : visited.Constants init) :
    VisitGives init (e.constantIn init) (ExprEvaluator.visitActual opt getInitialValue visit e visited) := by
  have hkids : ∀ kid ∈ e.kids, ∀ visited : Visited, visited.Constants init →
      VisitGives init (kid.constantIn init) (visit kid visited) := fun kid hkid =>
    hvisit kid (e.kids_wellTyped he kid hkid) (Expr.kids_evaluable hevaluable kid hkid) (e.kids_weight kid hkid)
  unfold ExprEvaluator.visitActual
  cases hsymbolic : e.isConstant with
  | true =>
    rw [constantIn_of_isConstant hsymbolic]
    exact ⟨visited, rfl, hok⟩
  | false =>
    rw [if_neg Bool.false_ne_true]
    by_cases hread : ∃ ul index, e = .read ul index
    · obtain ⟨ul, index, rfl⟩ := hread
      obtain ⟨visited₁, hindex, hok₁⟩ := hvisit index he.2.1 hevaluable.1 (by simp only [Expr.weight]; omega) visited hok
      rw [show ExprEvaluator.folds (.read ul index) = false from rfl, if_neg Bool.false_ne_true]
      dsimp only
      unfold ExprEvaluator.visitRead
      simp only [hindex, bind, Except.bind, Expr.constantIn]
      rw [BitVec.toNat_ofNat, Nat.mod_eq_of_lt (Expr.valueIn_lt hinit index he.2.1)]
      exact evalRead_gives hinit helements hvisit _ ul he.1 (by simp only [Expr.weight]; omega) hevaluable.2 visited₁ hok₁
    · have hfold : Folds init e.getWidth e := ⟨.self he, hevaluable, hsymbolic, fun ul index h => hread ⟨ul, index, h⟩⟩
      cases hfolds : ExprEvaluator.folds e with
      | true =>
        have hconstant : e.kids.map (Expr.constantIn init) = e.kids :=
          (List.map_congr_left fun kid hkid =>
            constantIn_of_isConstant ((kids_isConstant_of_folds hfolds).2 kid hkid)).trans (List.map_id _)
        have hrebuild : e.rebuild opt _ = _ := hfold.rebuild hinit
        rw [hconstant] at hrebuild
        simp only [if_true, hrebuild]
        exact ⟨visited, rfl, hok⟩
      | false =>
        rw [if_neg Bool.false_ne_true]
        cases e with
        | constant _ _ => cases hsymbolic
        | read ul index => exact absurd ⟨ul, index, rfl⟩ hread
        | arith kind left right =>
          dsimp only
          split
          case isTrue hdiv => exact protectedDivOperation_gives hinit hdiv hfold hfolds hkids hok
          case isFalse => exact doChildren_gives hinit hfold hfolds hkids hok
        | _ => exact doChildren_gives hinit hfold hfolds hkids hok

theorem remember_gives {actual : Except Abort (Expr × Visited)} (useVisitorHash : Bool) (he : e.WellTyped)
    (hevaluable : e.Evaluable init) (hok : visited.Constants init)
    (hactual : VisitGives init (e.constantIn init) actual) :
    VisitGives init (e.constantIn init) (ExprVisitor.remember useVisitorHash e visited actual) := by
  obtain ⟨visited', rfl, hok'⟩ := hactual
  unfold ExprVisitor.remember
  split
  case isTrue => exact ⟨visited', rfl, hok'⟩
  case isFalse =>
    split
    case h_1 res hlookup =>
      obtain ⟨l₁, l₂, hvisited, -⟩ := List.lookup_eq_some_iff.mp hlookup
      rw [← hok (e, res) (by rw [hvisited]; simp) he hevaluable]
      exact ⟨visited, rfl, hok⟩
    case h_2 =>
      simp only [bind, Except.bind]
      split
      case isTrue => exact ⟨visited', rfl, hok'⟩
      case isFalse =>
        refine ⟨_, rfl, fun entry hentry => ?_⟩
        rcases List.mem_cons.mp hentry with rfl | hold
        · exact fun _ _ => rfl
        · exact hok' entry hold

theorem visit_gives {getInitialValue : Array → Nat → Expr} (useVisitorHash : Bool) (hinit : InRange init)
    (helements : InitialElements init getInitialValue) : ∀ (fuel : Nat) (e : Expr), e.WellTyped → e.Evaluable init →
    e.weight < fuel → ∀ visited : Visited, visited.Constants init →
      VisitGives init (e.constantIn init) (ExprEvaluator.visit opt useVisitorHash getInitialValue fuel e visited) := by
  intro fuel
  induction fuel with
  | zero => exact fun _ _ _ hfuel => absurd hfuel (Nat.not_lt_zero _)
  | succ fuel ih =>
    intro e he hevaluable hfuel visited hok
    exact remember_gives useVisitorHash he hevaluable hok
      (visitActual_gives hinit helements he hevaluable (fun e' he' hevaluable' hlt => ih e' he' hevaluable' (by omega)) hok)

end

/-! ### Assignments -/

namespace Assignment

/-- The elements of arrays under an assignment. Missing arrays and bytes read as zero. -/
def element (a : Assignment) (array : Array) (i : Nat) : Nat :=
  if array.isConstantArray ∧ i < array.size then (array.constantValues[i]?.map (·.toNat)).getD 0
  else a.byteOf array i % 2 ^ array.range

variable {a : Assignment} {es : List Expr}

theorem element_inRange (a : Assignment) : InRange a.element := by
  intro array i
  unfold element
  split
  case isTrue =>
    cases array.constantValues[i]? with
    | none => exact Nat.two_pow_pos _
    | some c => exact c.isLt
  case isFalse => exact Nat.mod_lt _ (Nat.two_pow_pos _)

theorem element_initial (a : Assignment) : InitialElements a.element a.evaluateByte := by
  refine fun array i _ => ⟨fun c hconst hi hc => ?_, fun hother => ?_⟩
  · rw [element, if_pos ⟨hconst, hi⟩, hc]
    rfl
  · rw [element, if_neg hother, evaluateByte]
    exact congrArg _ (BitVec.eq_of_toNat_eq (by simp))

/-- The constraints are evaluable up to the first one that is not true. -/
def EvaluableFrom (a : Assignment) : List Expr → Prop
  | [] => True
  | e :: es => e.Evaluable a.element ∧ (e.valueIn a.element = 1 → EvaluableFrom a es)

theorem visit_gives (opt useVisitorHash : Bool) (he : e.WellTyped) (hevaluable : e.Evaluable a.element)
    {visited : Visited} (hok : visited.Constants a.element) :
    VisitGives a.element (e.constantIn a.element) (a.visit opt useVisitorHash e visited) :=
  Klee.visit_gives useVisitorHash a.element_inRange a.element_initial _ e he hevaluable (Nat.lt_succ_self _) visited hok

theorem satisfiesFrom_eq (opt useVisitorHash : Bool) (hes : ∀ e ∈ es, e.Typed 1) (hevaluable : a.EvaluableFrom es)
    {visited : Visited} (hok : visited.Constants a.element) :
    a.satisfiesFrom opt useVisitorHash es visited = .ok (decide (∀ e ∈ es, e.valueIn a.element = 1)) := by
  induction es generalizing visited with
  | nil => rfl
  | cons e es ih =>
    obtain ⟨he, hes⟩ := List.forall_mem_cons.mp hes
    obtain ⟨visited', hvisit, hok'⟩ := visit_gives opt useVisitorHash he.1 hevaluable.1 hok
    have htyped : (e.constantIn a.element).Typed 1 := he.2 ▸ Expr.constantIn_typed he.1
    have htrue : e.constantIn a.element = boolean true ↔ e.valueIn a.element = 1 := by
      rw [← Expr.constantIn_value a.element_inRange he.1 fun _ _ => 0]
      obtain ⟨c, hc⟩ : ∃ c : BitVec 1, e.constantIn a.element = .constant 1 c := by
        refine ⟨BitVec.ofNat 1 (e.valueIn a.element), ?_⟩
        rw [Expr.constantIn, he.2]
      rw [hc]
      rcases bit_cases c with rfl | rfl <;> decide
    unfold satisfiesFrom
    simp only [hvisit, bind, Except.bind, isTrue_spec htyped]
    by_cases hone : e.valueIn a.element = 1
    · simp [htrue.mpr hone, hone, ih hes (hevaluable.2 hone) hok']
    · simp [mt htrue.mp hone, hone, pure, Except.pure]

/-- Under every assignment an expression evaluates to its value, and constraints are satisfied if and only if all are
    true, as long as the evaluator comes neither to a divisor that is zero nor to a node that is not optimized. -/
theorem evaluate_semantics (opt useVisitorHash : Bool) (a : Assignment) :
    (∀ (w : Nat) (e : Expr), e.Typed w → e.Evaluable a.element →
      a.evaluate opt useVisitorHash e = .ok (.constant w (BitVec.ofNat w (e.valueIn a.element)))) ∧
    ∀ es : List Expr, (∀ e ∈ es, e.Typed 1) → a.EvaluableFrom es →
      ∃ b, a.satisfies opt useVisitorHash es = .ok b ∧ (b = true ↔ ∀ e ∈ es, e.valueIn a.element = 1) := by
  refine ⟨fun w e he hevaluable => ?_, fun es hes hevaluable => ?_⟩
  · obtain ⟨visited, hvisit, -⟩ := visit_gives opt useVisitorHash he.1 hevaluable Visited.constants_nil
    unfold Assignment.evaluate
    rw [hvisit, ← he.2]
    rfl
  · exact ⟨_, satisfiesFrom_eq opt useVisitorHash hes hevaluable Visited.constants_nil, decide_eq_true_iff⟩

/-- The second byte of an array of which only the first one is bound. -/
theorem evaluate_semantics_missing :
    (Assignment.mk [(⟨0, 4, 32, 8, []⟩, [7])]).evaluate false true
      (.arith .add (.read (.root ⟨0, 4, 32, 8, []⟩) (.constant 32 0)) (.read (.root ⟨0, 4, 32, 8, []⟩) (.constant 32 1))) =
        .ok (.constant 8 7) := by
  have hread : ∀ i : BitVec 32, (Expr.read (.root ⟨0, 4, 32, 8, []⟩) (.constant 32 i)).Typed 8 := fun i =>
    ⟨⟨⟨by decide, by decide, fun h => nomatch h⟩, Nat.succ_pos 31, rfl⟩, rfl⟩
  exact (evaluate_semantics false true ⟨[(⟨0, 4, 32, 8, []⟩, [7])]⟩).1 8 _ (Expr.Typed.arith.mpr ⟨hread 0, hread 1⟩)
    ⟨⟨trivial, trivial⟩, ⟨trivial, trivial⟩, fun h => nomatch h⟩

/-- What is kept from being optimized is not evaluated to a constant. -/
theorem evaluate_notOptimized :
    (Expr.notOptimized (.constant 8 5)).Typed 8 ∧
      (Assignment.mk []).evaluate false true (.notOptimized (.constant 8 5)) = .ok (.notOptimized (.constant 8 5)) ∧
      (Expr.notOptimized (.constant 8 5)).isConstant = false :=
  ⟨⟨Nat.succ_pos 7, rfl⟩, rfl, rfl⟩

end Assignment

end CapTaint.Klee
