import CapTaint.Klee.Create

/-! # Implied values

`ImpliedValue::getImpliedValues`: the reads whose values follow from the value of an expression. A reference to a constant
may be null, and a null reference that is dereferenced stops the program as a failed assertion does. -/

namespace CapTaint.Klee

/-- A constant of its own, as `ref<ConstantExpr>` refers to one. -/
structure ConstantExpr where
  width : Nat
  value : BitVec width
  deriving DecidableEq

namespace ConstantExpr

variable (c d : ConstantExpr)

/-- The shift is arithmetic. -/
def extract (off w : Nat) : ConstantExpr := ⟨w, (c.value.sshiftRight off).setWidth w⟩

def sub : ConstantExpr := ⟨c.width, c.value - d.value.setWidth c.width⟩

def xor : ConstantExpr := ⟨c.width, c.value ^^^ d.value.setWidth c.width⟩

def not : ConstantExpr := ⟨c.width, ~~~c.value⟩

def isZero : Bool := c.value = 0

/-- Another width than that of `Bool` is not true. -/
def isTrue : Bool := c.width = 1 ∧ c.value ≠ 0

variable {c} in
theorem isTrue_iff (hc : c.width = 1) : c.isTrue = true ↔ c.value ≠ 0 := by
  rw [isTrue, decide_eq_true_eq, and_iff_right hc]

end ConstantExpr

namespace ImpliedValue

/-- A read and the value that it must have, null or not. -/
structure ImpliedPair where
  updates : UpdateList
  index : Expr
  value : Option ConstantExpr
  deriving DecidableEq

/-- `operator->` -/
def deref (value : Option ConstantExpr) : Except Abort ConstantExpr := value.elim (.error .assertion) .ok

/-- The arms of a select that are different constants. Arms that are equal are one object, as `SelectExpr::create` does
    not make a node for such arms. -/
def constantArms : Expr → Expr → Option (ConstantExpr × ConstantExpr)
  | .constant w c, .constant w' c' => if (⟨w, c⟩ : ConstantExpr) = ⟨w', c'⟩ then none else some (⟨w, c⟩, ⟨w', c'⟩)
  | _, _ => none

def asConstant : Expr → Option ConstantExpr
  | .constant w c => some ⟨w, c⟩
  | _ => none

def getImpliedValues : Expr → Option ConstantExpr → List ImpliedPair → Except Abort (List ImpliedPair)
  | .constant w c, value, results => do
    if (← deref value) = ⟨w, c⟩ then return results else throw .assertion
  | .notOptimized _, _, results => .ok results
  | .read updates index, value, results => .ok (results ++ [⟨updates, index, value⟩])
  | .select cond trueExpr falseExpr, value, results =>
    match constantArms trueExpr falseExpr with
    | none => .ok results
    | some (trueCE, falseCE) => do
      if (← deref value) = trueCE then getImpliedValues cond (some ⟨1, 1⟩) results
      else if (← deref value) = falseCE then getImpliedValues cond (some ⟨1, 0⟩) results
      else throw .assertion
  | .concat left right, value, results => do
    let results ← getImpliedValues left (some ((← deref value).extract right.getWidth left.getWidth)) results
    getImpliedValues right (some ((← deref value).extract 0 right.getWidth)) results
  | .extract _ _ _, _, results => .ok results
  | .zext src _, value, results => do
    getImpliedValues src (some ((← deref value).extract 0 src.getWidth)) results
  | .sext src _, value, results => do
    getImpliedValues src (some ((← deref value).extract 0 src.getWidth)) results
  | .arith .add left right, value, results =>
    -- C_0 + A = C  =>  A = C - C_0
    match asConstant left with
    | some c => do getImpliedValues right (some ((← deref value).sub c)) results
    | none => .ok results
  | .arith .sub left right, value, results =>
    -- C_0 - A = C  =>  A = C_0 - C
    match asConstant left with
    | some c => do getImpliedValues right (some (c.sub (← deref value))) results
    | none => .ok results
  | .arith .and left right, value, results =>
    if left.getWidth = 1 then do
      if (← deref value).isTrue then
        let results ← getImpliedValues left value results
        getImpliedValues right value results
      else return results
    else .ok results
  | .arith .or left right, value, results => do
    if (← deref value).isZero then
      -- the null reference, not a constant zero
      let results ← getImpliedValues left none results
      getImpliedValues right none results
    else return results
  | .arith .xor left right, value, results =>
    match asConstant left with
    | some c => do getImpliedValues right (some ((← deref value).xor c)) results
    | none => .ok results
  | .arith _ _ _, _, results => .ok results
  | .cmp .eq left right, value, results => do
    let isTrue := (← deref value).isTrue
    match asConstant left with
    | some c =>
      if isTrue then getImpliedValues right (some c) results
      else if c.width = 1 then getImpliedValues right (some c.not) results
      else return results
    | none => return results
  -- `value->Not()`, and then the cast to `EqExpr` fails
  | .cmp .ne _ _, _, _ => .error .assertion
  | .cmp _ _ _, _, results => .ok results
  | .not _, _, results => .ok results

/-! ### The value in use -/

attribute [local simp] getImpliedValues

variable {e l r : Expr} {c d : ConstantExpr}

theorem asConstant_some (h : asConstant e = some c) : e = .constant c.width c.value := by
  cases e <;> cases h
  rfl

theorem constantArms_some {t f : Expr} (h : constantArms t f = some (c, d)) :
    t = .constant c.width c.value ∧ f = .constant d.width d.value ∧ c ≠ d := by
  unfold constantArms at h
  split at h
  · split at h
    · cases h
    · rename_i hne
      cases h
      exact ⟨rfl, rfl, hne⟩
  · cases h

/-- The kinds that dereference the value, or put it into the list. -/
def usesValue : Expr → Bool
  | .constant _ _ | .read _ _ | .concat _ _ | .zext _ _ | .sext _ _ => true
  | .select _ trueExpr falseExpr => (constantArms trueExpr falseExpr).isSome
  | .arith .add left _ | .arith .sub left _ | .arith .xor left _ => (asConstant left).isSome
  | .arith .and left _ => left.getWidth = 1
  | .arith .or _ _ | .cmp .eq _ _ | .cmp .ne _ _ => true
  | _ => false

/-! ### The calls -/

section
variable {kind : ArithKind} {updates : UpdateList} {cond t f src : Expr} {off : Nat} {value : Option ConstantExpr}

theorem get_none (h : usesValue e = false) : getImpliedValues e none = .ok := by
  funext results
  cases e with
  | constant | read | concat | zext | sext => cases h
  | notOptimized | extract | not => rfl
  | select cond t f =>
    rw [usesValue, Option.isSome_eq_false_iff, Option.isNone_iff_eq_none] at h
    rw [getImpliedValues, h]
  | arith kind l r =>
    cases kind with
    | add | sub | xor =>
      rw [usesValue, Option.isSome_eq_false_iff, Option.isNone_iff_eq_none] at h
      rw [getImpliedValues, h]
    | and => exact if_neg (of_decide_eq_false h)
    | or => cases h
    | _ => rfl
  | cmp kind l r =>
    cases kind with
    | eq | ne => cases h
    | _ => rfl

/-- A null reference that is used stops the program, or is put into the list. -/
theorem get_none_uses (h : usesValue e = true) :
    (∃ a, getImpliedValues e none = fun _ => .error a) ∨
      ∃ updates index, e = .read updates index := by
  cases e with
  | constant | concat | zext | sext => exact .inl ⟨.assertion, rfl⟩
  | read updates index => exact .inr ⟨updates, index, rfl⟩
  | notOptimized | extract | not => cases h
  | select cond t f =>
    obtain ⟨arms, harms⟩ := Option.isSome_iff_exists.mp h
    refine .inl ⟨.assertion, funext fun results => ?_⟩
    rw [getImpliedValues, harms]
    rfl
  | arith kind l r =>
    cases kind with
    | add | sub | xor =>
      obtain ⟨c, hc⟩ := Option.isSome_iff_exists.mp h
      refine .inl ⟨.assertion, funext fun results => ?_⟩
      rw [getImpliedValues, hc]
      rfl
    | and => exact .inl ⟨.assertion, funext fun results => if_pos (of_decide_eq_true h)⟩
    | or => exact .inl ⟨.assertion, rfl⟩
    | _ => cases h
  | cmp kind l r =>
    cases kind with
    | eq | ne => exact .inl ⟨.assertion, rfl⟩
    | _ => cases h

theorem get_select {arms : ConstantExpr × ConstantExpr} (harms : constantArms t f = some arms) :
    getImpliedValues (.select cond t f) (some c) =
      if c = arms.1 then getImpliedValues cond (some ⟨1, 1⟩)
      else if c = arms.2 then getImpliedValues cond (some ⟨1, 0⟩) else fun _ => .error .assertion := by
  funext results
  rw [getImpliedValues, harms]
  simp only [deref, Option.elim_some, bind, Except.bind]
  split
  · rfl
  · split <;> rfl

theorem get_concat : getImpliedValues (.concat l r) (some c) = fun results =>
    getImpliedValues l (some (c.extract r.getWidth l.getWidth)) results >>=
      getImpliedValues r (some (c.extract 0 r.getWidth)) := rfl

theorem get_and (h : l.getWidth = 1) : getImpliedValues (.arith .and l r) (some c) =
    if c.isTrue then fun results => getImpliedValues l (some c) results >>= getImpliedValues r (some c) else .ok := by
  funext results
  rw [getImpliedValues, if_pos h]
  simp only [deref, Option.elim_some, bind, Except.bind]
  split <;> rfl

theorem get_and_wide (h : l.getWidth ≠ 1) : getImpliedValues (.arith .and l r) (some c) = .ok := funext fun _ => if_neg h

theorem get_eq : getImpliedValues (.cmp .eq l r) (some c) =
    (asConstant l).elim .ok fun d =>
      if c.isTrue then getImpliedValues r (some d)
      else if d.width = 1 then getImpliedValues r (some d.not) else .ok := by
  funext results
  rw [getImpliedValues]
  simp only [deref, Option.elim_some, bind, Except.bind]
  cases asConstant l with
  | none => rfl
  | some d =>
    dsimp only [Option.elim_some]
    split
    · rfl
    · split <;> rfl

/-- The operators that are undone when a constant stands on the left. -/
theorem get_constant_left (undo : ConstantExpr → ConstantExpr → ConstantExpr)
    (h : (kind = .add ∧ undo = fun c d => c.sub d) ∨ (kind = .sub ∧ undo = fun c d => d.sub c) ∨
      (kind = .xor ∧ undo = fun c d => c.xor d)) :
    getImpliedValues (.arith kind l r) (some c) =
      (asConstant l).elim .ok fun d => getImpliedValues r (some (undo c d)) := by
  funext results
  obtain ⟨rfl, rfl⟩ | ⟨rfl, rfl⟩ | ⟨rfl, rfl⟩ := h <;> rw [getImpliedValues] <;> cases asConstant l <;> rfl

theorem get_or (hzero : c.value = 0) : getImpliedValues (.arith .or l r) (some c) = fun results =>
    getImpliedValues l none results >>= getImpliedValues r none := funext fun _ => if_pos (decide_eq_true hzero)

theorem get_or_ne (hne : c.value ≠ 0) : getImpliedValues (.arith .or l r) (some c) = .ok :=
  funext fun _ => if_neg fun h => hne (of_decide_eq_true h)

end

end ImpliedValue
end CapTaint.Klee
