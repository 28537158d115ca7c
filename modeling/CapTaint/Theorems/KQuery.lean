import CapTaint.KQuery2Z3

/-! The terms of the translation: their sorts and their values. -/

namespace CapTaint
open Z3

/-- The sort that stands for the width of an expression. -/
def KExpr.z3Sort (e : KExpr) : TermSort := if e.getWidth = 1 then .bool else .bitVec KQuery2Z3.BIT_WIDTH

namespace KQuery2Z3

/-! ### Sorts -/

/-- Every application has a sort, and a term of the sort `s` comes out. -/
structure Built (b : Build Z3.Expr) (s : TermSort) : Prop where
  requests : ∀ z ∈ b.requests, z.sort.isSome
  result : ∃ z, b.result = some z ∧ z.sort = some s

/-- The translation of the expression is well sorted at every node. -/
def SortPreserved (e : KExpr) : Prop := Built (eachExprToZ3 e) e.z3Sort

end KQuery2Z3

/-- The operation that a bitwise kind becomes on Booleans. -/
def ArithKind.toBoolOp : ArithKind → BoolOp
  | .and => .and
  | .or => .or
  | _ => .xor

/-- The comparison of two terms. -/
def CmpKind.toZ3 (left right : Z3.Expr) : CmpKind → Z3.Expr
  | .eq => .eq left right
  | .ne => .distinct left right
  | .ult => .rel .ult left right
  | .ule => .rel .ule left right
  | .slt => .rel .slt left right
  | .sle => .rel .sle left right

namespace KQuery2Z3

/-- No one-bit truncation, no constant of more than 64 bits, and a read in each concatenation that is translated. -/
def Translatable : KExpr → Prop
  | .constant width _ => width ≤ 64
  | .read _ _ _ => True
  | .select cond trueExpr falseExpr => Translatable cond ∧ Translatable trueExpr ∧ Translatable falseExpr
  | .concat left right => (∃ range root index, left = .read range root index) ∨ ∃ range root index, right = .read range root index
  | .extract expr _ width => width ≠ 1 ∧ Translatable expr
  | .zext src _ => Translatable src
  | .sext src _ => Translatable src
  | .not expr => Translatable expr
  | .arith _ left right => Translatable left ∧ Translatable right
  | .cmp _ left right => Translatable left ∧ Translatable right

attribute [local simp] Z3.Expr.eval eachExprToZ3

section

attribute [local simp] Z3.Expr.sort

variable {b : Build Z3.Expr} {f : Z3.Expr → Build Z3.Expr} {s s' : TermSort} {z left right : Z3.Expr}

theorem bind_some (hz : b.result = some z) :
    b >>= f = { requests := b.requests ++ (f z).requests, result := (f z).result } := by
  show b.bind f = _
  rw [Build.bind, hz]

theorem bind_none (hz : b.result = none) : b >>= f = { requests := b.requests, result := none } := by
  show b.bind f = _
  rw [Build.bind, hz]

theorem Built.bind (h : Built b s) (hf : ∀ z, z.sort = some s → Built (f z) s') : Built (b >>= f) s' := by
  obtain ⟨z, hz, hsort⟩ := h.result
  rw [bind_some hz]
  refine ⟨fun y hy => ?_, (hf z hsort).result⟩
  rcases List.mem_append.mp hy with hy | hy
  · exact h.requests y hy
  · exact (hf z hsort).requests y hy

theorem built_build (h : z.sort = some s) : Built (build z) s := by
  refine ⟨fun y hy => ?_, z, by simp [build, h], h⟩
  obtain rfl := List.mem_singleton.mp hy
  rw [h]
  rfl

theorem built_pure (h : z.sort = some s) : Built (pure z) s := ⟨by simp [pure], z, rfl, h⟩

theorem Built.tryBuild (h : Built b s) (before : Z3.Expr) : Built (tryBuild before b) s := by
  obtain ⟨z, hz, hsort⟩ := h.result
  exact ⟨h.requests, z, by simp [KQuery2Z3.tryBuild, hz], hsort⟩

theorem isBv_of_sort {w : Nat} (h : z.sort = some (.bitVec w)) : z.isBv = true := by
  simp [Z3.Expr.isBv, h]

theorem isBool_of_sort (h : z.sort = some .bool) : z.isBool = true ∧ z.isBv = false := by
  simp [Z3.Expr.isBv, Z3.Expr.isBool, h]

theorem tryBuild_build (h : z.sort = some s) (before : Z3.Expr) : KQuery2Z3.tryBuild before (build z) = build z := by
  simp [KQuery2Z3.tryBuild, build, h]

theorem sort_bv {w : Nat} (op : BvOp) (hleft : left.sort = some (.bitVec w)) (hright : right.sort = some (.bitVec w)) :
    (Z3.Expr.bv op left right).sort = some (.bitVec w) := by
  simp [Z3.Expr.sort, hleft, hright, sameWidth]

theorem sort_bool (op : BoolOp) (hleft : left.sort = some .bool) (hright : right.sort = some .bool) :
    (Z3.Expr.bool op left right).sort = some .bool := by
  simp [Z3.Expr.sort, hleft, hright]

theorem sort_cmp {w : Nat} (kind : CmpKind) (hleft : left.sort = some (.bitVec w)) (hright : right.sort = some (.bitVec w)) :
    (kind.toZ3 left right).sort = some .bool := by
  cases kind <;> simp [CmpKind.toZ3, Z3.Expr.sort, hleft, hright, sameWidth]

theorem sort_equality {kind : CmpKind} (hkind : kind.isEquality = true) (hleft : left.sort = some s)
    (hright : right.sort = some s) : (kind.toZ3 left right).sort = some .bool := by
  cases kind with
  | eq => simp [CmpKind.toZ3, Z3.Expr.sort, hleft, hright]
  | ne => simp [CmpKind.toZ3, Z3.Expr.sort, hleft, hright]
  | _ => cases hkind

theorem arithToZ3_bv {w : Nat} (kind : ArithKind) (hleft : left.sort = some (.bitVec w))
    (hright : right.sort = some (.bitVec w)) : arithToZ3 kind left right = build (.bv kind.toBvOp left right) := by
  have htry := fun op => tryBuild_build (sort_bv op hleft hright) (.boolVal true)
  cases kind <;> simp only [arithToZ3, isBv_of_sort hleft, isBv_of_sort hright, if_true, and_self, htry]

theorem arithToZ3_bool {kind : ArithKind} (hkind : kind.isBitwise = true) (hleft : left.sort = some .bool)
    (hright : right.sort = some .bool) : arithToZ3 kind left right = build (.bool kind.toBoolOp left right) := by
  obtain ⟨hbool, hbv⟩ := isBool_of_sort hleft
  have htry := fun op => tryBuild_build (sort_bool op hleft hright) (.boolVal true)
  cases kind
  case and => simp [arithToZ3, ArithKind.toBoolOp, hbool, hbv, (isBool_of_sort hright).1]
  case or => simp [arithToZ3, ArithKind.toBoolOp, hbool, hbv, (isBool_of_sort hright).1]
  case xor => simp [arithToZ3, ArithKind.toBoolOp, hbv, htry]
  all_goals cases hkind

theorem cmpToZ3_bv {w : Nat} (kind : CmpKind) (hleft : left.sort = some (.bitVec w))
    (hright : right.sort = some (.bitVec w)) : cmpToZ3 kind left right = build (kind.toZ3 left right) := by
  have htry := fun (kind : CmpKind) => tryBuild_build (sort_cmp kind hleft hright) (.boolVal true)
  cases kind with
  | eq => rfl
  | ne => rfl
  | ult => simpa [cmpToZ3, relToZ3, isBv_of_sort hleft, CmpKind.toZ3] using htry .ult
  | ule => simpa [cmpToZ3, relToZ3, isBv_of_sort hleft, CmpKind.toZ3] using htry .ule
  | slt => simpa [cmpToZ3, relToZ3, isBv_of_sort hleft, CmpKind.toZ3] using htry .slt
  | sle => simpa [cmpToZ3, relToZ3, isBv_of_sort hleft, CmpKind.toZ3] using htry .sle

theorem cmpToZ3_equality {kind : CmpKind} (hkind : kind.isEquality = true) :
    cmpToZ3 kind left right = build (kind.toZ3 left right) := by
  cases kind with
  | eq => rfl
  | ne => rfl
  | _ => cases hkind

theorem oneOrZero_built (h : z.sort = some .bool) : Built (oneOrZero z) (.bitVec BIT_WIDTH) :=
  built_build (by simp [Z3.Expr.sort, h])

theorem getWidth_pos {e : KExpr} (h : e.WellTyped) : 0 < e.getWidth := by
  induction e with
  | constant width value => exact h
  | read range root index => exact h.1
  | select cond trueExpr falseExpr _ iht _ => exact iht h.2.2.2.1
  | concat left right ihl _ => exact Nat.add_pos_left (ihl h.2.2.1) _
  | extract expr offset width => exact h.1
  | zext src width => exact Nat.zero_lt_of_lt h.1
  | sext src width => exact Nat.zero_lt_of_lt h.1
  | not expr ih => exact ih h
  | arith kind left right ihl _ => exact ihl h.2.2.1
  | cmp => exact Nat.zero_lt_one

/-- Two expressions of one width get terms of one sort: both Boolean, or both vectors. -/
theorem z3Sort_cases (e : KExpr) : e.getWidth = 1 ∧ e.z3Sort = .bool ∨ e.getWidth ≠ 1 ∧ e.z3Sort = .bitVec BIT_WIDTH := by
  by_cases h : e.getWidth = 1
  · exact .inl ⟨h, if_pos h⟩
  · exact .inr ⟨h, if_neg h⟩

theorem z3Sort_congr {e e' : KExpr} (h : e.getWidth = e'.getWidth) : e.z3Sort = e'.z3Sort := by
  rw [KExpr.z3Sort, KExpr.z3Sort, h]

theorem sortPreserved_of_translatable {e : KExpr} (htyped : e.WellTyped) (h : Translatable e) : SortPreserved e := by
  induction e with
  | constant width value =>
    rw [SortPreserved, eachExprToZ3, KExpr.z3Sort, KExpr.getWidth]
    split
    next => exact built_build rfl
    next =>
      rw [if_pos (show width ≤ 64 from h)]
      exact built_build rfl
  | read range root index =>
    rw [SortPreserved, eachExprToZ3, KExpr.z3Sort, KExpr.getWidth]
    exact built_build rfl
  | select cond trueExpr falseExpr ihc iht ihf =>
    obtain ⟨hcond, hwidth, hc, ht, hf⟩ := htyped
    have hcondSort : cond.z3Sort = .bool := if_pos hcond
    refine (ihc hc h.1).bind fun c hcs => (iht ht h.2.1).bind fun t hts => (ihf hf h.2.2).bind fun f hfs => ?_
    refine built_build ?_
    rw [Z3.Expr.sort, hcs, hcondSort, hts, hfs, z3Sort_congr hwidth.symm, if_pos ⟨rfl, rfl⟩]
    rfl
  | concat left right =>
    have hl := getWidth_pos htyped.2.2.1
    have hr := getWidth_pos htyped.2.2.2
    have hwidth : (KExpr.concat left right).getWidth ≠ 1 := by
      rw [KExpr.getWidth]
      omega
    rw [SortPreserved, eachExprToZ3, KExpr.z3Sort, if_neg hwidth]
    rcases h with ⟨range, root, index, rfl⟩ | ⟨range, root, index, rfl⟩
    · exact built_build rfl
    · cases left <;> exact built_build rfl
  | extract expr offset width ih =>
    obtain ⟨hpos, hle, he⟩ := htyped
    have hexpr : expr.z3Sort = .bitVec BIT_WIDTH := if_neg (by have := h.1; omega)
    rw [SortPreserved, eachExprToZ3, KExpr.z3Sort, KExpr.getWidth, if_neg h.1]
    refine (ih he h.2).bind fun src hsrc => ?_
    rw [if_neg h.1]
    exact built_pure (hexpr ▸ hsrc)
  | zext src width ih =>
    have hpos := getWidth_pos htyped.2
    have hlt := htyped.1
    rw [SortPreserved, eachExprToZ3, KExpr.z3Sort, KExpr.getWidth, if_neg (by omega)]
    refine (ih htyped.2 h).bind fun z hz => ?_
    rcases z3Sort_cases src with ⟨hone, hsort⟩ | ⟨hwide, hsort⟩
    · rw [if_pos hone]
      exact oneOrZero_built (hsort ▸ hz)
    · rw [if_neg hwide]
      exact built_pure (hsort ▸ hz)
  | sext src width ih =>
    have hpos := getWidth_pos htyped.2
    have hlt := htyped.1
    have hwidth : width ≠ 1 := by omega
    rw [SortPreserved, eachExprToZ3, KExpr.z3Sort, KExpr.getWidth, if_neg hwidth]
    refine (ih htyped.2 h).bind fun z hz => ?_
    rcases z3Sort_cases src with ⟨hone, hsort⟩ | ⟨hwide, hsort⟩
    · rw [if_pos ⟨hone, hwidth⟩]
      exact oneOrZero_built (hsort ▸ hz)
    · rw [if_neg fun hboth => hwide hboth.1]
      exact built_pure (hsort ▸ hz)
  | not expr ih =>
    rw [SortPreserved, show expr.not.z3Sort = expr.z3Sort from rfl, eachExprToZ3]
    refine (ih htyped h).bind fun z hz => ?_
    rcases z3Sort_cases expr with ⟨-, hsort⟩ | ⟨-, hsort⟩
    · rw [hsort] at hz ⊢
      rw [(isBool_of_sort hz).2, if_neg Bool.false_ne_true]
      exact (built_build (by simp [Z3.Expr.sort, hz])).tryBuild z
    · rw [hsort] at hz ⊢
      rw [isBv_of_sort hz, if_pos rfl]
      exact (built_build (by simp [Z3.Expr.sort, hz, sameWidth])).tryBuild z
  | arith kind left right ihl ihr =>
    obtain ⟨hwidth, hkind, hl, hr⟩ := htyped
    rw [SortPreserved, show (KExpr.arith kind left right).z3Sort = left.z3Sort from rfl, eachExprToZ3]
    refine (ihl hl h.1).bind fun l hls => (ihr hr h.2).bind fun r hrs => ?_
    rw [z3Sort_congr hwidth.symm] at hrs
    rcases z3Sort_cases left with ⟨hone, hsort⟩ | ⟨-, hsort⟩
    · rw [hsort] at hls hrs ⊢
      have hbitwise : kind.isBitwise = true := by simpa using fun h => hkind h hone
      rw [arithToZ3_bool hbitwise hls hrs]
      exact built_build (sort_bool _ hls hrs)
    · rw [hsort] at hls hrs ⊢
      rw [arithToZ3_bv kind hls hrs]
      exact built_build (sort_bv _ hls hrs)
  | cmp kind left right ihl ihr =>
    obtain ⟨hwidth, hkind, hl, hr⟩ := htyped
    have hresult : (KExpr.cmp kind left right).z3Sort = .bool := if_pos rfl
    rw [SortPreserved, hresult, eachExprToZ3]
    refine (ihl hl h.1).bind fun l hls => (ihr hr h.2).bind fun r hrs => ?_
    rw [z3Sort_congr hwidth.symm] at hrs
    rcases z3Sort_cases left with ⟨hone, hsort⟩ | ⟨-, hsort⟩
    · have hequality : kind.isEquality = true := by simpa using fun h => hkind h hone
      rw [cmpToZ3_equality hequality]
      exact built_build (sort_equality hequality hls hrs)
    · rw [hsort] at hls hrs
      rw [cmpToZ3_bv kind hls hrs]
      exact built_build (sort_cmp kind hls hrs)

end

/-- Nothing is thrown, and a term comes out. -/
def Clean (b : Build Z3.Expr) : Prop := (∀ z ∈ b.requests, z.sort.isSome) ∧ b.result.isSome

theorem Clean.of_bind {b : Build Z3.Expr} {f : Z3.Expr → Build Z3.Expr} (h : Clean (b >>= f)) :
    Clean b ∧ ∃ z, Clean (f z) := by
  cases hz : b.result with
  | none =>
    rw [bind_none hz] at h
    cases h.2
  | some z =>
    rw [bind_some hz] at h
    refine ⟨⟨fun y hy => h.1 y (List.mem_append_left _ hy), by rw [hz]; rfl⟩, z, fun y hy => ?_, h.2⟩
    exact h.1 y (List.mem_append_right _ hy)

/-- The condition of the conditional that a one-bit truncation builds is a vector. -/
theorem not_clean_bit (src : Z3.Expr) : ¬Clean (build (.extract 0 0 src) >>= oneOrZero) := by
  intro h
  cases hsort : (Z3.Expr.extract 0 0 src).sort with
  | none =>
    have hsome := h.of_bind.1.2
    simp [build, hsort] at hsome
  | some s =>
    have hresult : (build (.extract 0 0 src)).result = some (.extract 0 0 src) := by simp [build, hsort]
    have hs : s = .bitVec 1 := by
      rw [Z3.Expr.sort] at hsort
      split at hsort
      next =>
        split at hsort
        · exact (Option.some.inj hsort).symm
        · cases hsort
      next => cases hsort
    have hite : ∀ t f, (Z3.Expr.ite (.extract 0 0 src) t f).sort = none := by
      intro t f
      rw [Z3.Expr.sort, hsort, hs]
      exact if_neg fun hboth => by cases hboth.1
    rw [bind_some hresult] at h
    have hsome : (oneOrZero (.extract 0 0 src)).result.isSome := h.2
    simp only [oneOrZero, build, hite] at hsome
    cases hsome

theorem translatable_of_clean {e : KExpr} (h : Clean (eachExprToZ3 e)) : Translatable e := by
  induction e with
  | constant width value =>
    rw [eachExprToZ3] at h
    split at h
    next hone =>
      show width ≤ 64
      omega
    next =>
      split at h
      next hle => exact hle
      next => cases h.2
  | read => trivial
  | select cond trueExpr falseExpr ihc iht ihf =>
    obtain ⟨hcond, _, hrest⟩ := h.of_bind
    obtain ⟨htrue, _, hrest⟩ := hrest.of_bind
    exact ⟨ihc hcond, iht htrue, ihf hrest.of_bind.1⟩
  | concat left right =>
    rw [eachExprToZ3] at h
    unfold concatToZ3 at h
    split at h
    next => exact .inl ⟨_, _, _, rfl⟩
    next => exact .inr ⟨_, _, _, rfl⟩
    next => cases h.2
  | extract expr offset width ih =>
    obtain ⟨hexpr, src, hrest⟩ := h.of_bind
    refine ⟨fun hone => ?_, ih hexpr⟩
    rw [if_pos hone] at hrest
    exact not_clean_bit src hrest
  | zext src width ih => exact ih h.of_bind.1
  | sext src width ih => exact ih h.of_bind.1
  | not expr ih => exact ih h.of_bind.1
  | arith kind left right ihl ihr | cmp kind left right ihl ihr =>
    obtain ⟨hleft, _, hrest⟩ := h.of_bind
    exact ⟨ihl hleft, ihr hrest.of_bind.1⟩

/-- The translation of a well-typed expression is well sorted exactly when it truncates nothing to one bit, has no
    constant of more than 64 bits and has a read in each concatenation. -/
theorem sortPreserved_iff {e : KExpr} (h : e.WellTyped) : SortPreserved e ↔ Translatable e := by
  refine ⟨fun hsort => translatable_of_clean ⟨hsort.requests, ?_⟩, sortPreserved_of_translatable h⟩
  obtain ⟨z, hz, -⟩ := hsort.result
  rw [hz]
  rfl

/-- The symbolic byte number `index` of a variable. -/
def byteOf (root : String) (index : Nat) : KExpr := .read 8 root (.constant 32 (BitVec.ofNat 32 index))

theorem sortPreserved_zext :
    (KExpr.zext (byteOf "G1_8L1" 0) 32).WellTyped ∧
      (SortPreserved (.zext (byteOf "G1_8L1" 0) 32) ↔ Translatable (.zext (byteOf "G1_8L1" 0) 32)) := by
  have htyped : (KExpr.zext (byteOf "G1_8L1" 0) 32).WellTyped := by simp [KExpr.WellTyped, byteOf, KExpr.getWidth]
  exact ⟨htyped, sortPreserved_iff htyped⟩

/-- The lowest bit of a variable: z3 refuses the conditional that is built for it. -/
theorem not_sortPreserved_bit : ¬∀ e : KExpr, e.WellTyped → SortPreserved e := by
  intro hall
  have hsort := hall (.extract (byteOf "G1_8L1" 0) 0 1) (by simp [KExpr.WellTyped, byteOf, KExpr.getWidth])
  obtain ⟨z, hz, -⟩ := hsort.result
  have hnone : (eachExprToZ3 (.extract (byteOf "G1_8L1" 0) 0 1)).result = none := by decide +kernel
  rw [hnone] at hz
  cases hz

/-! ### Values -/

/-- A 64-bit variable, as a load reads it. -/
def wholeVar (root : String) : KExpr :=
  .concat (byteOf root 7) (.concat (byteOf root 6) (.concat (byteOf root 5) (.concat (byteOf root 4)
    (.concat (byteOf root 3) (.concat (byteOf root 2) (.concat (byteOf root 1) (byteOf root 0)))))))

/-- The expressions without casts whose parts have 64 bits or one; variables are read as a whole. -/
def FullWidth : KExpr → Prop
  | .constant width _ => width = 1 ∨ width = 64
  | .read range _ index => range = 1 ∧ index = .constant 32 0
  | .select cond trueExpr falseExpr => FullWidth cond ∧ FullWidth trueExpr ∧ FullWidth falseExpr
  | .concat left right => ∃ root, .concat left right = wholeVar root
  | .extract _ _ _ | .zext _ _ | .sext _ _ => False
  | .not expr => FullWidth expr
  | .arith _ left right => FullWidth left ∧ FullWidth right
  | .cmp _ left right => FullWidth left ∧ FullWidth right

def ArithKind.isDivision : ArithKind → Bool
  | .udiv | .sdiv | .urem | .srem => true
  | _ => false

/-- No division by zero. -/
def DivisorsNonzero (arrays : String → Nat → Nat) : KExpr → Prop
  | .select cond trueExpr falseExpr =>
    DivisorsNonzero arrays cond ∧ DivisorsNonzero arrays trueExpr ∧ DivisorsNonzero arrays falseExpr
  | .extract expr _ _ => DivisorsNonzero arrays expr
  | .zext src _ => DivisorsNonzero arrays src
  | .sext src _ => DivisorsNonzero arrays src
  | .not expr => DivisorsNonzero arrays expr
  | .arith kind left right =>
    (ArithKind.isDivision kind = true → (right.value arrays).toNat ≠ 0) ∧ DivisorsNonzero arrays left ∧
      DivisorsNonzero arrays right
  | .cmp _ left right => DivisorsNonzero arrays left ∧ DivisorsNonzero arrays right
  | _ => True

/-- The constants of z3 for the arrays: a Boolean one for a one-bit array, a vector for the bytes of a variable. -/
def valuation (arrays : String → Nat → Nat) : Z3.Valuation where
  bool root := (BitVec.ofNat 1 (arrays root 0)).toNat ≠ 0
  bitVec w root := ((wholeVar root).value arrays).setWidth w

/-- The value of an expression as z3 should see it. -/
def z3Value {w : Nat} (v : BitVec w) : Z3.Value :=
  if w = 1 then .bool (v.toNat ≠ 0) else .bitVec BIT_WIDTH (v.setWidth BIT_WIDTH)

/-- The term has the value of the expression, for all values of the variables. -/
def Preserved (e : KExpr) : Prop :=
  ∀ arrays, DivisorsNonzero arrays e →
    ∃ z, (eachExprToZ3 e).result = some z ∧ z.eval (valuation arrays) = some (z3Value (e.value arrays))

/-- Every 64-bit constant is an `int`. -/
def ConstantsFit : KExpr → Prop
  | .constant width value => width = 64 → -2 ^ 31 ≤ value.toInt ∧ value.toInt < 2 ^ 31
  | .select cond trueExpr falseExpr => ConstantsFit cond ∧ ConstantsFit trueExpr ∧ ConstantsFit falseExpr
  | .not expr => ConstantsFit expr
  | .arith _ left right => ConstantsFit left ∧ ConstantsFit right
  | .cmp _ left right => ConstantsFit left ∧ ConstantsFit right
  | _ => True

/-- The expression and the parts of it that are translated. -/
def nodes : KExpr → List KExpr
  | .select cond trueExpr falseExpr =>
    .select cond trueExpr falseExpr :: (nodes cond ++ nodes trueExpr ++ nodes falseExpr)
  | .not expr => .not expr :: nodes expr
  | .arith kind left right => .arith kind left right :: (nodes left ++ nodes right)
  | .cmp kind left right => .cmp kind left right :: (nodes left ++ nodes right)
  | e => [e]

theorem intVal_eq_iff (v : BitVec 64) : intVal v = v ↔ -2 ^ 31 ≤ v.toInt ∧ v.toInt < 2 ^ 31 := by
  have hint : (intVal v).toInt = v.toInt.bmod (2 ^ 32) := by
    rw [intVal, BitVec.toInt_signExtend_of_le (by decide), BitVec.setWidth_eq, BitVec.toInt_setWidth,
      BitVec.toInt_eq_toNat_bmod, Int.bmod_bmod_of_dvd (by decide)]
  rw [← BitVec.toInt_inj, hint]
  constructor
  · intro h
    rw [← h]
    constructor
    · exact Int.le_bmod (by decide)
    · exact Int.bmod_lt (by decide)
  · rintro ⟨hlow, hhigh⟩
    exact Int.bmod_eq_of_le (by omega) (by omega)

theorem arith_eval {w v : Nat} (kind : ArithKind) (x : BitVec w) (y : BitVec v) (hw : w = 64) (hv : v = 64)
    (hy : ArithKind.isDivision kind = true → y.toNat ≠ 0) :
    (kind.eval x (y.setWidth w)).setWidth BIT_WIDTH = kind.toBvOp.eval (x.setWidth BIT_WIDTH) (y.setWidth BIT_WIDTH) := by
  subst hw hv
  simp only [BitVec.setWidth_eq, BIT_WIDTH]
  have hzero : ArithKind.isDivision kind = true → y ≠ 0#64 := by
    rintro hkind rfl
    exact hy hkind rfl
  cases kind
  case udiv =>
    show x / y = x.smtUDiv y
    rw [BitVec.smtUDiv_eq, if_neg (hzero rfl)]
  case sdiv =>
    have hne : y ≠ 0#64 := hzero rfl
    have hneg : -y ≠ 0#64 := fun h => hne (by simpa using h)
    show x.sdiv y = x.smtSDiv y
    rw [BitVec.sdiv_eq, BitVec.smtSDiv_eq]
    simp only [BitVec.smtUDiv_eq, hne, hneg, if_false]
    rfl
  all_goals rfl

/-- One bit and a Boolean. -/
theorem arith_eval_bit {w v : Nat} {kind : ArithKind} (hkind : kind.isBitwise = true) (x : BitVec w) (y : BitVec v)
    (hw : w = 1) (hv : v = 1) :
    decide ((kind.eval x (y.setWidth w)).toNat ≠ 0) = kind.toBoolOp.eval (decide (x.toNat ≠ 0)) (decide (y.toNat ≠ 0)) := by
  subst hw hv
  rw [BitVec.setWidth_eq]
  cases kind
  case and =>
    have hbits : ∀ x y : BitVec 1, decide ((x &&& y).toNat ≠ 0) = (decide (x.toNat ≠ 0) && decide (y.toNat ≠ 0)) := by decide
    exact hbits x y
  case or =>
    have hbits : ∀ x y : BitVec 1, decide ((x ||| y).toNat ≠ 0) = (decide (x.toNat ≠ 0) || decide (y.toNat ≠ 0)) := by decide
    exact hbits x y
  case xor =>
    have hbits : ∀ x y : BitVec 1, decide ((x ^^^ y).toNat ≠ 0) = (decide (x.toNat ≠ 0) ^^ decide (y.toNat ≠ 0)) := by decide
    exact hbits x y
  all_goals cases hkind

theorem z3Value_bit {w : Nat} (x : BitVec w) (hw : w = 1) : z3Value x = .bool (decide (x.toNat ≠ 0)) := if_pos hw

theorem z3Value_word {w : Nat} (x : BitVec w) (hw : w = 64) : z3Value x = .bitVec BIT_WIDTH (x.setWidth BIT_WIDTH) :=
  if_neg (by omega)

theorem cmp_eval {w v : Nat} (kind : CmpKind) (x : BitVec w) (y : BitVec v) (hw : w = 64) (hv : v = 64) {σ : Z3.Valuation}
    {left right : Z3.Expr} (hleft : left.eval σ = some (.bitVec BIT_WIDTH (x.setWidth BIT_WIDTH)))
    (hright : right.eval σ = some (.bitVec BIT_WIDTH (y.setWidth BIT_WIDTH))) :
    (kind.toZ3 left right).eval σ = some (.bool (kind.eval x (y.setWidth w))) := by
  subst hw hv
  rw [BitVec.setWidth_eq] at *
  cases kind <;> simp [CmpKind.toZ3, Z3.Expr.eval, hleft, hright, CmpKind.eval, Z3.onBitVecs, Z3.BvRel.eval]

theorem equality_eval_bit {w v : Nat} {kind : CmpKind} (hkind : kind.isEquality = true) (x : BitVec w) (y : BitVec v)
    (hw : w = 1) (hv : v = 1) {σ : Z3.Valuation} {left right : Z3.Expr}
    (hleft : left.eval σ = some (.bool (decide (x.toNat ≠ 0)))) (hright : right.eval σ = some (.bool (decide (y.toNat ≠ 0)))) :
    (kind.toZ3 left right).eval σ = some (.bool (kind.eval x (y.setWidth w))) := by
  subst hw hv
  rw [BitVec.setWidth_eq]
  have hbits : ∀ x y : BitVec 1, decide (x.toNat ≠ 0) = decide (y.toNat ≠ 0) ↔ x = y := by decide
  cases kind with
  | eq => simp only [CmpKind.toZ3, Z3.Expr.eval, hleft, hright, CmpKind.eval, Z3.Value.bool.injEq, hbits]
  | ne => simp only [CmpKind.toZ3, Z3.Expr.eval, hleft, hright, CmpKind.eval, ne_eq, Z3.Value.bool.injEq, hbits]
  | _ => cases hkind

/-- The term of the translation has the sort and the value of an expression `e`. -/
def Denotes (arrays : String → Nat → Nat) (b : Build Z3.Expr) (e : KExpr) : Prop :=
  ∃ z, b.result = some z ∧ z.sort = some e.z3Sort ∧ z.eval (valuation arrays) = some (z3Value (e.value arrays))

section
variable {arrays : String → Nat → Nat} {b : Build Z3.Expr} {f : Z3.Expr → Build Z3.Expr} {e e' : KExpr} {z : Z3.Expr}

theorem Denotes.bind (h : Denotes arrays b e)
    (hf : ∀ z, z.sort = some e.z3Sort → z.eval (valuation arrays) = some (z3Value (e.value arrays)) → Denotes arrays (f z) e') :
    Denotes arrays (b >>= f) e' := by
  obtain ⟨z, hz, hsort, heval⟩ := h
  rw [bind_some hz]
  exact hf z hsort heval

theorem denotes_build (hsort : z.sort = some e.z3Sort)
    (heval : z.eval (valuation arrays) = some (z3Value (e.value arrays))) : Denotes arrays (build z) e :=
  ⟨z, by simp [build, hsort], hsort, heval⟩

theorem getWidth_of_fullWidth (htyped : e.WellTyped) (h : FullWidth e) : e.getWidth = 1 ∨ e.getWidth = 64 := by
  induction e with
  | constant width value => exact h
  | read range root index => exact .inl h.1
  | select cond trueExpr falseExpr _ iht _ => exact iht htyped.2.2.2.1 h.2.1
  | concat left right =>
    obtain ⟨root, hroot⟩ := h
    rw [hroot]
    exact .inr rfl
  | extract => cases h
  | zext => cases h
  | sext => cases h
  | not expr ih => exact ih htyped h
  | arith kind left right ihl _ => exact ihl htyped.2.2.1 h.1
  | cmp => exact .inl rfl

theorem z3Value_ite {w v : Nat} (p : Prop) [Decidable p] (x : BitVec w) (y : BitVec v) (h : w = v) :
    z3Value (if p then x else y.setWidth w) = if p then z3Value x else z3Value y := by
  subst h
  rw [BitVec.setWidth_eq]
  exact apply_ite z3Value p x y

theorem not_eval_bit {w : Nat} (x : BitVec w) (hw : w = 1) : decide ((~~~x).toNat ≠ 0) = !decide (x.toNat ≠ 0) := by
  subst hw
  have hbits : ∀ x : BitVec 1, decide ((~~~x).toNat ≠ 0) = !decide (x.toNat ≠ 0) := by decide
  exact hbits x

theorem not_eval_word {w : Nat} (x : BitVec w) (hw : w = 64) :
    (~~~x).setWidth BIT_WIDTH = ~~~(x.setWidth BIT_WIDTH) := by
  subst hw
  simp only [BitVec.setWidth_eq]

theorem toNat_ofBool_ne_zero (p : Bool) : decide ((BitVec.ofBool p).toNat ≠ 0) = p := by
  cases p <;> decide

theorem denotes_of_constantsFit (htyped : e.WellTyped) (hfull : FullWidth e) (hfit : ConstantsFit e)
    (hdiv : DivisorsNonzero arrays e) : Denotes arrays (eachExprToZ3 e) e := by
  induction e with
  | constant width value =>
    rw [eachExprToZ3]
    rcases hfull with rfl | rfl
    · rw [if_pos rfl]
      exact denotes_build rfl rfl
    · rw [if_neg (by decide), if_pos (Nat.le_refl 64), (intVal_eq_iff value).mpr (hfit rfl)]
      refine denotes_build rfl ?_
      show _ = some (z3Value value)
      rw [z3Value_word _ rfl, BitVec.setWidth_eq]
      rfl
  | read range root index =>
    obtain ⟨rfl, rfl⟩ := hfull
    exact denotes_build rfl rfl
  | select cond trueExpr falseExpr ihc iht ihf =>
    obtain ⟨hcond, hwidth, hc, ht, hf⟩ := htyped
    refine (ihc hc hfull.1 hfit.1 hdiv.1).bind fun c hcs hcv => ?_
    refine (iht ht hfull.2.1 hfit.2.1 hdiv.2.1).bind fun t hts htv => ?_
    refine (ihf hf hfull.2.2 hfit.2.2 hdiv.2.2).bind fun f hfs hfv => denotes_build ?_ ?_
    · rw [Z3.Expr.sort, hcs, hts, hfs, z3Sort_congr hwidth.symm, if_pos ⟨congrArg some (if_pos hcond), rfl⟩]
      rfl
    · have hvalue : z3Value ((KExpr.select cond trueExpr falseExpr).value arrays) =
          if (cond.value arrays).toNat ≠ 0 then z3Value (trueExpr.value arrays) else z3Value (falseExpr.value arrays) :=
        z3Value_ite _ _ _ hwidth
      rw [z3Value_bit _ hcond] at hcv
      simp only [Z3.Expr.eval, hcv, htv, hfv, hvalue, decide_eq_true_eq]
      exact (apply_ite some _ _ _).symm
  | concat left right =>
    obtain ⟨root, hroot⟩ := hfull
    rw [hroot]
    refine denotes_build rfl ?_
    exact congrArg some (z3Value_word ((wholeVar root).value arrays) rfl).symm
  | extract => cases hfull
  | zext => cases hfull
  | sext => cases hfull
  | not expr ih =>
    refine (ih htyped hfull hfit hdiv).bind fun res hsort heval => ?_
    rcases getWidth_of_fullWidth (e := expr) htyped hfull with hone | hword
    · have hbool : expr.z3Sort = .bool := if_pos hone
      rw [hbool] at hsort
      have hnot : (Z3.Expr.not res).sort = some .bool := by simp [Z3.Expr.sort, hsort]
      rw [(isBool_of_sort hsort).2, if_neg Bool.false_ne_true, tryBuild_build hnot]
      refine denotes_build (hnot.trans (congrArg some hbool.symm)) ?_
      have hvalue : z3Value (expr.not.value arrays) = .bool !decide ((expr.value arrays).toNat ≠ 0) :=
        (z3Value_bit (~~~expr.value arrays) hone).trans (congrArg _ (not_eval_bit _ hone))
      rw [z3Value_bit _ hone] at heval
      simp only [Z3.Expr.eval, heval, hvalue]
    · have hvec : expr.z3Sort = .bitVec BIT_WIDTH := if_neg (by omega)
      rw [hvec] at hsort
      have hnot : (Z3.Expr.bvnot res).sort = some (.bitVec BIT_WIDTH) := by simp [Z3.Expr.sort, hsort, sameWidth]
      rw [isBv_of_sort hsort, if_pos rfl, tryBuild_build hnot]
      refine denotes_build (hnot.trans (congrArg some hvec.symm)) ?_
      have hvalue : z3Value (expr.not.value arrays) = .bitVec BIT_WIDTH (~~~(expr.value arrays).setWidth BIT_WIDTH) :=
        (z3Value_word (~~~expr.value arrays) hword).trans (congrArg _ (not_eval_word _ hword))
      rw [z3Value_word _ hword] at heval
      simp only [Z3.Expr.eval, heval, hvalue]
  | arith kind left right ihl ihr =>
    obtain ⟨hwidth, hkind, hl, hr⟩ := htyped
    refine (ihl hl hfull.1 hfit.1 hdiv.2.1).bind fun l hls hlv => ?_
    refine (ihr hr hfull.2 hfit.2 hdiv.2.2).bind fun r hrs hrv => ?_
    rw [z3Sort_congr hwidth.symm] at hrs
    rcases getWidth_of_fullWidth hl hfull.1 with hone | hword
    · have hbool : left.z3Sort = .bool := if_pos hone
      have hbitwise : kind.isBitwise = true := by simpa using fun h => hkind h hone
      rw [hbool] at hls hrs
      rw [arithToZ3_bool hbitwise hls hrs]
      refine denotes_build ((sort_bool _ hls hrs).trans (congrArg some hbool.symm)) ?_
      rw [z3Value_bit _ hone] at hlv
      rw [z3Value_bit _ (hwidth ▸ hone)] at hrv
      have hvalue : z3Value ((KExpr.arith kind left right).value arrays) = .bool (kind.toBoolOp.eval _ _) :=
        (z3Value_bit (kind.eval _ _) hone).trans (congrArg _ (arith_eval_bit hbitwise _ _ hone (hwidth ▸ hone)))
      simp only [Z3.Expr.eval, hlv, hrv, hvalue]
    · have hvec : left.z3Sort = .bitVec BIT_WIDTH := if_neg (by omega)
      rw [hvec] at hls hrs
      rw [arithToZ3_bv kind hls hrs]
      refine denotes_build ((sort_bv _ hls hrs).trans (congrArg some hvec.symm)) ?_
      rw [z3Value_word _ hword] at hlv
      rw [z3Value_word _ (hwidth ▸ hword)] at hrv
      have hvalue : z3Value ((KExpr.arith kind left right).value arrays) = .bitVec BIT_WIDTH (kind.toBvOp.eval _ _) :=
        (z3Value_word (kind.eval _ _) hword).trans (congrArg _ (arith_eval kind _ _ hword (hwidth ▸ hword) hdiv.1))
      simp only [Z3.Expr.eval, hlv, hrv, hvalue, onBitVecs, dif_pos]
  | cmp kind left right ihl ihr =>
    obtain ⟨hwidth, hkind, hl, hr⟩ := htyped
    refine (ihl hl hfull.1 hfit.1 hdiv.1).bind fun l hls hlv => ?_
    refine (ihr hr hfull.2 hfit.2 hdiv.2).bind fun r hrs hrv => ?_
    rw [z3Sort_congr hwidth.symm] at hrs
    have hresult : z3Value ((KExpr.cmp kind left right).value arrays) =
        .bool (kind.eval (left.value arrays) ((right.value arrays).setWidth left.getWidth)) :=
      (z3Value_bit (BitVec.ofBool _) rfl).trans (congrArg _ (toNat_ofBool_ne_zero _))
    rcases getWidth_of_fullWidth hl hfull.1 with hone | hword
    · have hequality : kind.isEquality = true := by simpa using fun h => hkind h hone
      rw [cmpToZ3_equality hequality]
      refine denotes_build (sort_equality hequality hls hrs) ?_
      rw [z3Value_bit _ hone] at hlv
      rw [z3Value_bit _ (hwidth ▸ hone)] at hrv
      rw [hresult, equality_eval_bit hequality _ _ hone (hwidth ▸ hone) hlv hrv]
    · have hvec : left.z3Sort = .bitVec BIT_WIDTH := if_neg (by omega)
      rw [hvec] at hls hrs
      rw [cmpToZ3_bv kind hls hrs]
      refine denotes_build (sort_cmp kind hls hrs) ?_
      rw [z3Value_word _ hword] at hlv
      rw [z3Value_word _ (hwidth ▸ hword)] at hrv
      rw [hresult, cmp_eval kind _ _ hword (hwidth ▸ hword) hlv hrv]

theorem preserved_of_constantsFit (htyped : e.WellTyped) (hfull : FullWidth e) (hfit : ConstantsFit e) : Preserved e := by
  intro arrays hdiv
  obtain ⟨z, hz, -, heval⟩ := denotes_of_constantsFit htyped hfull hfit hdiv
  exact ⟨z, hz, heval⟩

theorem self_mem_nodes (e : KExpr) : e ∈ nodes e := by
  cases e <;> simp [nodes]

/-- The parts of an expression meet its conditions. -/
theorem preserved_nodes (htyped : e.WellTyped) (hfull : FullWidth e) (hfit : ConstantsFit e) :
    ∀ sub ∈ nodes e, Preserved sub := by
  have hself := preserved_of_constantsFit htyped hfull hfit
  induction e with
  | select cond trueExpr falseExpr ihc iht ihf =>
    obtain ⟨-, -, hc, ht, hf⟩ := htyped
    have hcond := preserved_of_constantsFit hc hfull.1 hfit.1
    have htrue := preserved_of_constantsFit ht hfull.2.1 hfit.2.1
    have hfalse := preserved_of_constantsFit hf hfull.2.2 hfit.2.2
    simp only [nodes, List.mem_cons, List.mem_append]
    rintro sub (rfl | (hsub | hsub) | hsub)
    · exact hself
    · exact ihc hc hfull.1 hfit.1 hcond sub hsub
    · exact iht ht hfull.2.1 hfit.2.1 htrue sub hsub
    · exact ihf hf hfull.2.2 hfit.2.2 hfalse sub hsub
  | not expr ih =>
    simp only [nodes, List.mem_cons]
    rintro sub (rfl | hsub)
    · exact hself
    · exact ih htyped hfull hfit (preserved_of_constantsFit (e := expr) htyped hfull hfit) sub hsub
  | arith kind left right ihl ihr | cmp kind left right ihl ihr =>
    obtain ⟨-, -, hl, hr⟩ := htyped
    simp only [nodes, List.mem_cons, List.mem_append]
    rintro sub (rfl | hsub | hsub)
    · exact hself
    · exact ihl hl hfull.1 hfit.1 (preserved_of_constantsFit hl hfull.1 hfit.1) sub hsub
    · exact ihr hr hfull.2 hfit.2 (preserved_of_constantsFit hr hfull.2 hfit.2) sub hsub
  | _ =>
    simp only [nodes, List.mem_singleton]
    rintro sub rfl
    exact hself

theorem constantsFit_of_preserved_nodes (h : ∀ sub ∈ nodes e, Preserved sub) : ConstantsFit e := by
  induction e with
  | constant width value =>
    rintro rfl
    obtain ⟨z, hz, heval⟩ := h (.constant 64 value) (self_mem_nodes _) (fun _ _ => 0) trivial
    -- the term is the constant `intVal value`, so its value is that of the expression only when nothing is lost
    obtain rfl : z = .bvVal BIT_WIDTH (intVal value) := by
      simpa [eachExprToZ3, build, Z3.Expr.sort] using hz.symm
    have hvalue : z3Value value = .bitVec BIT_WIDTH value := by
      rw [z3Value_word _ rfl, BitVec.setWidth_eq]
    have hsame : Z3.Value.bitVec BIT_WIDTH (intVal value) = .bitVec BIT_WIDTH value :=
      (Option.some.inj heval).trans hvalue
    exact (intVal_eq_iff value).mp (by simpa using hsame)
  | select cond trueExpr falseExpr ihc iht ihf =>
    simp only [nodes, List.mem_cons, List.mem_append] at h
    refine ⟨ihc fun sub hsub => ?_, iht fun sub hsub => ?_, ihf fun sub hsub => ?_⟩
    · exact h sub (.inr (.inl (.inl hsub)))
    · exact h sub (.inr (.inl (.inr hsub)))
    · exact h sub (.inr (.inr hsub))
  | not expr ih => exact ih fun sub hsub => h sub (List.mem_cons_of_mem _ hsub)
  | arith kind left right ihl ihr | cmp kind left right ihl ihr =>
    simp only [nodes, List.mem_cons, List.mem_append] at h
    exact ⟨ihl fun sub hsub => h sub (.inr (.inl hsub)), ihr fun sub hsub => h sub (.inr (.inr hsub))⟩
  | _ => trivial

/-- At full width the term has the value of the expression if its 64-bit constants are values of an `int`; and it has
    at every node only if they are. -/
theorem preserved_fullWidth (htyped : e.WellTyped) (hfull : FullWidth e) :
    (ConstantsFit e → Preserved e) ∧ ((∀ sub ∈ nodes e, Preserved sub) ↔ ConstantsFit e) :=
  ⟨preserved_of_constantsFit htyped hfull, constantsFit_of_preserved_nodes, preserved_nodes htyped hfull⟩

/-- `x / -2 < 7`, over a variable `x`. -/
def negativeDivisor : KExpr :=
  .cmp .slt (.arith .sdiv (wholeVar "G1_8L1") (.constant 64 (-2))) (.constant 64 7)

theorem preserved_negativeDivisor :
    negativeDivisor.WellTyped ∧ FullWidth negativeDivisor ∧ ConstantsFit negativeDivisor ∧ Preserved negativeDivisor := by
  have htyped : negativeDivisor.WellTyped := by
    simp [negativeDivisor, wholeVar, byteOf, KExpr.WellTyped, KExpr.getWidth, KExpr.isReads, ArithKind.isBitwise,
      CmpKind.isEquality]
  have hfull : FullWidth negativeDivisor := ⟨⟨⟨"G1_8L1", rfl⟩, .inr rfl⟩, .inr rfl⟩
  have hfit : ConstantsFit negativeDivisor := ⟨⟨trivial, fun _ => by decide⟩, fun _ => by decide⟩
  exact ⟨htyped, hfull, hfit, (preserved_fullWidth htyped hfull).1 hfit⟩

/-- The constant `2 ^ 32` becomes zero. -/
theorem not_preserved_large : ¬∀ e : KExpr, e.WellTyped → FullWidth e → Preserved e := by
  intro hall
  obtain ⟨z, hz, heval⟩ := hall (.constant 64 (2 ^ 32)) (by decide : 0 < 64) (.inr rfl) (fun _ _ => 0) trivial
  have hresult : (eachExprToZ3 (.constant 64 (2 ^ 32))).result = some (.bvVal 64 0) := by decide +kernel
  obtain rfl : Z3.Expr.bvVal 64 0 = z := Option.some.inj (hresult.symm.trans hz)
  have hvalue : z3Value (2 ^ 32 : BitVec 64) = .bitVec 64 (2 ^ 32) := by decide +kernel
  have hzero : Z3.Value.bitVec 64 0 = .bitVec 64 (2 ^ 32) := (Option.some.inj heval).trans hvalue
  exact absurd hzero (by decide +kernel)

end

end KQuery2Z3
end CapTaint
