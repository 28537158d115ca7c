import CapTaint.Klee.Range
import CapTaint.Theorems.CachingSolver
import CapTaint.Theorems.Resolution

/-! # The range of an expression

`getRange` asks a solver that is right and does not fail for the least and the greatest value. -/

namespace CapTaint.Klee
open BinarySearch

variable {σ : Type} {opt : Bool} {impl : SolverImpl σ} {query : Query} {w n mid hi : Nat} {s : σ} {e : Expr} {f : Valuation → Nat}
  {test : Valuation → Bool}

theorem maxValueOfNBits_eq (h : n ≤ 64) : maxValueOfNBits n = 2 ^ n - 1 := by
  unfold maxValueOfNBits
  split
  case isTrue hzero => rw [hzero, pow_zero, Nat.sub_self]
  case isFalse =>
    have hsplit : (2 : Nat) ^ 64 = 2 ^ n * 2 ^ (64 - n) := by rw [← pow_add, Nat.add_sub_cancel' h]
    have hlow : 0 < 2 ^ (64 - n) := Nat.two_pow_pos _
    have hhigh : 0 < 2 ^ n := Nat.two_pow_pos n
    rw [Nat.shiftRight_eq_div_pow, hsplit]
    refine Nat.div_eq_of_lt_le ?_ ?_
    · rw [Nat.sub_mul, one_mul]
      omega
    · rw [Nat.sub_add_cancel hhigh]
      have : 0 < 2 ^ n * 2 ^ (64 - n) := Nat.mul_pos hhigh hlow
      omega

theorem Denotes.lshr (hV : ∃ v, query.Satisfies v) {r : Expr} {g : Valuation → Nat} (hl : Denotes opt query.Satisfies w e f)
    (hr : Denotes opt query.Satisfies w r g) :
    ∃ n, LShrExpr.create opt e r = .ok n ∧ Denotes opt query.Satisfies w n fun v => f v / 2 ^ g v := by
  refine denotes_of_evaluates hV fun v hv => ?_
  have hshift := arith_evaluates .lshr (hl.operand hv) (hr.operand hv) nofun
  have hvalue : (ArithKind.lshr.eval (e.bits v w) (r.bits v w)).toNat = f v / 2 ^ g v := by
    rw [ArithKind.eval, BitVec.ushiftRight_eq', BitVec.toNat_ushiftRight, Nat.shiftRight_eq_div_pow, hl.bits hv, hr.bits hv]
  rwa [hvalue] at hshift

/-! ### What the solver is asked -/

/-- A solver that is right and does not fail, and a query with satisfiable constraints that it is asked about. -/
structure Asks (opt : Bool) (impl : SolverImpl σ) (query : Query) (w : Nat) : Prop where
  decides : impl.Decides
  answers : impl.Answers
  constraints : ∀ c ∈ query.constraints, c.Typed 1
  satisfiable : query.Satisfiable
  typed : query.expr.Typed w
  /-- With the option, reads of constant arrays are in range. -/
  inRange : ∀ v, query.Satisfies v → query.expr.Sound opt false v

/-- The value of the expression under the assignments that satisfy the constraints. -/
def Query.values (query : Query) : Set Nat := {x | ∃ v, query.Satisfies v ∧ query.expr.value v = x}

namespace Asks

theorem denotes (h : Asks opt impl query w) : Denotes opt query.Satisfies w query.expr fun v => query.expr.value v :=
  ⟨h.typed, h.inRange, fun _ _ => rfl⟩

theorem wellFormed (h : Asks opt impl query w) (he : e.Typed 1) : (query.withExpr e).WellFormed := ⟨h.constraints, he⟩

theorem value_lt (h : Asks opt impl query w) (v : Valuation) : query.expr.value v < 2 ^ w := by
  have hlt := query.expr.value_lt h.typed.1 (v := v)
  rwa [h.typed.2] at hlt

end Asks

/-- A constant of width one holds when it is not zero. -/
theorem holds_constant {value : BitVec 1} {v : Valuation} : (Expr.constant 1 value).Holds v ↔ value ≠ 0 := by
  rw [Expr.holds_iff_bits (.constant Nat.one_pos value), Expr.bits_constant]
  revert value
  decide

namespace Solver

theorem evaluate_symbolic (he : query.expr.Typed 1) (hsymbolic : query.expr.isConstant = false) (s : σ) :
    evaluate impl query s = .ok (impl.computeValidity query s) := by
  rw [evaluate, if_neg (not_not.mpr he.width)]
  split
  · rename_i heq
    rw [heq] at hsymbolic
    cases hsymbolic
  · rfl

theorem mustBeTrue_symbolic (he : query.expr.Typed 1) (hsymbolic : query.expr.isConstant = false) (s : σ) :
    mustBeTrue impl query s = .ok (impl.computeTruth query s) := by
  rw [mustBeTrue, if_neg (not_not.mpr he.width)]
  split
  · rename_i heq
    rw [heq] at hsymbolic
    cases hsymbolic
  · rfl

theorem evaluate_spec (h : Asks opt impl query 1) (s : σ) :
    ∃ result s', evaluate impl query s = .ok (some result, s') ∧ query.HasValidity result := by
  obtain ⟨v₀, hv₀⟩ := h.satisfiable
  have hwf : query.WellFormed := ⟨h.constraints, h.typed⟩
  rcases h.typed.constant_or with ⟨value, heq⟩ | hsymbolic
  · refine ⟨if value = 0 then .False else .True, s, ?_, ?_⟩
    · rw [evaluate, heq]
      rfl
    · split
      case isTrue hzero => exact fun v _ hholds => holds_constant.mp (heq ▸ hholds) hzero
      case isFalse hne => exact fun v _ => heq ▸ holds_constant.mpr hne
  · obtain ⟨result, hresult⟩ := Option.ne_none_iff_exists'.mp (h.answers.validity query s)
    refine ⟨result, (impl.computeValidity query s).2, ?_, h.decides.validity query s result hwf ⟨v₀, hv₀⟩ hresult⟩
    rw [evaluate_symbolic h.typed hsymbolic, ← hresult]

theorem mustBeTrue_spec (h : Asks opt impl query w) (he : e.Typed 1) (s : σ) :
    ∃ b s', mustBeTrue impl (query.withExpr e) s = .ok (some b, s') ∧ (b = true ↔ (query.withExpr e).Valid) := by
  obtain ⟨v₀, hv₀⟩ := h.satisfiable
  rcases he.constant_or with ⟨value, rfl⟩ | hsymbolic
  · refine ⟨decide (value ≠ 0), s, rfl, ?_⟩
    rw [decide_eq_true_iff]
    exact ⟨fun hne v _ => holds_constant.mpr hne, fun hvalid => holds_constant.mp (hvalid v₀ hv₀)⟩
  · obtain ⟨b, hb⟩ := Option.ne_none_iff_exists'.mp (h.answers.truth (query.withExpr e) s)
    refine ⟨b, (impl.computeTruth (query.withExpr e) s).2, ?_, h.decides.truth _ s b (h.wellFormed he) ⟨v₀, hv₀⟩ hb⟩
    rw [mustBeTrue_symbolic he hsymbolic, ← hb]

/-- The truth of a test in all assignments. -/
theorem mustBeTrue_tests (h : Asks opt impl query w) (he : Tests opt query.Satisfies e test) (s : σ) :
    ∃ b s', (mustBeTrue impl (query.withExpr e) s >>= assertSuccess) = .ok (b, s') ∧
      (b = true ↔ ∀ v, query.Satisfies v → test v = true) := by
  obtain ⟨b, s', heq, hb⟩ := mustBeTrue_spec h he.typed s
  refine ⟨b, s', by rw [heq]; rfl, hb.trans (forall_congr' fun v => imp_congr_right fun hv => ?_)⟩
  rw [Query.withExpr, Expr.Holds, he.value v hv, Bool.toNat_eq_one]

/-- The truth of a test in one assignment. -/
theorem mayBeTrue_tests (h : Asks opt impl query w) (he : Tests opt query.Satisfies e test) (s : σ) :
    ∃ b s', (mayBeTrue opt impl (query.withExpr e) s >>= assertSuccess) = .ok (b, s') ∧
      (b = true ↔ ∃ v, query.Satisfies v ∧ test v = true) := by
  obtain ⟨n, -, hnegate, hwf, hholds⟩ := Query.negateExpr_spec opt (h.wellFormed he.typed)
  obtain ⟨b, s', heq, hb⟩ := mustBeTrue_spec h hwf.expr s
  refine ⟨!b, s', ?_, ?_⟩
  · have hmust : mustBeFalse opt impl (query.withExpr e) s = .ok (some b, s') := by
      rw [mustBeFalse, hnegate]
      exact heq
    rw [mayBeTrue, hmust]
    rfl
  · rw [Bool.not_eq_true', ← Bool.not_eq_true, hb]
    simp only [Query.Valid, Query.withExpr, not_forall, hholds, not_not, exists_prop, Query.Satisfies]
    refine exists_congr fun v => and_congr_right fun hv => ?_
    rw [Expr.Holds, he.value v hv, Bool.toNat_eq_one]

/-! ### The three questions -/

theorem constant_denotes (h : Asks opt impl query w) {c : Nat} (hc : c < 2 ^ w) :
    ∃ e, ConstantExpr.create c query.expr.getWidth = .ok e ∧ Denotes opt query.Satisfies w e fun _ => c := by
  rw [h.typed.2]
  exact ConstantExpr.create_denotes opt _ h.typed.pos hc

theorem eval_eq_zero {x : Nat} (hx : x < 2 ^ w) :
    Comparison.eval (BitVec.ofNat w x) (BitVec.ofNat w 0) .eq = decide (x = 0) := by
  rw [Comparison.eval, decide_eq_decide, ← BitVec.toNat_inj, BitVec.toNat_ofNat, BitVec.toNat_ofNat, Nat.mod_eq_of_lt hx,
    Nat.zero_mod]

theorem eval_ule {x y : Nat} (hx : x < 2 ^ w) (hy : y < 2 ^ w) :
    Comparison.eval (BitVec.ofNat w x) (BitVec.ofNat w y) .ule = decide (x ≤ y) := by
  rw [Comparison.eval, BitVec.ule, BitVec.toNat_ofNat, BitVec.toNat_ofNat, Nat.mod_eq_of_lt hx, Nat.mod_eq_of_lt hy]

/-- `e` has at most `mid` useful bits. -/
theorem fitsBits_decides (h : Asks opt impl query w) :
    Decides (fun mid => ∀ v, query.Satisfies v → query.expr.value v < 2 ^ mid) (fitsBits opt impl query) 0 w := by
  intro mid _ hmid s
  have hfits : mid < 2 ^ w := hmid.trans Nat.lt_two_pow_self
  obtain ⟨amount, hamount, hamountDenotes⟩ := constant_denotes h hfits
  obtain ⟨zero, hzero, hzeroDenotes⟩ := constant_denotes h (Nat.two_pow_pos w)
  obtain ⟨shifted, hshifted, hshiftedDenotes⟩ := h.denotes.lshr h.satisfiable hamountDenotes
  obtain ⟨isZero, hisZero, hdenotes⟩ := hshiftedDenotes.compare h.satisfiable .eq hzeroDenotes
  have htest : Tests opt query.Satisfies isZero fun v => decide (query.expr.value v / 2 ^ mid = 0) :=
    hdenotes.congr fun v hv => congrArg Bool.toNat (eval_eq_zero ((Nat.div_le_self _ _).trans_lt (h.value_lt v)))
  obtain ⟨b, s', heq, hb⟩ := mustBeTrue_tests h htest s
  refine ⟨b, s', ?_, hb.trans (forall_congr' fun v => imp_congr_right fun _ => ?_)⟩
  · have hcreate : EqExpr.create opt shifted zero = .ok isZero := hisZero
    rw [fitsBits, hamount]
    simp only [bind, Except.bind, hshifted, hzero, hcreate]
    exact heq
  · rw [decide_eq_true_iff, Nat.div_eq_zero_iff_lt (Nat.two_pow_pos mid)]

theorem mayBeZero_spec (h : Asks opt impl query w) (s : σ) :
    ∃ b s', mayBeZero opt impl query s = .ok (b, s') ∧ (b = true ↔ 0 ∈ query.values) := by
  obtain ⟨zero, hzero, hzeroDenotes⟩ := constant_denotes h (Nat.two_pow_pos w)
  obtain ⟨isZero, hisZero, hdenotes⟩ := h.denotes.compare h.satisfiable .eq hzeroDenotes
  have htest : Tests opt query.Satisfies isZero fun v => decide (query.expr.value v = 0) :=
    hdenotes.congr fun v hv => congrArg Bool.toNat (eval_eq_zero (h.value_lt v))
  obtain ⟨b, s', heq, hb⟩ := mayBeTrue_tests h htest s
  refine ⟨b, s', ?_, hb.trans (exists_congr fun v => and_congr_right fun _ => decide_eq_true_iff)⟩
  have hcreate : EqExpr.create opt query.expr zero = .ok isZero := hisZero
  rw [mayBeZero, hzero]
  simp only [bind, Except.bind, hcreate]
  exact heq

/-- The comparison with `mid`. -/
theorem isAtMost_tests (h : Asks opt impl query w) (hmid : mid < 2 ^ w) :
    ∃ c e, ConstantExpr.create mid query.expr.getWidth = .ok c ∧ UleExpr.create opt query.expr c = .ok e ∧
      Tests opt query.Satisfies e fun v => decide (query.expr.value v ≤ mid) := by
  obtain ⟨c, hc, hcDenotes⟩ := constant_denotes h hmid
  obtain ⟨e, he, hdenotes⟩ := h.denotes.compare h.satisfiable .ule hcDenotes
  exact ⟨c, e, hc, he, hdenotes.congr fun v _ => congrArg Bool.toNat (eval_ule (h.value_lt v) hmid)⟩

theorem mayBeAtMost_decides (h : Asks opt impl query w) (hhi : hi < 2 ^ w) :
    Decides (fun mid => ∃ v, query.Satisfies v ∧ query.expr.value v ≤ mid) (mayBeAtMost opt impl query) 0 hi := by
  intro mid _ hmid s
  obtain ⟨c, e, hc, he, htest⟩ := isAtMost_tests h (hmid.trans hhi)
  obtain ⟨b, s', heq, hb⟩ := mayBeTrue_tests h htest s
  refine ⟨b, s', ?_, hb.trans (exists_congr fun v => and_congr_right fun _ => decide_eq_true_iff)⟩
  rw [mayBeAtMost, hc]
  simp only [bind, Except.bind, he]
  exact heq

theorem mustBeAtMost_decides (h : Asks opt impl query w) (lo : Nat) (hhi : hi < 2 ^ w) :
    Decides (fun mid => ∀ v, query.Satisfies v → query.expr.value v ≤ mid) (mustBeAtMost opt impl query) lo hi := by
  intro mid _ hmid s
  obtain ⟨c, e, hc, he, htest⟩ := isAtMost_tests h (hmid.trans hhi)
  obtain ⟨b, s', heq, hb⟩ := mustBeTrue_tests h htest s
  refine ⟨b, s', ?_, hb.trans (forall_congr' fun v => imp_congr_right fun _ => decide_eq_true_iff)⟩
  rw [mustBeAtMost, hc]
  simp only [bind, Except.bind, he]
  exact heq

/-! ### The search -/

theorem search_spec {P : Nat → Prop} {ask : Nat → σ → Except Abort (Bool × σ)} {lo : Nat} (hmono : Monotone P)
    (hask : Decides P ask lo hi) (hle : lo ≤ hi) (hbelow : ∀ n < lo, ¬P n) (hhi : P hi) (hbound : hi < 2 ^ 64) (s : σ) :
    ∃ n s', search ask lo hi s = .ok (n, s') ∧ IsLeast {n | P n} n ∧ n ≤ hi :=
  search_isLeast hmono hask hle hbelow hhi hbound ((Nat.sub_le hi lo).trans_lt hbound)

/-- The least bound is the greatest value. -/
theorem isGreatest_of_isLeast (h : Asks opt impl query w) {max : Nat}
    (hmax : IsLeast {n | ∀ v, query.Satisfies v → query.expr.value v ≤ n} max) : IsGreatest query.values max := by
  obtain ⟨v₀, hv₀⟩ := h.satisfiable
  refine ⟨?_, fun x ⟨v, hv, hx⟩ => hx ▸ hmax.1 v hv⟩
  by_contra hnot
  have hlt : ∀ v, query.Satisfies v → query.expr.value v < max := fun v hv =>
    lt_of_le_of_ne (hmax.1 v hv) fun heq => hnot ⟨v, hv, heq⟩
  have hpred : max ≤ max - 1 := hmax.2 fun v hv => Nat.le_sub_one_of_lt (hlt v hv)
  have := hlt v₀ hv₀
  omega

/-- The least number that some value does not exceed is the least value. -/
theorem isLeast_values {min : Nat} (hmin : IsLeast {n | ∃ v, query.Satisfies v ∧ query.expr.value v ≤ n} min) :
    IsLeast query.values min := by
  have hlower : ∀ x ∈ query.values, min ≤ x := fun x ⟨v, hv, hx⟩ => hmin.2 ⟨v, hv, hx.le⟩
  obtain ⟨v, hv, hle⟩ := hmin.1
  exact ⟨⟨v, hv, le_antisymm hle (hlower _ ⟨v, hv, rfl⟩)⟩, hlower⟩

theorem searchRange_spec (h : Asks opt impl query w) (hw : w ≤ 64) (s : σ) :
    ∃ min max s', searchRange opt impl query s = .ok ((min, max), s') ∧ IsLeast query.values min ∧
      IsGreatest query.values max := by
  have hmonoBits : Monotone fun mid => ∀ v, query.Satisfies v → query.expr.value v < 2 ^ mid := fun m n hmn hm v hv =>
    (hm v hv).trans_le (Nat.pow_le_pow_right Nat.two_pos hmn)
  obtain ⟨bits, s₁, hbits, hbitsLeast, hbitsLe⟩ := search_spec hmonoBits (fitsBits_decides h) (Nat.zero_le w)
    (fun n hn => absurd hn (Nat.not_lt_zero n)) (fun v _ => h.value_lt v) (hw.trans_lt (by norm_num)) s
  -- all values are below the bound of the useful bits
  have hbelow : ∀ v, query.Satisfies v → query.expr.value v < 2 ^ bits := hbitsLeast.1
  have hpos : 0 < 2 ^ bits := Nat.two_pow_pos bits
  have hmaxValue : maxValueOfNBits bits = 2 ^ bits - 1 := maxValueOfNBits_eq (hbitsLe.trans hw)
  have hwidth : 2 ^ bits ≤ 2 ^ w := Nat.pow_le_pow_right Nat.two_pos hbitsLe
  have hbound : (2 : Nat) ^ w ≤ 2 ^ 64 := Nat.pow_le_pow_right Nat.two_pos hw
  obtain ⟨v₀, hv₀⟩ := h.satisfiable
  obtain ⟨b, s₂, hzero, hb⟩ := mayBeZero_spec h s₁
  -- the least value
  obtain ⟨min, s₃, hminEq, hmin⟩ : ∃ min s₃, searchMin opt impl query b bits s₂ = .ok (min, s₃) ∧ IsLeast query.values min := by
    cases b with
    | true => exact ⟨0, s₂, rfl, hb.mp rfl, fun x _ => Nat.zero_le x⟩
    | false =>
      have hmono : Monotone fun mid => ∃ v, query.Satisfies v ∧ query.expr.value v ≤ mid := fun m n hmn ⟨v, hv, hle⟩ =>
        ⟨v, hv, hle.trans hmn⟩
      obtain ⟨min, s₃, heq, hleast, -⟩ := search_spec hmono
        (mayBeAtMost_decides h (show 2 ^ bits - 1 < 2 ^ w by omega)) (Nat.zero_le _) (fun n hn => absurd hn (Nat.not_lt_zero n))
        ⟨v₀, hv₀, Nat.le_sub_one_of_lt (hbelow v₀ hv₀)⟩ (by omega) s₂
      exact ⟨min, s₃, by rw [searchMin, hmaxValue]; exact heq, isLeast_values hleast⟩
  -- the greatest value
  obtain ⟨v₁, hv₁, hvalue⟩ := hmin.1
  have hmonoMax : Monotone fun mid => ∀ v, query.Satisfies v → query.expr.value v ≤ mid := fun m n hmn hm v hv =>
    (hm v hv).trans hmn
  obtain ⟨max, s₄, hmaxEq, hmax, -⟩ := search_spec hmonoMax
    (mustBeAtMost_decides h min (show 2 ^ bits - 1 < 2 ^ w by omega)) (hvalue ▸ Nat.le_sub_one_of_lt (hbelow v₁ hv₁))
    (fun n hn hall => absurd (hvalue ▸ hall v₁ hv₁) (not_le.mpr hn)) (fun v hv => Nat.le_sub_one_of_lt (hbelow v hv))
    (by omega) s₃
  refine ⟨min, max, s₄, ?_, hmin, isGreatest_of_isLeast h hmax⟩
  rw [searchRange, h.typed.2, hbits]
  simp only [bind, Except.bind, hzero, hminEq, hmaxValue, hmaxEq]
  rfl

/-! ### The result -/

theorem constant_values (h : Asks opt impl query w) {value : BitVec w} (heq : query.expr = .constant w value) :
    query.values = {value.toNat} := by
  obtain ⟨v₀, hv₀⟩ := h.satisfiable
  ext x
  constructor
  · rintro ⟨v, -, hx⟩
    rw [heq] at hx
    exact hx.symm
  · rintro rfl
    exact ⟨v₀, hv₀, by rw [heq]; rfl⟩

/-- The values of a condition are those that its validity tells. -/
theorem rangeValues_bool (h : Asks opt impl query 1) (s : σ) :
    ∃ min max s', rangeValues opt impl query s = .ok ((min, max), s') ∧ IsLeast query.values min ∧
      IsGreatest query.values max := by
  obtain ⟨result, s', heq, hvalidity⟩ := evaluate_spec h s
  obtain ⟨v₀, hv₀⟩ := h.satisfiable
  have hle : ∀ x ∈ query.values, x ≤ 1 := fun x ⟨v, _, hx⟩ => hx ▸ Nat.le_of_lt_succ (h.value_lt v)
  have hzero : ∀ v, ¬query.expr.Holds v → query.expr.value v = 0 := fun v hv => by
    have := h.value_lt v
    rw [Expr.Holds] at hv
    omega
  unfold rangeValues
  rw [if_pos h.typed.2, heq]
  cases result with
  | True =>
    have hall : ∀ x ∈ query.values, x = 1 := fun x ⟨v, hv, hx⟩ => hx ▸ hvalidity v hv
    have hmem : 1 ∈ query.values := ⟨v₀, hv₀, hvalidity v₀ hv₀⟩
    exact ⟨1, 1, s', rfl, ⟨hmem, fun x hx => (hall x hx).ge⟩, ⟨hmem, hle⟩⟩
  | False =>
    have hall : ∀ x ∈ query.values, x = 0 := fun x ⟨v, hv, hx⟩ => hx ▸ hzero v (hvalidity v hv)
    have hmem : 0 ∈ query.values := ⟨v₀, hv₀, hzero v₀ (hvalidity v₀ hv₀)⟩
    exact ⟨0, 0, s', rfl, ⟨hmem, fun x _ => Nat.zero_le x⟩, ⟨hmem, fun x hx => (hall x hx).le⟩⟩
  | Unknown =>
    obtain ⟨hvalid, hrefuted⟩ := hvalidity
    simp only [Query.Valid, Query.Refuted, not_forall, not_not, exists_prop] at hvalid hrefuted
    obtain ⟨v, hv, hholds⟩ := hvalid
    obtain ⟨v', hv', hholds'⟩ := hrefuted
    exact ⟨0, 1, s', rfl, ⟨⟨v, hv, hzero v hholds⟩, fun x _ => Nat.zero_le x⟩, ⟨v', hv', hholds'⟩, hle⟩

theorem rangeValues_spec (h : Asks opt impl query w) (hw : w ≤ 64) (s : σ) :
    ∃ min max s', rangeValues opt impl query s = .ok ((min, max), s') ∧ IsLeast query.values min ∧
      IsGreatest query.values max := by
  by_cases hbool : w = 1
  · subst hbool
    exact rangeValues_bool h s
  rcases h.typed.constant_or with ⟨value, heq⟩ | hsymbolic
  · have hvalues := constant_values h heq
    refine ⟨value.toNat, value.toNat, s, ?_, hvalues ▸ isLeast_singleton, hvalues ▸ isGreatest_singleton⟩
    rw [rangeValues, h.typed.2, if_neg hbool, heq]
    exact if_neg (not_lt.mpr hw)
  · obtain ⟨min, max, s', heq, hrange⟩ := searchRange_spec h hw s
    refine ⟨min, max, s', ?_, hrange⟩
    rw [rangeValues, h.typed.2, if_neg hbool, ← heq]
    split
    · rename_i hconstant
      rw [hconstant] at hsymbolic
      cases hsymbolic
    · rfl

/-- The range of every expression of at most 64 bits is the least and the greatest value that it takes under the
    assignments that satisfy the constraints. -/
theorem getRange_exact (hdecides : impl.Decides) (hanswers : impl.Answers) (hconstraints : ∀ c ∈ query.constraints, c.Typed 1)
    (hsatisfiable : query.Satisfiable) (htyped : query.expr.Typed w) (hw : w ≤ 64)
    (hrange : ∀ v, query.Satisfies v → query.expr.Sound opt false v) (s : σ) :
    ∃ (min max : BitVec w) (s' : σ), getRange opt impl query s = .ok ((.constant w min, .constant w max), s') ∧
      IsLeast query.values min.toNat ∧ IsGreatest query.values max.toNat := by
  have h : Asks opt impl query w := ⟨hdecides, hanswers, hconstraints, hsatisfiable, htyped, hrange⟩
  obtain ⟨min, max, s', heq, hmin, hmax⟩ := rangeValues_spec h hw s
  have hlt : ∀ x ∈ query.values, x < 2 ^ w := fun x ⟨v, _, hx⟩ => hx ▸ h.value_lt v
  have hcreate : ∀ x ∈ query.values, ConstantExpr.create x w = .ok (.constant w (BitVec.ofNat w x)) := fun x hx =>
    if_pos (hlt x hx)
  refine ⟨BitVec.ofNat w min, BitVec.ofNat w max, s', ?_, ?_, ?_⟩
  · rw [getRange, heq, h.typed.2]
    simp only [bind, Except.bind, hcreate min hmin.1, hcreate max hmax.1]
    rfl
  · rwa [BitVec.toNat_ofNat, Nat.mod_eq_of_lt (hlt min hmin.1)]
  · rwa [BitVec.toNat_ofNat, Nat.mod_eq_of_lt (hlt max hmax.1)]

/-- A byte that is above 7. -/
def aboveSeven : Query where
  constraints := [.cmp .ult (.constant 8 7) (.read (.root ⟨0, 4, 32, 8, []⟩) (.constant 32 0))]
  expr := .read (.root ⟨0, 4, 32, 8, []⟩) (.constant 32 0)

theorem getRange_exact_aboveSeven : ∃ (min max : BitVec 8) (s' : Unit),
    getRange false CachingSolver.exactSolver aboveSeven () = .ok ((.constant 8 min, .constant 8 max), s') ∧
      IsLeast aboveSeven.values min.toNat ∧ IsGreatest aboveSeven.values max.toNat := by
  have hbyte : (Expr.read (.root ⟨0, 4, 32, 8, []⟩) (.constant 32 0)).Typed 8 :=
    ⟨⟨⟨by decide, by decide, nofun⟩, Nat.succ_pos 31, rfl⟩, rfl⟩
  refine getRange_exact CachingSolver.exactSolver_decides ⟨nofun, nofun⟩ ?_ ⟨fun _ _ => 8, ?_⟩ hbyte (by decide)
    (fun v _ => Expr.sound_any _) ()
  · exact List.forall_mem_singleton.mpr ((Expr.Typed.constant (by decide) 7).cmp hbyte)
  · exact List.forall_mem_singleton.mpr (by rw [Expr.Holds]; decide)

end Solver
end CapTaint.Klee
