import CapTaint.Theorems.Create
import CapTaint.Klee.Solver

/-! # Negated queries

`createIsZero` of a one-bit expression holds exactly when the expression does not, under every valuation. -/

namespace CapTaint.Klee

variable {opt : Bool} {v : Valuation} {e n : Expr}

mutual
/-- Without the option and with zero divisors allowed there is no condition. -/
theorem Expr.sound_any : (e : Expr) → e.Sound false false v
  | .constant _ _ => trivial
  | .notOptimized e | .extract e _ _ | .zext e _ | .sext e _ | .not e => Expr.sound_any e
  | .read ul index => ⟨UpdateList.sound_any ul, Expr.sound_any index, fun h => nomatch h⟩
  | .select c t f => ⟨Expr.sound_any c, Expr.sound_any t, Expr.sound_any f⟩
  | .concat l r => ⟨Expr.sound_any l, Expr.sound_any r⟩
  | .arith _ l r => ⟨Expr.sound_any l, Expr.sound_any r, fun h => nomatch h⟩
  | .cmp _ l r => ⟨Expr.sound_any l, Expr.sound_any r⟩

theorem UpdateList.sound_any : (ul : UpdateList) → ul.Sound false false v
  | .root _ => trivial
  | .extend next index value => ⟨UpdateList.sound_any next, Expr.sound_any index, Expr.sound_any value⟩
end

/-- The comparison of a one-bit expression with a constant does not come to a read of an array. -/
theorem EqExpr.createPartialR_bit (opt : Bool) (cl : BitVec 1) {r : Expr} (hr : r.Typed 1) :
    EqExpr.createPartialR opt cl r = EqExpr.createPartialR false cl r := by
  induction hsize : r.size using Nat.strong_induction_on generalizing r cl with
  | _ size ih =>
    subst hsize
    unfold EqExpr.createPartialR
    simp only [if_true]
    split
    case isTrue => rfl
    case isFalse =>
      split
      case h_1 => rfl
      case h_2 left right =>
        obtain ⟨hleft, hright⟩ := Expr.Typed.arith.mp hr
        rw [hleft.width, hright.width, ih _ (Nat.lt_succ_of_le (Nat.le_add_right _ _)) 0 hleft rfl,
          ih _ (Nat.lt_succ_of_le (Nat.le_add_left _ _)) 0 hright rfl]
      case h_3 => rfl

theorem Expr.createIsZero_bit (he : e.Typed 1) : e.createIsZero opt = e.createIsZero false := by
  unfold Expr.createIsZero EqExpr.create
  rw [he.width]
  cases e with
  | constant w c => rfl
  | _ =>
    unfold bcreateR
    simp only [EqExpr.createPartialR_bit opt 0 he]

theorem Expr.holds_iff_bits (he : e.Typed 1) : e.Holds v ↔ e.bits v 1 = 1 := by
  rw [Expr.Holds, ← BitVec.toNat_inj, Expr.toNat_bits he.1 he.2]
  rfl

theorem Expr.holds_eq_iff {w : Nat} {c : BitVec w} {right : Expr} (hright : right.Typed w) :
    (Expr.cmp .eq (.constant w c) right).Holds v ↔ c = right.bits v w := by
  have hc : (Expr.constant w c).Typed w := .constant hright.pos c
  rw [Expr.Holds, ← Expr.toNat_bits (hc.cmp hright).1 (hc.cmp hright).2, hc.bits_eq, Expr.bits_constant]
  by_cases h : c = right.bits v w <;> simp [h]

/-- `createIsZero` of a one-bit expression is its negation, with or without the option. -/
theorem Expr.createIsZero_negates (opt : Bool) (he : e.Typed 1) :
    ∃ n, e.createIsZero opt = .ok n ∧ n.Typed 1 ∧ ∀ v, n.Holds v ↔ ¬e.Holds v := by
  obtain ⟨n, hn, hrewrites⟩ : Produces false (fun _ => True) 1 _ (e.createIsZero false) := Expr.createIsZero_spec he
  refine ⟨n, (Expr.createIsZero_bit he).trans hn, hrewrites.typed, fun v => ?_⟩
  have hbits := (hrewrites.value false v trivial (Expr.sound_any _)).2
  rw [he.bits_eq, Expr.bits_constant] at hbits
  rw [Expr.holds_iff_bits hrewrites.typed, Expr.holds_iff_bits he, hbits]
  generalize e.bits v 1 = x
  revert x
  decide

section
variable {query : Query}

theorem Query.negateExpr_spec (opt : Bool) (hquery : query.WellFormed) :
    ∃ n, query.expr.createIsZero opt = .ok n ∧ query.negateExpr opt = .ok (query.withExpr n) ∧
      (query.withExpr n).WellFormed ∧ ∀ v, n.Holds v ↔ ¬query.expr.Holds v := by
  obtain ⟨n, hn, htyped, hholds⟩ := Expr.createIsZero_negates opt hquery.expr
  exact ⟨n, hn, by rw [Query.negateExpr, hn]; rfl, ⟨hquery.constraints, htyped⟩, hholds⟩

theorem Query.valid_withExpr_iff (h : ∀ v, n.Holds v ↔ ¬query.expr.Holds v) :
    (query.withExpr n).Valid ↔ query.Refuted := by
  simp only [Query.Valid, Query.Refuted, Query.Satisfies, Query.withExpr, h]

theorem Query.refuted_withExpr_iff (h : ∀ v, n.Holds v ↔ ¬query.expr.Holds v) :
    (query.withExpr n).Refuted ↔ query.Valid := by
  simp only [Query.Valid, Query.Refuted, Query.Satisfies, Query.withExpr, h, not_not]

end

end CapTaint.Klee
