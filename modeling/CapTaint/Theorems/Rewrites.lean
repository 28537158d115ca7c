import CapTaint.Theorems.Values

/-! # Rewriting of expressions

`Rewrites` relates an expression to another one that may stand in its place: the width and the value are the same, and
no more reads and operators are left. It is a preorder and a congruence, so that a chain of rewriting steps is followed
node by node. -/

namespace CapTaint.Klee

/-! ### What the rewriting depends on and keeps -/

mutual
/-- With `opt`, reads of constant arrays are inside the arrays; with `div`, no divisor is zero. -/
def Expr.Sound (opt div : Bool) (v : Valuation) : Expr → Prop
  | .constant _ _ => True
  | .notOptimized src => src.Sound opt div v
  | .read updates index =>
    updates.Sound opt div v ∧ index.Sound opt div v ∧
      (opt = true → updates.array.isConstantArray = true → index.value v < updates.array.size)
  | .select cond trueExpr falseExpr => cond.Sound opt div v ∧ trueExpr.Sound opt div v ∧ falseExpr.Sound opt div v
  | .concat left right => left.Sound opt div v ∧ right.Sound opt div v
  | .extract expr _ _ => expr.Sound opt div v
  | .zext src _ => src.Sound opt div v
  | .sext src _ => src.Sound opt div v
  | .not expr => expr.Sound opt div v
  | .arith kind left right =>
    left.Sound opt div v ∧ right.Sound opt div v ∧ (div = true → divides kind = true → right.value v ≠ 0)
  | .cmp _ left right => left.Sound opt div v ∧ right.Sound opt div v

def UpdateList.Sound (opt div : Bool) (v : Valuation) : UpdateList → Prop
  | .root _ => True
  | .extend next index value => next.Sound opt div v ∧ index.Sound opt div v ∧ value.Sound opt div v
end

theorem ArithKind.cost_pos (kind : ArithKind) : 0 < ArithKind.cost kind := by cases kind <;> decide

theorem CmpKind.cost_pos (kind : CmpKind) : 0 < CmpKind.cost kind := by cases kind <;> decide

theorem Expr.weight_pos (e : Expr) (h : e.isConstant = false) : 0 < e.weight := by
  cases e with
  | constant w c => cases h
  | arith kind l r => exact Nat.add_pos_right _ (ArithKind.cost_pos kind)
  | cmp kind l r => exact Nat.add_pos_right _ (CmpKind.cost_pos kind)
  | _ => exact Nat.succ_pos _

/-! ### Well-typed expressions of a width -/

namespace Expr.Typed
variable {w : Nat} {e c t f l r : Expr}

theorem self (h : e.WellTyped) : e.Typed e.getWidth := ⟨h, rfl⟩

theorem pos (h : e.Typed w) : 0 < w := h.width ▸ e.width_pos h.wellTyped

theorem constant (hw : 0 < w) (value : BitVec w) : (Expr.constant w value).Typed w := ⟨hw, rfl⟩

theorem boolean (b : Bool) : (boolean b).Typed 1 := constant Nat.one_pos _

theorem notOptimized : (Expr.notOptimized e).Typed w ↔ e.Typed w := ⟨fun h => ⟨h.1, h.2⟩, fun h => ⟨h.1, h.2⟩⟩

theorem not : (Expr.not e).Typed w ↔ e.Typed w := ⟨fun h => ⟨h.1, h.2⟩, fun h => ⟨h.1, h.2⟩⟩

theorem arith {kind : ArithKind} : (Expr.arith kind l r).Typed w ↔ l.Typed w ∧ r.Typed w := by
  constructor
  · rintro ⟨⟨hl, hr, hwidth⟩, hw⟩
    exact ⟨⟨hl, hw⟩, hr, hwidth.symm.trans hw⟩
  · rintro ⟨hl, hr⟩
    exact ⟨⟨hl.1, hr.1, hl.2.trans hr.2.symm⟩, hl.2⟩

theorem cmp {kind : CmpKind} (hl : l.Typed w) (hr : r.Typed w) : (Expr.cmp kind l r).Typed 1 :=
  ⟨⟨hl.1, hr.1, hl.2.trans hr.2.symm⟩, rfl⟩

theorem cmp_inv {kind : CmpKind} (h : (Expr.cmp kind l r).Typed w) :
    w = 1 ∧ l.Typed l.getWidth ∧ r.Typed l.getWidth :=
  ⟨h.2.symm, ⟨h.1.1, rfl⟩, h.1.2.1, h.1.2.2.symm⟩

theorem select : (Expr.select c t f).Typed w ↔ c.Typed 1 ∧ t.Typed w ∧ f.Typed w := by
  constructor
  · rintro ⟨⟨hc, ht, hf, hcw, hwidth⟩, hw⟩
    exact ⟨⟨hc, hcw⟩, ⟨ht, hw⟩, hf, hwidth.symm.trans hw⟩
  · rintro ⟨hc, ht, hf⟩
    exact ⟨⟨hc.1, ht.1, hf.1, hc.2, ht.2.trans hf.2.symm⟩, ht.2⟩

theorem concat {m n : Nat} (hl : l.Typed m) (hr : r.Typed n) : (Expr.concat l r).Typed (m + n) :=
  ⟨⟨hl.1, hr.1⟩, congrArg₂ (· + ·) hl.2 hr.2⟩

theorem extract {k off : Nat} (he : e.Typed k) (hw : 0 < w) (hoff : off + w ≤ k) : (Expr.extract e off w).Typed w :=
  ⟨⟨he.1, hw, he.2 ▸ hoff⟩, rfl⟩

theorem zext {k : Nat} (he : e.Typed k) (hk : k < w) : (Expr.zext e w).Typed w := ⟨⟨he.1, he.2 ▸ hk⟩, rfl⟩

theorem sext {k : Nat} (he : e.Typed k) (hk : k < w) : (Expr.sext e w).Typed w := ⟨⟨he.1, he.2 ▸ hk⟩, rfl⟩

end Expr.Typed

/-! ### The relation -/

/-- `e` may stand for `n`, of width `w`, under the valuations `V`. -/
structure Rewrites (opt : Bool) (V : Valuation → Prop) (w : Nat) (n e : Expr) : Prop where
  source : n.Typed w
  typed : e.Typed w
  weight : e.weight ≤ n.weight
  value : ∀ div v, V v → n.Sound opt div v → e.Sound opt div v ∧ e.bits v w = n.bits v w

/-- The construction ends with an expression that may stand for `n`. -/
def Produces (opt : Bool) (V : Valuation → Prop) (w : Nat) (n : Expr) (result : Created) : Prop :=
  ∃ e, result = .ok e ∧ Rewrites opt V w n e

section
variable {opt : Bool} {V V' : Valuation → Prop} {w k : Nat} {n m e e' l l' r r' c c' t t' f f' : Expr}

namespace Rewrites

theorem refl (h : n.Typed w) : Rewrites opt V w n n := ⟨h, h, le_rfl, fun _ _ _ hs => ⟨hs, rfl⟩⟩

theorem trans (h : Rewrites opt V w n m) (h' : Rewrites opt V w m e) : Rewrites opt V w n e where
  source := h.source
  typed := h'.typed
  weight := h'.weight.trans h.weight
  value div v hv hs := by
    obtain ⟨hm, hvalue⟩ := h.value div v hv hs
    obtain ⟨he, hvalue'⟩ := h'.value div v hv hm
    exact ⟨he, hvalue'.trans hvalue⟩

theorem value_eq (h : Rewrites opt V w n e) {div : Bool} {v : Valuation} (hv : V v) (hs : n.Sound opt div v) :
    e.value v = n.value v := by
  rw [← Expr.toNat_bits h.typed.1 h.typed.2, (h.value div v hv hs).2, Expr.toNat_bits h.source.1 h.source.2]

theorem arith {kind : ArithKind} (hl : Rewrites opt V w l l') (hr : Rewrites opt V w r r') :
    Rewrites opt V w (.arith kind l r) (.arith kind l' r') where
  source := Expr.Typed.arith.mpr ⟨hl.source, hr.source⟩
  typed := Expr.Typed.arith.mpr ⟨hl.typed, hr.typed⟩
  weight := Nat.add_le_add_right (Nat.add_le_add hl.weight hr.weight) _
  value div v hv hs := by
    obtain ⟨hls, hlv⟩ := hl.value div v hv hs.1
    obtain ⟨hrs, hrv⟩ := hr.value div v hv hs.2.1
    refine ⟨⟨hls, hrs, ?_⟩, ?_⟩
    · rw [hr.value_eq hv hs.2.1]
      exact hs.2.2
    · rw [Expr.bits_arith _ hl.typed.2, Expr.bits_arith _ hl.source.2, hlv, hrv]

theorem cmp {kind : CmpKind} (hl : Rewrites opt V k l l') (hr : Rewrites opt V k r r') :
    Rewrites opt V 1 (.cmp kind l r) (.cmp kind l' r') where
  source := hl.source.cmp hr.source
  typed := hl.typed.cmp hr.typed
  weight := Nat.add_le_add_right (Nat.add_le_add hl.weight hr.weight) _
  value div v hv hs := by
    obtain ⟨hls, hlv⟩ := hl.value div v hv hs.1
    obtain ⟨hrs, hrv⟩ := hr.value div v hv hs.2
    exact ⟨⟨hls, hrs⟩, by rw [Expr.bits_cmp _ hl.typed.2, Expr.bits_cmp _ hl.source.2, hlv, hrv]⟩

theorem select (hc : Rewrites opt V 1 c c') (ht : Rewrites opt V w t t') (hf : Rewrites opt V w f f') :
    Rewrites opt V w (.select c t f) (.select c' t' f') where
  source := Expr.Typed.select.mpr ⟨hc.source, ht.source, hf.source⟩
  typed := Expr.Typed.select.mpr ⟨hc.typed, ht.typed, hf.typed⟩
  weight := Nat.add_le_add_right (Nat.add_le_add (Nat.add_le_add hc.weight ht.weight) hf.weight) _
  value div v hv hs := by
    obtain ⟨hcs, hcv⟩ := hc.value div v hv hs.1
    obtain ⟨hts, htv⟩ := ht.value div v hv hs.2.1
    obtain ⟨hfs, hfv⟩ := hf.value div v hv hs.2.2
    refine ⟨⟨hcs, hts, hfs⟩, ?_⟩
    rw [Expr.bits_select _ _ _ hc.typed.1 hc.typed.2, Expr.bits_select _ _ _ hc.source.1 hc.source.2, hcv, htv, hfv]

theorem concat {m n : Nat} (hl : Rewrites opt V m l l') (hr : Rewrites opt V n r r') :
    Rewrites opt V (m + n) (.concat l r) (.concat l' r') where
  source := hl.source.concat hr.source
  typed := hl.typed.concat hr.typed
  weight := Nat.add_le_add_right (Nat.add_le_add hl.weight hr.weight) _
  value div v hv hs := by
    obtain ⟨hls, hlv⟩ := hl.value div v hv hs.1
    obtain ⟨hrs, hrv⟩ := hr.value div v hv hs.2
    refine ⟨⟨hls, hrs⟩, ?_⟩
    rw [Expr.bits_concat hl.typed.1 hr.typed.1 hl.typed.2 hr.typed.2,
      Expr.bits_concat hl.source.1 hr.source.1 hl.source.2 hr.source.2, hlv, hrv]

theorem extract {off : Nat} (he : Rewrites opt V k e e') (hw : 0 < w) (hoff : off + w ≤ k) :
    Rewrites opt V w (.extract e off w) (.extract e' off w) where
  source := he.source.extract hw hoff
  typed := he.typed.extract hw hoff
  weight := Nat.add_le_add_right (Nat.mul_le_mul_left _ he.weight) _
  value div v hv hs := by
    obtain ⟨hes, hev⟩ := he.value div v hv hs
    exact ⟨hes, by rw [Expr.bits_extract _ he.typed.1 he.typed.2, Expr.bits_extract _ he.source.1 he.source.2, hev]⟩

theorem zext (he : Rewrites opt V k e e') (hk : k < w) : Rewrites opt V w (.zext e w) (.zext e' w) where
  source := he.source.zext hk
  typed := he.typed.zext hk
  weight := Nat.add_le_add_right he.weight _
  value div v hv hs := by
    obtain ⟨hes, hev⟩ := he.value div v hv hs
    exact ⟨hes, by rw [Expr.bits_zext he.typed.1 he.typed.2, Expr.bits_zext he.source.1 he.source.2, hev]⟩

theorem sext (he : Rewrites opt V k e e') (hk : k < w) : Rewrites opt V w (.sext e w) (.sext e' w) where
  source := he.source.sext hk
  typed := he.typed.sext hk
  weight := Nat.add_le_add_right he.weight _
  value div v hv hs := by
    obtain ⟨hes, hev⟩ := he.value div v hv hs
    exact ⟨hes, by rw [Expr.bits_sext he.typed.2, Expr.bits_sext he.source.2, hev]⟩

theorem not (he : Rewrites opt V w e e') : Rewrites opt V w (.not e) (.not e') where
  source := Expr.Typed.not.mpr he.source
  typed := Expr.Typed.not.mpr he.typed
  weight := Nat.add_le_add_right he.weight _
  value div v hv hs := by
    obtain ⟨hes, hev⟩ := he.value div v hv hs
    exact ⟨hes, by rw [Expr.bits_not he.typed.2, Expr.bits_not he.source.2, hev]⟩

theorem notOptimized (he : Rewrites opt V w e e') : Rewrites opt V w (.notOptimized e) (.notOptimized e') where
  source := Expr.Typed.notOptimized.mpr he.source
  typed := Expr.Typed.notOptimized.mpr he.typed
  weight := Nat.add_le_add_right he.weight _
  value := he.value

theorem read {ul : UpdateList} (hul : ul.WellTyped) (he : Rewrites opt V ul.array.domain e e') :
    Rewrites opt V ul.array.range (.read ul e) (.read ul e') where
  source := ⟨⟨hul, he.source.1, he.source.2⟩, rfl⟩
  typed := ⟨⟨hul, he.typed.1, he.typed.2⟩, rfl⟩
  weight := Nat.add_le_add_right (Nat.add_le_add_left (Nat.mul_le_mul_left _ (Nat.add_le_add_right he.weight _)) _) _
  value div v hv hs := by
    obtain ⟨hes, hev⟩ := he.value div v hv hs.2.1
    have hvalue := he.value_eq hv hs.2.1
    refine ⟨⟨hs.1, hes, ?_⟩, ?_⟩
    · rw [hvalue]
      exact hs.2.2
    · rw [Expr.bits, Expr.value, hvalue, Expr.bits, Expr.value]

end Rewrites

namespace Produces

theorem ok (h : Rewrites opt V w n e) : Produces opt V w n (.ok e) := ⟨e, rfl, h⟩

theorem of_rewrites {result : Created} (h' : Produces opt V w m result) (h : Rewrites opt V w n m) :
    Produces opt V w n result := by
  obtain ⟨e, he, hm⟩ := h'
  exact ⟨e, he, h.trans hm⟩

/-- The next construction works on what this one has produced. -/
theorem bind {result : Created} {next : Expr → Created} (h : Produces opt V k m result)
    (hnext : ∀ e, Rewrites opt V k m e → Produces opt V w n (next e)) : Produces opt V w n (result >>= next) := by
  obtain ⟨e, rfl, he⟩ := h
  exact hnext e he

end Produces

end

end CapTaint.Klee
