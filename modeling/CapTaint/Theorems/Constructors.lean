import CapTaint.Theorems.Create

/-! # The constructors of expressions

What holds of every `create` function at every valuation. -/

namespace CapTaint.Klee

variable {opt : Bool} {v : Valuation}

/-- An operand of width `w`. With the option, its reads of constant arrays are in range. -/
structure Operand (opt : Bool) (v : Valuation) (w : Nat) (e : Expr) : Prop extends e.Typed w where
  inRange : e.Sound opt false v

/-- The construction ends with an operand of width `w` and value `x`. -/
def Evaluates (opt : Bool) (v : Valuation) (w x : Nat) (result : Created) : Prop :=
  ∃ e, result = .ok e ∧ Operand opt v w e ∧ e.value v = x

/-- The value of a concatenation, the most significant operand first. -/
def concatValue (v : Valuation) (kids : List Expr) : Nat :=
  kids.foldl (fun x kid => x * 2 ^ kid.getWidth + kid.value v) 0

def Comparison.eval {w : Nat} (x y : BitVec w) : Comparison → Bool
  | .eq => x = y
  | .ne => x ≠ y
  | .ult => x.ult y
  | .ule => x.ule y
  | .ugt => y.ult x
  | .uge => y.ule x
  | .slt => x.slt y
  | .sle => x.sle y
  | .sgt => y.slt x
  | .sge => y.sle x

/-- Every `create` function yields the width that the operator prescribes and the operator applied to the values. -/
structure Faithful (opt : Bool) (v : Valuation) : Prop where
  read : ∀ (ul : UpdateList) (index : Expr), ul.WellTyped → ul.Sound opt false v → Operand opt v ul.array.domain index →
    (opt = true → ul.array.isConstantArray = true → index.value v < ul.array.size) →
    Evaluates opt v ul.array.range (ul.readAt v (index.value v)) (ReadExpr.create opt ul index)
  select : ∀ (w : Nat) (c t f : Expr), Operand opt v 1 c → Operand opt v w t → Operand opt v w f →
    Evaluates opt v w (if c.value v = 1 then t.value v else f.value v) (SelectExpr.create opt c t f)
  concat : ∀ (m n : Nat) (l r : Expr), Operand opt v m l → Operand opt v n r →
    Evaluates opt v (m + n) (l.bits v m ++ r.bits v n).toNat (ConcatExpr.create l r)
  createN : ∀ kids : List Expr, kids ≠ [] → (∀ kid ∈ kids, Operand opt v kid.getWidth kid) →
    Evaluates opt v (kids.map Expr.getWidth).sum (concatValue v kids) (ConcatExpr.createN kids)
  extract : ∀ (k : Nat) (e : Expr) (off w : Nat), Operand opt v k e → 0 < w → off + w ≤ k →
    Evaluates opt v w ((e.bits v k).extractLsb' off w).toNat (ExtractExpr.create e off w)
  zext : ∀ (k : Nat) (e : Expr) (w : Nat), Operand opt v k e → 0 < w →
    Evaluates opt v w ((e.bits v k).setWidth w).toNat (ZExtExpr.create e w)
  sext : ∀ (k : Nat) (e : Expr) (w : Nat), Operand opt v k e → 0 < w →
    Evaluates opt v w ((e.bits v k).signExtend w).toNat (SExtExpr.create e w)
  not : ∀ (w : Nat) (e : Expr), Operand opt v w e → Evaluates opt v w (~~~e.bits v w).toNat (NotExpr.create e)
  arith : ∀ (kind : ArithKind) (w : Nat) (l r : Expr), Operand opt v w l → Operand opt v w r →
    (divides kind = true → r.value v ≠ 0) →
    Evaluates opt v w (kind.eval (l.bits v w) (r.bits v w)).toNat (createArith opt kind l r)
  compare : ∀ (kind : Comparison) (w : Nat) (l r : Expr), Operand opt v w l → Operand opt v w r →
    Evaluates opt v 1 (kind.eval (l.bits v w) (r.bits v w)).toNat (createComparison opt l r kind)

section
variable {w k x : Nat} {n e : Expr} {result : Created}

theorem Produces.evaluates (h : Produces opt (fun _ => True) w n result) (hs : n.Sound opt false v)
    (hx : n.value v = x) : Evaluates opt v w x result := by
  obtain ⟨e, rfl, he⟩ := h
  exact ⟨e, rfl, ⟨he.typed, (he.value false v trivial hs).1⟩, (he.value_eq trivial hs).trans hx⟩

theorem Operand.evaluates (h : Operand opt v w e) (hx : e.value v = x) : Evaluates opt v w x (.ok e) := ⟨e, rfl, h, hx⟩

theorem Operand.toNat_bits (h : Operand opt v w e) : (e.bits v w).toNat = e.value v := Expr.toNat_bits h.wellTyped h.width

/-- The value of a node is read off the vector that it computes. -/
theorem value_of_bits {y : BitVec w} (hn : n.Typed w) (h : n.bits v w = y) : n.value v = y.toNat := by
  rw [← h, Expr.toNat_bits hn.1 hn.2]

theorem cmp_value {l r : Expr} (hl : l.Typed w) (kind : CmpKind) :
    (Expr.cmp kind l r).value v = (kind.eval (l.bits v w) (r.bits v w)).toNat := by
  obtain rfl := hl.width
  rfl

theorem extract_evaluates {off : Nat} (he : Operand opt v k e) (hw : 0 < w) (hoff : off + w ≤ k) :
    Evaluates opt v w ((e.bits v k).extractLsb' off w).toNat (ExtractExpr.create e off w) :=
  (ExtractExpr.create_spec he.toTyped hw hoff).evaluates he.inRange
    (value_of_bits (he.toTyped.extract hw hoff) (Expr.bits_extract off he.wellTyped he.width))

theorem foldl_concat (kids : List Expr) (x : Nat) :
    kids.foldl (fun x kid => x * 2 ^ kid.getWidth + kid.value v) x =
      x * 2 ^ (kids.map Expr.getWidth).sum + concatValue v kids := by
  induction kids generalizing x with
  | nil => simp [concatValue]
  | cons kid kids ih =>
    rw [concatValue, List.foldl_cons, List.foldl_cons, ih, ih]
    simp only [List.map_cons, List.sum_cons, Nat.pow_add]
    ring

theorem concatValue_cons (kid : Expr) (kids : List Expr) :
    concatValue v (kid :: kids) = kid.value v * 2 ^ (kids.map Expr.getWidth).sum + concatValue v kids := by
  rw [concatValue, List.foldl_cons, Nat.zero_mul, Nat.zero_add, foldl_concat]

end

/-- The chain is built from its last operands on. -/
theorem createN_evaluates (kids : List Expr) (hne : kids ≠ [])
    (hkids : ∀ kid ∈ kids, Operand opt v kid.getWidth kid) :
    Evaluates opt v (kids.map Expr.getWidth).sum (concatValue v kids) (ConcatExpr.createN kids) := by
  induction kids with
  | nil => exact absurd rfl hne
  | cons kid kids ih =>
    have hkid := hkids kid List.mem_cons_self
    cases kids with
    | nil => simpa [concatValue, ConcatExpr.createN] using hkid.evaluates rfl
    | cons kid' rest =>
      obtain ⟨r, hr, hoperand, hvalue⟩ := ih (List.cons_ne_nil _ _) fun e he => hkids e (List.mem_cons_of_mem _ he)
      rw [ConcatExpr.createN, hr, concatValue_cons, List.map_cons, List.sum_cons]
      · refine (ConcatExpr.create_spec hkid.toTyped hoperand.toTyped).evaluates ⟨hkid.inRange, hoperand.inRange⟩ ?_
        rw [Expr.value, hoperand.width, hvalue]
      · exact fun h => nomatch h

section
variable {w k m n off : Nat} {e l r c t f index : Expr} {ul : UpdateList}

theorem read_evaluates (hul : ul.WellTyped) (hulr : ul.Sound opt false v) (hindex : Operand opt v ul.array.domain index)
    (hrange : opt = true → ul.array.isConstantArray = true → index.value v < ul.array.size) :
    Evaluates opt v ul.array.range (ul.readAt v (index.value v)) (ReadExpr.create opt ul index) :=
  (ReadExpr.create_spec hul hindex.toTyped).evaluates ⟨hulr, hindex.inRange, hrange⟩ rfl

theorem select_evaluates (hc : Operand opt v 1 c) (ht : Operand opt v w t) (hf : Operand opt v w f) :
    Evaluates opt v w (if c.value v = 1 then t.value v else f.value v) (SelectExpr.create opt c t f) := by
  refine (SelectExpr.create_spec (Expr.Typed.select.mpr ⟨hc.toTyped, ht.toTyped, hf.toTyped⟩)).evaluates
    ⟨hc.inRange, ht.inRange, hf.inRange⟩ ?_
  have hlt : c.value v < 2 := by
    have : c.value v < _ := c.value_lt hc.wellTyped
    rwa [hc.width] at this
  rw [Expr.value]
  by_cases hone : c.value v = 1
  · rw [if_pos hone, if_pos (by omega)]
  · rw [if_neg hone, if_neg (by omega)]

theorem concat_evaluates (hl : Operand opt v m l) (hr : Operand opt v n r) :
    Evaluates opt v (m + n) (l.bits v m ++ r.bits v n).toNat (ConcatExpr.create l r) :=
  (ConcatExpr.create_spec hl.toTyped hr.toTyped).evaluates ⟨hl.inRange, hr.inRange⟩
    (value_of_bits (hl.toTyped.concat hr.toTyped) (Expr.bits_concat hl.wellTyped hr.wellTyped hl.width hr.width))

theorem zext_evaluates (he : Operand opt v k e) (hw : 0 < w) :
    Evaluates opt v w ((e.bits v k).setWidth w).toNat (ZExtExpr.create e w) := by
  rcases Nat.lt_trichotomy k w with hlt | rfl | hgt
  · exact (ZExtExpr.create_spec he.toTyped hlt).evaluates he.inRange
      (value_of_bits (he.toTyped.zext hlt) (Expr.bits_zext he.wellTyped he.width))
  · unfold ZExtExpr.create
    rw [if_pos he.width.symm, BitVec.setWidth_eq, he.toNat_bits]
    exact he.evaluates rfl
  · unfold ZExtExpr.create
    rw [if_neg (by rw [he.width]; omega), if_pos (by rw [he.width]; exact hgt),
      BitVec.setWidth_eq_extractLsb' (Nat.le_of_lt hgt)]
    exact extract_evaluates he hw (by omega)

theorem sext_evaluates (he : Operand opt v k e) (hw : 0 < w) :
    Evaluates opt v w ((e.bits v k).signExtend w).toNat (SExtExpr.create e w) := by
  rcases Nat.lt_trichotomy k w with hlt | rfl | hgt
  · exact (SExtExpr.create_spec he.toTyped hlt).evaluates he.inRange
      (value_of_bits (he.toTyped.sext hlt) (Expr.bits_sext he.width))
  · unfold SExtExpr.create
    rw [if_pos he.width.symm, BitVec.signExtend_eq, he.toNat_bits]
    exact he.evaluates rfl
  · unfold SExtExpr.create
    rw [if_neg (by rw [he.width]; omega), if_pos (by rw [he.width]; exact hgt),
      BitVec.signExtend_eq_setWidth_of_le _ (Nat.le_of_lt hgt), BitVec.setWidth_eq_extractLsb' (Nat.le_of_lt hgt)]
    exact extract_evaluates he hw (by omega)

theorem arith_evaluates (kind : ArithKind) (hl : Operand opt v w l) (hr : Operand opt v w r)
    (hdivisor : divides kind = true → r.value v ≠ 0) :
    Evaluates opt v w (kind.eval (l.bits v w) (r.bits v w)).toNat (createArith opt kind l r) := by
  have hzero : divides kind = true → r.bits v w ≠ 0 := fun hdiv h => hdivisor hdiv (by
    rw [← hr.toNat_bits, h]
    rfl)
  refine (createArith_spec kind hl.toTyped hr.toTyped fun hdiv _ h => ?_).evaluates
    ⟨hl.inRange, hr.inRange, fun h => nomatch h⟩ (value_of_bits (hl.toTyped.sum hr.toTyped) ?_)
  · subst h
    exact hzero hdiv (Expr.bits_constant 0)
  · rw [hl.toTyped.bits_arith, applyArith_eval hzero]

theorem compare_evaluates (kind : Comparison) (hl : Operand opt v w l) (hr : Operand opt v w r) :
    Evaluates opt v 1 (kind.eval (l.bits v w) (r.bits v w)).toNat (createComparison opt l r kind) := by
  have hvalue : (kind.node l r).value v = (kind.eval (l.bits v w) (r.bits v w)).toNat := by
    cases kind with
    | ugt | uge | sgt | sge => exact cmp_value hr.toTyped _
    | _ => exact cmp_value hl.toTyped _
  have hs : (kind.node l r).Sound opt false v := by
    cases kind <;> simp only [Comparison.node, Expr.Sound, hl.inRange, hr.inRange, and_self]
  exact (createComparison_spec kind hl.toTyped hr.toTyped).evaluates hs hvalue

end

/-- Expression construction preserves meaning. -/
theorem create_faithful (opt : Bool) (v : Valuation) : Faithful opt v where
  read _ _ hul hulr hindex hrange := read_evaluates hul hulr hindex hrange
  select _ _ _ _ hc ht hf := select_evaluates hc ht hf
  concat _ _ _ _ hl hr := concat_evaluates hl hr
  createN := createN_evaluates
  extract _ _ _ _ he hw hoff := extract_evaluates he hw hoff
  zext _ _ _ he hw := zext_evaluates he hw
  sext _ _ _ he hw := sext_evaluates he hw
  not _ _ he :=
    (NotExpr.create_spec he.toTyped).evaluates he.inRange
      (value_of_bits (Expr.Typed.not.mpr he.toTyped) (Expr.bits_not he.width))
  arith kind _ _ _ hl hr hdivisor := arith_evaluates kind hl hr hdivisor
  compare kind _ _ _ hl hr := compare_evaluates kind hl hr

/-- The sum of a byte of a symbolic array and two constants, with the option on and all elements 250. -/
theorem create_faithful_sum :
    Evaluates true (fun _ _ => 250) 8 3
      (createArith true .add
        (.arith .add (.constant 8 4) (.read (.root ⟨0, 4, 32, 8, []⟩) (.constant 32 2))) (.constant 8 5)) := by
  have hread : Operand true (fun _ _ => 250) 8
      (.arith .add (.constant 8 4) (.read (.root ⟨0, 4, 32, 8, []⟩) (.constant 32 2))) := by
    refine ⟨⟨⟨Nat.succ_pos 7, ⟨⟨by decide, by decide, fun h => nomatch h⟩, Nat.succ_pos 31, rfl⟩, rfl⟩, rfl⟩, trivial, ?_, ?_⟩
    · exact ⟨trivial, trivial, fun _ h => nomatch h⟩
    · exact fun h => nomatch h
  exact (create_faithful true fun _ _ => 250).arith .add 8 _ _ hread ⟨⟨Nat.succ_pos 7, rfl⟩, trivial⟩ (fun h => nomatch h)

end CapTaint.Klee
