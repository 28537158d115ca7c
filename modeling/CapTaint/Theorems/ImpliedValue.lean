import CapTaint.Klee.ImpliedValue
import CapTaint.Theorems.Create

/-! # Implied values

Each operator is inverted exactly. What goes wrong is a null reference below an `Or`, and the cast of a `Ne`. -/

namespace CapTaint.Klee

variable {v : Valuation} {e l r : Expr} {w k : Nat} {c d : ConstantExpr}

/-- The expression has the constant as its value. -/
structure Expr.Takes (v : Valuation) (e : Expr) (c : ConstantExpr) : Prop where
  wellTyped : e.WellTyped
  width : c.width = e.getWidth
  value : e.value v = c.value.toNat

theorem Expr.Takes.bits (h : e.Takes v c) : e.bits v c.width = c.value := by
  refine BitVec.eq_of_toNat_eq ?_
  rw [Expr.toNat_bits h.wellTyped h.width.symm, h.value]

theorem Expr.takes_of_bits {c : BitVec w} (he : e.Typed w) (h : e.bits v w = c) : e.Takes v ⟨w, c⟩ :=
  ⟨he.wellTyped, he.width.symm, by rw [← h, Expr.toNat_bits he.wellTyped he.width]⟩

namespace ImpliedValue

/-- The value is there, and the read has it. -/
def ImpliedPair.Right (v : Valuation) (pair : ImpliedPair) : Prop :=
  ∃ c, pair.value = some c ∧ (Expr.read pair.updates pair.index).value v = c.value.toNat

/-- The call returns, and what it puts into the list is right. -/
def Right (v : Valuation) (results : List ImpliedPair) (outcome : Except Abort (List ImpliedPair)) : Prop :=
  ∃ pairs, outcome = .ok (results ++ pairs) ∧ ∀ pair ∈ pairs, pair.Right v

/-- A call only adds to the list. -/
def Extends (f : List ImpliedPair → Except Abort (List ImpliedPair)) : Prop :=
  ∀ results results', f results = .ok results' → ∃ pairs, results' = results ++ pairs

variable {results : List ImpliedPair} {outcome : Except Abort (List ImpliedPair)} {f g : List ImpliedPair → Except Abort (List ImpliedPair)}

theorem right_nil (v : Valuation) (results : List ImpliedPair) : Right v results (.ok results) :=
  ⟨[], by rw [List.append_nil], nofun⟩

theorem not_right_error {a : Abort} : ¬Right v results (.error a) := fun ⟨_, h, _⟩ => nomatch h

theorem extends_ok : Extends .ok := fun results _ h => ⟨[], by cases h; rw [List.append_nil]⟩

theorem extends_error {a : Abort} : Extends fun _ => .error a := fun _ _ h => nomatch h

theorem Extends.bind (hf : Extends f) (hg : Extends g) : Extends fun results => f results >>= g := by
  intro results results' h
  dsimp only at h
  rcases hfirst : f results with a | middle
  · rw [hfirst] at h
    cases h
  · rw [hfirst] at h
    obtain ⟨first, rfl⟩ := hf _ _ hfirst
    obtain ⟨second, rfl⟩ := hg _ _ h
    exact ⟨first ++ second, List.append_assoc _ _ _⟩

/-- One call after the other. -/
theorem right_bind (hf : Extends f) (hg : Extends g) :
    Right v results (f results >>= g) ↔ Right v results (f results) ∧ ∀ middle, f results = .ok middle → Right v middle (g middle) := by
  constructor
  · rintro ⟨pairs, hok, hpairs⟩
    rcases hfirst : f results with a | middle
    · rw [hfirst] at hok
      cases hok
    · rw [hfirst] at hok
      obtain ⟨first, rfl⟩ := hf _ _ hfirst
      obtain ⟨second, hsecond⟩ := hg _ _ hok
      rw [List.append_assoc, List.append_cancel_left_eq] at hsecond
      subst hsecond
      refine ⟨⟨first, rfl, fun pair hpair => hpairs pair (List.mem_append_left _ hpair)⟩, fun middle hmiddle => ?_⟩
      cases hmiddle
      exact ⟨second, by rw [List.append_assoc]; exact hok, fun pair hpair => hpairs pair (List.mem_append_right _ hpair)⟩
  · rintro ⟨⟨first, hfirst, hpairs⟩, hrest⟩
    obtain ⟨second, hsecond, hpairs'⟩ := hrest _ hfirst
    refine ⟨first ++ second, ?_, ?_⟩
    · rw [hfirst, ← List.append_assoc]
      exact hsecond
    · intro pair hpair
      rcases List.mem_append.mp hpair with h | h
      exacts [hpairs pair h, hpairs' pair h]

/-! ### What a call adds -/

theorem extends_read {updates : UpdateList} {index : Expr} {value : Option ConstantExpr} :
    Extends (getImpliedValues (.read updates index) value) := fun results _ h => ⟨[⟨updates, index, value⟩], by cases h; rfl⟩

theorem extends_none (e : Expr) : Extends (getImpliedValues e none) := by
  rcases Bool.eq_false_or_eq_true (usesValue e) with h | h
  · obtain ⟨a, ha⟩ | ⟨updates, index, rfl⟩ := get_none_uses h
    · exact ha ▸ extends_error
    · exact extends_read
  · exact get_none h ▸ extends_ok

theorem extends_ite {P : Prop} [Decidable P] (hf : Extends f) (hg : Extends g) : Extends (if P then f else g) := by
  split
  exacts [hf, hg]

theorem extends_elim {o : Option ConstantExpr} {k : ConstantExpr → List ImpliedPair → Except Abort (List ImpliedPair)}
    (h : ∀ d, Extends (k d)) : Extends (o.elim .ok k) := by
  cases o with
  | none => exact extends_ok
  | some d => exact h d

theorem extends_some : (e : Expr) → (c : ConstantExpr) → Extends (getImpliedValues e (some c))
  | .constant w value, c => by
    intro results results' h
    simp only [getImpliedValues, deref, Option.elim_some, bind, Except.bind] at h
    split at h
    · exact extends_ok _ _ h
    · cases h
  | .notOptimized _, _ => extends_ok
  | .read _ _, _ => extends_read
  | .select cond t f, c => by
    rcases harms : constantArms t f with _ | arms
    · intro results results' h
      rw [getImpliedValues, harms] at h
      exact extends_ok _ _ h
    · rw [get_select harms]
      exact extends_ite (extends_some cond _) (extends_ite (extends_some cond _) extends_error)
  | .concat l r, c => get_concat ▸ (extends_some l _).bind (extends_some r _)
  | .extract _ _ _, _ => extends_ok
  | .zext src _, c => extends_some src _
  | .sext src _, c => extends_some src _
  | .not _, _ => extends_ok
  | .arith kind l r, c => by
    cases kind with
    | add => exact get_constant_left _ (.inl ⟨rfl, rfl⟩) ▸ extends_elim fun d => extends_some r _
    | sub => exact get_constant_left _ (.inr (.inl ⟨rfl, rfl⟩)) ▸ extends_elim fun d => extends_some r _
    | xor => exact get_constant_left _ (.inr (.inr ⟨rfl, rfl⟩)) ▸ extends_elim fun d => extends_some r _
    | and =>
      by_cases hl : l.getWidth = 1
      · exact get_and hl ▸ extends_ite ((extends_some l c).bind (extends_some r c)) extends_ok
      · exact get_and_wide hl ▸ extends_ok
    | or =>
      by_cases hzero : c.value = 0
      · exact get_or hzero ▸ (extends_none l).bind (extends_none r)
      · exact get_or_ne hzero ▸ extends_ok
    | _ => exact extends_ok
  | .cmp kind l r, c => by
    cases kind with
    | eq => exact get_eq ▸ extends_elim fun d => extends_ite (extends_some r d) (extends_ite (extends_some r _) extends_ok)
    | ne => exact extends_error
    | _ => exact extends_ok

/-! ### Inversion -/

theorem extract_toNat {off : Nat} (h : off + w ≤ c.width) : (c.extract off w).value.toNat = c.value.toNat / 2 ^ off % 2 ^ w := by
  rw [ConstantExpr.extract, extract_spec_constant c.value h, BitVec.extractLsb'_toNat, Nat.shiftRight_eq_div_pow]

theorem takes_concat (h : (Expr.concat l r).Takes v c) :
    l.Takes v (c.extract r.getWidth l.getWidth) ∧ r.Takes v (c.extract 0 r.getWidth) := by
  obtain ⟨⟨hl, hr⟩, hwidth, hvalue⟩ := h
  rw [Expr.getWidth] at hwidth
  have hlt := r.value_lt hr (v := v)
  rw [Expr.value] at hvalue
  refine ⟨⟨hl, rfl, ?_⟩, ⟨hr, rfl, ?_⟩⟩
  · rw [extract_toNat (by omega), ← hvalue, Nat.mul_comm, Nat.mul_add_div (Nat.two_pow_pos _), Nat.div_eq_of_lt hlt, Nat.add_zero,
      Nat.mod_eq_of_lt (l.value_lt hl)]
  · rw [extract_toNat (by omega), ← hvalue, pow_zero, Nat.div_one, Nat.mul_comm, Nat.mul_add_mod, Nat.mod_eq_of_lt hlt]

theorem takes_zext {src : Expr} (h : (Expr.zext src w).Takes v c) : src.Takes v (c.extract 0 src.getWidth) := by
  obtain ⟨⟨hsrc, hlt⟩, hwidth, hvalue⟩ := h
  refine ⟨hsrc, rfl, ?_⟩
  rw [Expr.getWidth] at hwidth
  rw [extract_toNat (by omega), ← hvalue, pow_zero, Nat.div_one, Expr.value, Nat.mod_eq_of_lt (src.value_lt hsrc)]

theorem takes_sext {src : Expr} (h : (Expr.sext src w).Takes v c) : src.Takes v (c.extract 0 src.getWidth) := by
  obtain ⟨⟨hsrc, hlt⟩, hwidth, hvalue⟩ := h
  refine ⟨hsrc, rfl, ?_⟩
  rw [Expr.getWidth] at hwidth
  have hback := congrArg BitVec.toNat (setWidth_signExtend (src.bits v src.getWidth) hlt.le)
  rw [BitVec.toNat_setWidth, Expr.toNat_bits hsrc rfl] at hback
  rw [extract_toNat (by omega), ← hvalue, pow_zero, Nat.div_one, Expr.value]
  exact hback.symm

/-- The operands of an operator, as vectors. -/
theorem takes_arith {kind : ArithKind} (h : (Expr.arith kind l r).Takes v c) :
    r.Typed c.width ∧ c.value = applyArith kind (l.bits v c.width) (r.bits v c.width) := by
  have hbits := h.bits
  obtain ⟨⟨hl, hr, heq⟩, hwidth, -⟩ := h
  rw [Expr.getWidth] at hwidth
  exact ⟨⟨hr, heq.symm.trans hwidth.symm⟩, by rw [← hbits, Expr.bits_arith kind hwidth.symm]⟩

theorem bits_of_asConstant (h : asConstant l = some d) (w : Nat) : l.bits v w = d.value.setWidth w := by
  rw [asConstant_some h, Expr.bits, Expr.value, BitVec.ofNat_toNat]

theorem takes_add (h : (Expr.arith .add l r).Takes v c) (hl : asConstant l = some d) : r.Takes v (c.sub d) := by
  obtain ⟨hr, hvalue⟩ := takes_arith h
  rw [applyArith_add, bits_of_asConstant hl] at hvalue
  exact Expr.takes_of_bits hr (by rw [hvalue, BitVec.add_comm, BitVec.add_sub_cancel])

theorem takes_sub (h : (Expr.arith .sub l r).Takes v c) (hl : asConstant l = some d) : r.Takes v (d.sub c) := by
  obtain ⟨hr, hvalue⟩ := takes_arith h
  have hwidth : d.width = c.width := by
    rw [h.width, asConstant_some hl]
    rfl
  obtain ⟨dw, d⟩ := d
  obtain ⟨cw, c⟩ := c
  obtain rfl : dw = cw := hwidth
  rw [applyArith_sub, bits_of_asConstant hl, BitVec.setWidth_eq] at hvalue
  refine Expr.takes_of_bits hr ?_
  dsimp only at hvalue ⊢
  rw [hvalue, BitVec.setWidth_eq, sub_sub_cancel]

theorem takes_xor (h : (Expr.arith .xor l r).Takes v c) (hl : asConstant l = some d) : r.Takes v (c.xor d) := by
  obtain ⟨hr, hvalue⟩ := takes_arith h
  rw [applyArith_xor, bits_of_asConstant hl] at hvalue
  refine Expr.takes_of_bits hr ?_
  rw [hvalue, BitVec.xor_comm, ← BitVec.xor_assoc, BitVec.xor_self, BitVec.zero_xor]

theorem takes_and (h : (Expr.arith .and l r).Takes v c) (hl : l.getWidth = 1) (hne : c.value ≠ 0) : l.Takes v c ∧ r.Takes v c := by
  obtain ⟨hr, hvalue⟩ := takes_arith h
  have hwidth : c.width = 1 := h.width.trans hl
  obtain ⟨cw, c⟩ := c
  obtain rfl : cw = 1 := hwidth
  have hboth : ∀ x y : BitVec 1, x &&& y ≠ 0 → x = x &&& y ∧ y = x &&& y := by decide
  dsimp only at hvalue hne hr
  rw [applyArith_and] at hvalue
  obtain ⟨hleft, hright⟩ := hboth _ _ (hvalue ▸ hne)
  exact ⟨Expr.takes_of_bits ⟨h.wellTyped.1, hl⟩ (hleft.trans hvalue.symm), Expr.takes_of_bits hr (hright.trans hvalue.symm)⟩

theorem takes_eq (h : (Expr.cmp .eq l r).Takes v c) (hl : asConstant l = some d) :
    (c.value ≠ 0 → r.Takes v d) ∧ (c.value = 0 → d.width = 1 → r.Takes v d.not) := by
  have hvalue := h.value
  obtain ⟨-, hr, hwidth⟩ := h.wellTyped
  have hdw : d.width = l.getWidth := by
    rw [asConstant_some hl]
    rfl
  obtain ⟨dw, d⟩ := d
  have hrt : r.Typed dw := ⟨hr, hwidth.symm.trans hdw.symm⟩
  have hbits : l.bits v dw = d := by rw [bits_of_asConstant hl, BitVec.setWidth_eq]
  have hlt : l.Typed dw := ⟨h.wellTyped.1, hdw.symm⟩
  have hcmp : (Expr.cmp .eq l r).value v = (decide (d = r.bits v dw)).toNat := by
    have hnode := Expr.bits_cmp (v := v) (l := l) (r := r) .eq hdw.symm
    have hnat := congrArg BitVec.toNat hnode
    rw [Expr.toNat_bits h.wellTyped (show (Expr.cmp .eq l r).getWidth = 1 from rfl), hbits] at hnat
    rw [hnat, CmpKind.eval, BitVec.toNat_ofBool]
  rw [hcmp] at hvalue
  constructor
  · intro hne
    refine Expr.takes_of_bits hrt ?_
    by_contra hother
    rw [decide_eq_false (fun heq => hother heq.symm)] at hvalue
    exact hne (BitVec.eq_of_toNat_eq hvalue.symm)
  · intro hzero hone
    obtain rfl : dw = 1 := hone
    refine Expr.takes_of_bits hrt ?_
    have hother : d ≠ r.bits v 1 := fun heq => by
      rw [decide_eq_true heq, hzero] at hvalue
      simp at hvalue
    have hbit : ∀ x y : BitVec 1, x ≠ y → y = ~~~x := by decide
    exact hbit _ _ hother

theorem takes_select {cond t f : Expr} {a b : ConstantExpr} (h : (Expr.select cond t f).Takes v c) (harms : constantArms t f = some (a, b)) :
    (c = a → cond.Takes v ⟨1, 1⟩) ∧ (c ≠ a → c = b ∧ cond.Takes v ⟨1, 0⟩) := by
  obtain ⟨ht, hf, hne⟩ := constantArms_some harms
  obtain ⟨hcond, -, -, hcw, hwidth⟩ := h.wellTyped
  have hvalue := h.value
  have hcwidth := h.width
  have hlt : cond.value v < 2 := by
    have := cond.value_lt hcond (v := v)
    rwa [hcw] at this
  subst ht
  subst hf
  rw [Expr.getWidth] at hcwidth
  rw [Expr.value] at hvalue
  have hext : ∀ c d : ConstantExpr, c.width = d.width → c.value.toNat = d.value.toNat → c = d := by
    rintro ⟨w, x⟩ ⟨w', y⟩ hw hxy
    obtain rfl : w = w' := hw
    obtain rfl : x = y := BitVec.eq_of_toNat_eq hxy
    rfl
  have hab : a.width = b.width := hwidth
  by_cases hzero : cond.value v = 0
  · rw [if_neg (not_not.mpr hzero)] at hvalue
    have hcb : c = b := hext c b (hcwidth.trans hab) hvalue.symm
    exact ⟨fun hca => absurd (hca.symm.trans hcb) hne, fun _ => ⟨hcb, ⟨hcond, hcw.symm, hzero⟩⟩⟩
  · rw [if_pos hzero] at hvalue
    have hca : c = a := hext c a hcwidth hvalue.symm
    exact ⟨fun _ => ⟨hcond, hcw.symm, by rw [show cond.value v = 1 by omega]; rfl⟩, fun hne' => absurd hca hne'⟩

/-! ### The traversal -/

/-- No call of the traversal is for a `Ne`, or for an `Or` of value zero with an operand that uses its value. -/
def Safe : Expr → ConstantExpr → Prop
  | .select cond t f, c => ∀ arms, constantArms t f = some arms → if c = arms.1 then Safe cond ⟨1, 1⟩ else Safe cond ⟨1, 0⟩
  | .concat l r, c => Safe l (c.extract r.getWidth l.getWidth) ∧ Safe r (c.extract 0 r.getWidth)
  | .zext src _, c => Safe src (c.extract 0 src.getWidth)
  | .sext src _, c => Safe src (c.extract 0 src.getWidth)
  | .arith .add l r, c => ∀ d, asConstant l = some d → Safe r (c.sub d)
  | .arith .sub l r, c => ∀ d, asConstant l = some d → Safe r (d.sub c)
  | .arith .xor l r, c => ∀ d, asConstant l = some d → Safe r (c.xor d)
  | .arith .and l r, c => l.getWidth = 1 → c.value ≠ 0 → Safe l c ∧ Safe r c
  | .arith .or l r, c => c.value = 0 → usesValue l = false ∧ usesValue r = false
  | .cmp .eq l r, c => ∀ d, asConstant l = some d → (c.value ≠ 0 → Safe r d) ∧ (c.value = 0 → d.width = 1 → Safe r d.not)
  | .cmp .ne _ _, _ => False
  | _, _ => True

variable {P Q : Prop}

theorem right_both (hf : Extends f) (hg : Extends g) (hleft : ∀ results, Right v results (f results) ↔ P)
    (hright : ∀ results, Right v results (g results) ↔ Q) : Right v results (f results >>= g) ↔ P ∧ Q := by
  rw [right_bind hf hg, hleft]
  refine and_congr_right fun hP => ?_
  obtain ⟨pairs, hpairs, -⟩ := (hleft results).mpr hP
  exact ⟨fun h => (hright _).mp (h _ hpairs), fun hQ middle _ => (hright _).mpr hQ⟩

theorem right_of_eq_ok (hf : f = .ok) (hP : P) : Right v results (f results) ↔ P :=
  iff_of_true (hf ▸ right_nil v results) hP

theorem right_none (e : Expr) (results : List ImpliedPair) :
    Right v results (getImpliedValues e none results) ↔ usesValue e = false := by
  constructor
  · intro h
    by_contra huses
    obtain ⟨a, ha⟩ | ⟨updates, index, rfl⟩ := get_none_uses (eq_true_of_ne_false huses)
    · rw [ha] at h
      exact not_right_error h
    · obtain ⟨pairs, hok, hpairs⟩ := h
      rw [getImpliedValues, Except.ok.injEq, List.append_cancel_left_eq] at hok
      obtain ⟨c, hc, -⟩ := hpairs ⟨updates, index, none⟩ (hok ▸ List.mem_singleton_self _)
      cases hc
  · exact fun h => get_none h ▸ right_nil v results

theorem right_elim {o : Option ConstantExpr} {k : ConstantExpr → List ImpliedPair → Except Abort (List ImpliedPair)}
    {S : ConstantExpr → Prop} (h : ∀ d, o = some d → (Right v results (k d results) ↔ S d)) :
    Right v results (o.elim .ok k results) ↔ ∀ d, o = some d → S d := by
  cases o with
  | none => exact iff_of_true (right_nil v results) nofun
  | some d =>
    refine (h d rfl).trans ⟨fun hS _ hd => ?_, fun hS => hS d rfl⟩
    cases hd
    exact hS

theorem right_iff : (e : Expr) → (c : ConstantExpr) → e.Takes v c → (results : List ImpliedPair) →
    (Right v results (getImpliedValues e (some c) results) ↔ Safe e c)
  | .constant w value, ⟨w', c⟩, h, results => by
    obtain rfl : w' = w := h.width
    have hvalue : c = value := BitVec.eq_of_toNat_eq h.value.symm
    rw [getImpliedValues]
    simp only [deref, Option.elim_some, bind, Except.bind, if_pos (congrArg (ConstantExpr.mk w') hvalue)]
    exact iff_of_true (right_nil v results) trivial
  | .notOptimized _, _, _, results => iff_of_true (right_nil v results) trivial
  | .read updates index, c, h, results => by
    refine iff_of_true ⟨[⟨updates, index, some c⟩], rfl, fun pair hpair => ?_⟩ trivial
    rw [List.mem_singleton.mp hpair]
    exact ⟨c, rfl, h.value⟩
  | .select cond t f, c, h, results => by
    rw [Safe]
    rcases harms : constantArms t f with _ | ⟨a, b⟩
    · rw [getImpliedValues, harms]
      exact iff_of_true (right_nil v results) fun arms hnone => absurd hnone.symm (Option.some_ne_none arms)
    · obtain ⟨htrue, hfalse⟩ := takes_select h harms
      simp only [get_select harms, Option.some.injEq, forall_eq']
      split_ifs with hca hcb
      · exact right_iff cond _ (htrue hca) results
      · exact right_iff cond _ (hfalse hca).2 results
      · exact absurd (hfalse hca).1 hcb
  | .concat l r, c, h, results => by
    obtain ⟨hl, hr⟩ := takes_concat h
    rw [get_concat, Safe]
    exact right_both (extends_some l _) (extends_some r _) (right_iff l _ hl) (right_iff r _ hr)
  | .extract _ _ _, _, _, results => iff_of_true (right_nil v results) trivial
  | .zext src _, c, h, results => right_iff src _ (takes_zext h) results
  | .sext src _, c, h, results => right_iff src _ (takes_sext h) results
  | .not _, _, _, results => iff_of_true (right_nil v results) trivial
  | .arith kind l r, c, h, results => by
    cases kind with
    | add =>
      rw [get_constant_left _ (.inl ⟨rfl, rfl⟩), Safe]
      exact right_elim fun d hd => right_iff r _ (takes_add h hd) results
    | sub =>
      rw [get_constant_left _ (.inr (.inl ⟨rfl, rfl⟩)), Safe]
      exact right_elim fun d hd => right_iff r _ (takes_sub h hd) results
    | xor =>
      rw [get_constant_left _ (.inr (.inr ⟨rfl, rfl⟩)), Safe]
      exact right_elim fun d hd => right_iff r _ (takes_xor h hd) results
    | and =>
      rw [Safe]
      by_cases hl : l.getWidth = 1
      · have htrue := ConstantExpr.isTrue_iff (h.width.trans hl)
        rw [get_and hl]
        by_cases hzero : c.value = 0
        · rw [if_neg fun hc => htrue.mp hc hzero]
          exact iff_of_true (right_nil v results) fun _ hne => absurd hzero hne
        · obtain ⟨htl, htr⟩ := takes_and h hl hzero
          rw [if_pos (htrue.mpr hzero), right_both (extends_some l c) (extends_some r c) (right_iff l c htl) (right_iff r c htr)]
          exact ⟨fun hboth _ _ => hboth, fun hboth => hboth hl hzero⟩
      · exact right_of_eq_ok (get_and_wide hl) fun h1 => absurd h1 hl
    | or =>
      rw [Safe]
      by_cases hzero : c.value = 0
      · rw [get_or hzero, right_both (extends_none l) (extends_none r) (right_none l) (right_none r)]
        exact ⟨fun hboth _ => hboth, fun hboth => hboth hzero⟩
      · exact right_of_eq_ok (get_or_ne hzero) fun h0 => absurd h0 hzero
    | _ => exact iff_of_true (right_nil v results) trivial
  | .cmp kind l r, c, h, results => by
    cases kind with
    | eq =>
      rw [get_eq, Safe]
      refine right_elim fun d hd => ?_
      have hiff := ConstantExpr.isTrue_iff h.width
      obtain ⟨htrue, hfalse⟩ := takes_eq h hd
      by_cases hzero : c.value = 0
      · rw [if_neg fun hc => hiff.mp hc hzero]
        by_cases hone : d.width = 1
        · rw [if_pos hone, right_iff r _ (hfalse hzero hone) results]
          exact ⟨fun hS => ⟨fun hne => absurd hzero hne, fun _ _ => hS⟩, fun hS => hS.2 hzero hone⟩
        · rw [if_neg hone]
          exact iff_of_true (right_nil v results) ⟨fun hne => absurd hzero hne, fun _ h1 => absurd h1 hone⟩
      · rw [if_pos (hiff.mpr hzero), right_iff r _ (htrue hzero) results]
        exact ⟨fun hS => ⟨fun _ => hS, fun h0 => absurd h0 hzero⟩, fun hS => hS.1 hzero⟩
    | ne => exact iff_of_false not_right_error not_false
    | _ => exact iff_of_true (right_nil v results) trivial

/-- What is put into the list is implied exactly when the traversal stays away from `Ne` and from null references. -/
theorem getImpliedValues_iff (he : e.Takes v c) : Right v [] (getImpliedValues e (some c) []) ↔ Safe e c :=
  right_iff e c he []

/-- A byte of an array of two. -/
def byteAt (i : Nat) : Expr := .read (.root ⟨0, 2, 32, 8, []⟩) (.constant 32 (.ofNat 32 i))

theorem byteAt_wellTyped (i : Nat) : (byteAt i).WellTyped :=
  ⟨⟨by decide, by decide, nofun⟩, show 0 < 32 by decide, rfl⟩

/-- A byte of four, added to sixteen. -/
theorem getImpliedValues_iff_add :
    Right (fun _ _ => 4) [] (getImpliedValues (.arith .add (.constant 8 16) (byteAt 0)) (some ⟨8, 20⟩) []) ↔
      Safe (.arith .add (.constant 8 16) (byteAt 0)) ⟨8, 20⟩ :=
  getImpliedValues_iff ⟨⟨show 0 < 8 by decide, byteAt_wellTyped 0, rfl⟩, rfl, by decide⟩

/-- Two bytes, both zero, and their disjunction. -/
theorem not_implied_or : ∃ v e c pairs, Expr.Takes v e c ∧ getImpliedValues e (some c) [] = .ok pairs ∧
    ∃ pair ∈ pairs, pair.value = none :=
  ⟨fun _ _ => 0, .arith .or (byteAt 0) (byteAt 1), ⟨8, 0⟩, _,
    ⟨⟨byteAt_wellTyped 0, byteAt_wellTyped 1, rfl⟩, rfl, by decide⟩, rfl, _, List.mem_cons_self, rfl⟩

end ImpliedValue
end CapTaint.Klee
