import CapTaint.Theorems.Rewrites

/-! # Construction preserves meaning

Each `create` function ends with an expression that may stand for the node it was asked for: it has the width that the
operator prescribes and the value of the operator applied to the values of the operands. -/

namespace CapTaint.Klee

variable {opt : Bool} {V : Valuation → Prop} {w k : Nat} {e l r c t f : Expr}

section

attribute [local simp] applyArith divides ArithKind.eval

variable {x y : BitVec w}

@[simp] theorem applyArith_add : applyArith .add x y = x + y := by simp [applyArith, divides, ArithKind.eval]

@[simp] theorem applyArith_sub : applyArith .sub x y = x - y := by simp [applyArith, divides, ArithKind.eval]

@[simp] theorem applyArith_mul : applyArith .mul x y = x * y := by simp [applyArith, divides, ArithKind.eval]

@[simp] theorem applyArith_and : applyArith .and x y = x &&& y := by simp [applyArith, divides, ArithKind.eval]

@[simp] theorem applyArith_or : applyArith .or x y = x ||| y := by simp [applyArith, divides, ArithKind.eval]

@[simp] theorem applyArith_xor : applyArith .xor x y = x ^^^ y := by simp [applyArith, divides, ArithKind.eval]

theorem applyArith_eval {kind : ArithKind} (h : divides kind = true → y ≠ 0) : applyArith kind x y = kind.eval x y :=
  if_neg fun hzero => h hzero.1 hzero.2

end

theorem Expr.Typed.constant_or (h : e.Typed w) : (∃ value : BitVec w, e = .constant w value) ∨ e.isConstant = false := by
  cases e with
  | constant w' value =>
    obtain rfl : w' = w := h.width
    exact .inl ⟨value, rfl⟩
  | _ => exact .inr rfl

theorem Expr.Typed.bits_arith (hl : l.Typed w) (kind : ArithKind) (v : Valuation) :
    (Expr.arith kind l r).bits v w = applyArith kind (l.bits v w) (r.bits v w) := Expr.bits_arith kind hl.width

theorem Expr.Typed.bits_cmp (hl : l.Typed w) (kind : CmpKind) (v : Valuation) :
    (Expr.cmp kind l r).bits v 1 = BitVec.ofBool (kind.eval (l.bits v w) (r.bits v w)) := Expr.bits_cmp kind hl.width

/-! ### Folding -/

/-- An expression of width `w` with a value that depends on no read is rewritten to the constant. -/
theorem Rewrites.to_constant {n : Expr} (hn : n.Typed w) {value : BitVec w}
    (h : ∀ div v, V v → n.Sound opt div v → value = n.bits v w) : Rewrites opt V w n (.constant w value) where
  source := hn
  typed := .constant hn.pos value
  weight := Nat.zero_le _
  value div v hv hs := ⟨trivial, (Expr.bits_constant value).trans (h div v hv hs)⟩

theorem foldArith_spec (kind : ArithKind) (hw : 0 < w) (cl cr : BitVec w) (h : divides kind = true → cr ≠ 0) :
    Produces opt V w (.arith kind (.constant w cl) (.constant w cr)) (foldArith kind cl cr) := by
  rw [foldArith, if_neg (fun hzero => h hzero.1 hzero.2)]
  refine .ok (.to_constant (Expr.Typed.arith.mpr ⟨.constant hw cl, .constant hw cr⟩) fun div v _ _ => ?_)
  rw [Expr.Typed.bits_arith (.constant hw cl), Expr.bits_constant, Expr.bits_constant, applyArith_eval h,
    BitVec.setWidth_eq]

theorem foldCmp_spec (kind : CmpKind) (hw : 0 < w) (cl cr : BitVec w) :
    Produces opt V 1 (.cmp kind (.constant w cl) (.constant w cr)) (foldCmp kind cl cr) := by
  refine .ok (.to_constant (.cmp (.constant hw cl) (.constant hw cr)) fun div v _ _ => ?_)
  rw [Expr.Typed.bits_cmp (.constant hw cl), Expr.bits_constant, Expr.bits_constant, BitVec.setWidth_eq]

section
variable {w' : Nat} {fold : ∀ {wl wr : Nat}, BitVec wl → BitVec wr → Created}
  {partialR : ∀ {w : Nat}, BitVec w → Expr → Created} {partialL : ∀ {w : Nat}, Expr → BitVec w → Created}
  {rest : Expr → Expr → Created} (node : Expr → Expr → Expr)

/-- The rule for the macros with partial functions: one premise for each way in which the operands are constant. -/
theorem bcreateR_spec (hl : l.Typed w) (hr : r.Typed w)
    (hfold : ∀ cl cr : BitVec w, l = .constant w cl → r = .constant w cr →
      Produces opt V w' (node (.constant w cl) (.constant w cr)) (fold cl cr))
    (hR : ∀ cl : BitVec w, r.isConstant = false → Produces opt V w' (node (.constant w cl) r) (partialR cl r))
    (hL : ∀ cr : BitVec w, l.isConstant = false → Produces opt V w' (node l (.constant w cr)) (partialL l cr))
    (hrest : l.isConstant = false → r.isConstant = false → Produces opt V w' (node l r) (rest l r)) :
    Produces opt V w' (node l r) (bcreateR fold partialR partialL rest l r) := by
  unfold bcreateR
  rw [if_neg (not_not.mpr (hl.width.trans hr.width.symm))]
  rcases hl.constant_or with ⟨cl, rfl⟩ | hlc <;> rcases hr.constant_or with ⟨cr, rfl⟩ | hrc
  · exact hfold cl cr rfl rfl
  · cases r with
    | constant _ _ => cases hrc
    | _ => exact hR cl rfl
  · cases l with
    | constant _ _ => cases hlc
    | _ => exact hL cr rfl
  · cases l with
    | constant _ _ => cases hlc
    | _ =>
      cases r with
      | constant _ _ => cases hrc
      | _ => exact hrest rfl rfl

/-- The rule for the macros that only fold. -/
theorem bcreate_spec (hl : l.Typed w) (hr : r.Typed w)
    (hfold : ∀ cl cr : BitVec w, l = .constant w cl → r = .constant w cr →
      Produces opt V w' (node (.constant w cl) (.constant w cr)) (fold cl cr))
    (hrest : Produces opt V w' (node l r) (rest l r)) :
    Produces opt V w' (node l r) (bcreate fold rest l r) := by
  unfold bcreate
  rw [if_neg (not_not.mpr (hl.width.trans hr.width.symm))]
  rcases hl.constant_or with ⟨cl, rfl⟩ | hlc
  · rcases hr.constant_or with ⟨cr, rfl⟩ | hrc
    · exact hfold cl cr rfl rfl
    · cases r with
      | constant _ _ => cases hrc
      | _ => exact hrest
  · cases l with
    | constant _ _ => cases hlc
    | _ => exact hrest

end

/-! ### Parts of vectors -/

theorem extract_spec_constant {off : Nat} (value : BitVec k) (hoff : off + w ≤ k) :
    (value.sshiftRight off).setWidth w = value.extractLsb' off w := by
  apply BitVec.eq_of_getLsbD_eq
  intro i hi
  rw [BitVec.getLsbD_setWidth, BitVec.getLsbD_sshiftRight, BitVec.getLsbD_extractLsb']
  simp [hi, show off + i < k by omega, show i < k by omega]

/-- Two neighbouring parts of one expression are one part of it. -/
theorem Rewrites.merge_extracts {ol wl or wr : Nat} (hl : (Expr.extract e ol wl).WellTyped)
    (hr : (Expr.extract e or wr).WellTyped) (h : or + wr = ol) :
    Rewrites opt V (wl + wr) (.concat (.extract e ol wl) (.extract e or wr)) (.extract e or (wl + wr)) where
  source := .concat (.self hl) (.self hr)
  typed := .extract (.self hl.1) (Nat.add_pos_left hl.2.1 _) (by have := hl.2.2; omega)
  weight := by
    simp only [Expr.weight]
    omega
  value div v _ hs := by
    refine ⟨hs.1, ?_⟩
    have hwidth : ∀ {off n : Nat}, (Expr.extract e off n).getWidth = n := rfl
    rw [Expr.bits_concat hl hr hwidth hwidth, Expr.bits_extract _ hl.1 rfl, Expr.bits_extract _ hl.1 rfl,
      Expr.bits_extract _ hl.1 rfl]
    exact (BitVec.extractLsb'_append_extractLsb'_eq_extractLsb' h.symm).symm

/-- The size of what a part is taken of. -/
def Expr.partSize : Expr → Nat
  | .extract expr _ _ => expr.size
  | _ => 0

theorem Expr.partSize_le (e : Expr) : e.partSize ≤ e.size := by
  cases e with
  | extract e off w => exact Nat.le_succ _
  | _ => exact Nat.zero_le _

theorem ConcatExpr.createWith_spec (extract : Expr → Nat → Nat → Created) {m n : Nat} (bound : Nat) (hl : l.Typed m)
    (hr : r.Typed n)
    (hextract : ∀ el ol wl or wr, l = .extract el ol wl → r = .extract el or wr → or + wr = ol →
      ∃ x, extract el or (wl + wr) = .ok x ∧ Rewrites opt V (m + n) (.extract el or (wl + wr)) x ∧ x.partSize ≤ bound) :
    ∃ x, ConcatExpr.createWith extract l r = .ok x ∧ Rewrites opt V (m + n) (.concat l r) x ∧ x.partSize ≤ bound := by
  unfold ConcatExpr.createWith
  split
  case h_1 wl cl wr cr =>
    obtain rfl : wl = m := hl.width
    obtain rfl : wr = n := hr.width
    refine ⟨_, rfl, .to_constant (hl.concat hr) fun div v _ _ => ?_, Nat.zero_le _⟩
    rw [Expr.bits_concat hl.1 hr.1 hl.2 hr.2, Expr.bits_constant, Expr.bits_constant]
  case h_2 el ol wl er or wr =>
    obtain rfl : wl = m := hl.width
    obtain rfl : wr = n := hr.width
    split
    case isTrue h =>
      obtain ⟨rfl, hoff⟩ := h
      obtain ⟨x, hx, hrewrites, hbound⟩ := hextract el ol wl or wr rfl rfl hoff
      exact ⟨x, hx, (Rewrites.merge_extracts hl.1 hr.1 hoff).trans hrewrites, hbound⟩
    case isFalse => exact ⟨_, rfl, .refl (hl.concat hr), Nat.zero_le _⟩
  case h_3 => exact ⟨_, rfl, .refl (hl.concat hr), Nat.zero_le _⟩

theorem Rewrites.extract_whole (he : e.Typed k) {off : Nat} (hoff : off + k ≤ k) :
    Rewrites opt V k (.extract e off k) e where
  source := he.extract he.pos hoff
  typed := he
  weight := by
    simp only [Expr.weight]
    omega
  value div v _ hs := by
    obtain rfl : off = 0 := by omega
    exact ⟨hs, by rw [Expr.bits_extract _ he.1 he.2, BitVec.extractLsb'_eq_self]⟩

/-- The part skips the right side of a concatenation. -/
theorem Rewrites.extract_left {m n off : Nat} (hl : l.Typed m) (hr : r.Typed n) (hw : 0 < w) (hoff : off + w ≤ m + n)
    (hn : n ≤ off) : Rewrites opt V w (.extract (.concat l r) off w) (.extract l (off - n) w) where
  source := .extract (hl.concat hr) hw hoff
  typed := .extract hl hw (by omega)
  weight := by
    simp only [Expr.weight]
    omega
  value div v _ hs := by
    refine ⟨hs.1, ?_⟩
    rw [Expr.bits_extract _ hl.1 hl.2, Expr.bits_extract _ (hl.concat hr).1 (hl.concat hr).2,
      Expr.bits_concat hl.1 hr.1 hl.2 hr.2, BitVec.extractLsb'_append_eq_of_le hn]

/-- The part skips the left side of a concatenation. -/
theorem Rewrites.extract_right {m n off : Nat} (hl : l.Typed m) (hr : r.Typed n) (hw : 0 < w) (hoff : off + w ≤ n) :
    Rewrites opt V w (.extract (.concat l r) off w) (.extract r off w) where
  source := .extract (hl.concat hr) hw (by omega)
  typed := .extract hr hw hoff
  weight := by
    simp only [Expr.weight]
    omega
  value div v _ hs := by
    refine ⟨hs.2, ?_⟩
    rw [Expr.bits_extract _ hr.1 hr.2, Expr.bits_extract _ (hl.concat hr).1 (hl.concat hr).2,
      Expr.bits_concat hl.1 hr.1 hl.2 hr.2, BitVec.extractLsb'_append_eq_of_add_le hoff]

/-- A part that meets both sides is put together from a part of each. -/
theorem Rewrites.extract_concat {m n off wl wr : Nat} {l' r' : Expr} (hl : l.Typed m) (hr : r.Typed n)
    (hl' : Rewrites opt V wl (.extract l 0 wl) l') (hr' : Rewrites opt V wr (.extract r off wr) r') (hwl : wl ≤ m)
    (hwr : off + wr = n) :
    Rewrites opt V (wl + wr) (.extract (.concat l r) off (wl + wr)) (.concat l' r') where
  source := .extract (hl.concat hr) (Nat.add_pos_left hl'.source.pos _) (by omega)
  typed := hl'.typed.concat hr'.typed
  weight := by
    have hlweight := hl'.weight
    have hrweight := hr'.weight
    simp only [Expr.weight] at hlweight hrweight ⊢
    omega
  value div v hv hs := by
    obtain ⟨hls, hlv⟩ := hl'.value div v hv hs.1
    obtain ⟨hrs, hrv⟩ := hr'.value div v hv hs.2
    refine ⟨⟨hls, hrs⟩, ?_⟩
    rw [Expr.bits_concat hl'.typed.1 hr'.typed.1 hl'.typed.2 hr'.typed.2, hlv, hrv, Expr.bits_extract _ hl.1 hl.2,
      Expr.bits_extract _ hr.1 hr.2, Expr.bits_extract _ (hl.concat hr).1 (hl.concat hr).2,
      Expr.bits_concat hl.1 hr.1 hl.2 hr.2]
    apply BitVec.eq_of_getLsbD_eq
    intro i hi
    simp only [BitVec.getLsbD_append, BitVec.getLsbD_extractLsb', hi, decide_true, Bool.true_and]
    by_cases hlow : i < wr
    · simp [hlow, show off + i < n by omega]
    · simp [hlow, show ¬off + i < n by omega, show i - wr < wl by omega, show off + i - n = i - wr by omega]

/-- No step of the recursion needs more than the size of its expression. -/
theorem ExtractExpr.createFuel_spec : ∀ (fuel : Nat) {e : Expr} {k : Nat} (off w : Nat), e.Typed k → e.size < fuel → 0 < w →
    off + w ≤ k → ∃ x, ExtractExpr.createFuel fuel e off w = .ok x ∧ Rewrites opt V w (.extract e off w) x ∧
      x.partSize ≤ e.size := by
  intro fuel
  induction fuel with
  | zero => exact fun _ _ _ hfuel => absurd hfuel (Nat.not_lt_zero _)
  | succ fuel ih =>
    intro e k off w he hfuel hw hoff
    unfold ExtractExpr.createFuel
    rw [if_neg (not_not.mpr ⟨hw, he.width ▸ hoff⟩)]
    by_cases hwhole : w = e.getWidth
    · obtain rfl : w = k := hwhole.trans he.width
      rw [if_pos hwhole]
      exact ⟨e, rfl, .extract_whole he hoff, e.partSize_le⟩
    rw [if_neg hwhole]
    cases e with
    | constant kc value =>
      obtain rfl : kc = k := he.width
      refine ⟨_, rfl, .to_constant (he.extract hw hoff) fun div v _ _ => ?_, Nat.zero_le _⟩
      rw [Expr.bits_extract _ he.1 he.2, Expr.bits_constant, extract_spec_constant value hoff]
    | concat left right =>
      have hl : left.Typed left.getWidth := .self he.1.1
      have hr : right.Typed right.getWidth := .self he.1.2
      have hk : left.getWidth + right.getWidth = k := he.width
      have hsizes : (Expr.concat left right).size = left.size + right.size + 1 := rfl
      dsimp only
      split
      case isTrue hright =>
        obtain ⟨x, hx, hrewrites, hxs⟩ := ih (off - right.getWidth) w hl (by omega) hw (by omega)
        exact ⟨x, hx, (Rewrites.extract_left hl hr hw (hk ▸ hoff) hright).trans hrewrites, by omega⟩
      case isFalse hright =>
        split
        case isTrue hleft =>
          obtain ⟨x, hx, hrewrites, hxs⟩ := ih off w hr (by omega) hw hleft
          exact ⟨x, hx, (Rewrites.extract_right hl hr hw hleft).trans hrewrites, by omega⟩
        case isFalse hleft =>
          obtain ⟨l', hl', hlrewrites, hlsize⟩ := ih 0 (w + off - right.getWidth) hl (by omega) (by omega) (by omega)
          obtain ⟨r', hr', hrrewrites, hrsize⟩ := ih off (right.getWidth - off) hr (by omega) (by omega) (by omega)
          have hconcat := Rewrites.extract_concat hl hr hlrewrites hrrewrites (by omega) (by omega)
          have hsum : w + off - right.getWidth + (right.getWidth - off) = w := by omega
          have hextract : ∀ el ol wl or wr, l' = .extract el ol wl → r' = .extract el or wr → or + wr = ol →
              ∃ x, ExtractExpr.createFuel fuel el or (wl + wr) = .ok x ∧
                Rewrites opt V (w + off - right.getWidth + (right.getWidth - off)) (.extract el or (wl + wr)) x ∧
                x.partSize ≤ left.size := by
            rintro el ol wl or wr rfl rfl hmerge
            have hpart : el.size ≤ left.size := hlsize
            obtain ⟨⟨hel, _, hext⟩, hwl⟩ := hlrewrites.typed
            obtain ⟨_, hwr⟩ := hrrewrites.typed
            obtain rfl : wl = _ := hwl
            obtain rfl : wr = _ := hwr
            obtain ⟨x, hx, hxrewrites, hxs⟩ :=
              ih or (w + off - right.getWidth + (right.getWidth - off)) (.self hel) (by omega) (by omega) (by omega)
            exact ⟨x, hx, hxrewrites, hxs.trans hpart⟩
          obtain ⟨x, hx, hxrewrites, hxsize⟩ :=
            ConcatExpr.createWith_spec (ExtractExpr.createFuel fuel) left.size hlrewrites.typed hrrewrites.typed hextract
          rw [hl', hr']
          rw [hsum] at hconcat hxrewrites
          exact ⟨x, hx, hconcat.trans hxrewrites, by omega⟩
    | _ => exact ⟨_, rfl, .refl (he.extract hw hoff), le_rfl⟩

theorem ExtractExpr.create_spec (he : e.Typed k) {off : Nat} (hw : 0 < w) (hoff : off + w ≤ k) :
    Produces opt V w (.extract e off w) (ExtractExpr.create e off w) := by
  obtain ⟨x, hx, hrewrites, -⟩ := ExtractExpr.createFuel_spec (e.size + 1) off w he (Nat.lt_succ_self _) hw hoff
  exact ⟨x, hx, hrewrites⟩

theorem ConcatExpr.create_spec {m n : Nat} (hl : l.Typed m) (hr : r.Typed n) :
    Produces opt V (m + n) (.concat l r) (ConcatExpr.create l r) := by
  have hextract : ∀ el ol wl or wr, l = .extract el ol wl → r = .extract el or wr → or + wr = ol →
      ∃ x, ExtractExpr.create el or (wl + wr) = .ok x ∧ Rewrites opt V (m + n) (.extract el or (wl + wr)) x ∧
        x.partSize ≤ l.size := by
    rintro el ol wl or wr rfl rfl hmerge
    obtain ⟨⟨hel, hpos, hext⟩, rfl⟩ := hl
    obtain ⟨-, rfl⟩ := hr
    simp only [Expr.getWidth]
    obtain ⟨x, hx, hrewrites, hsize⟩ := ExtractExpr.createFuel_spec (el.size + 1) or (wl + wr) (.self hel)
      (Nat.lt_succ_self _) (by omega) (by omega)
    exact ⟨x, hx, hrewrites, hsize.trans (Nat.le_succ _)⟩
  obtain ⟨x, hx, hrewrites, -⟩ := ConcatExpr.createWith_spec ExtractExpr.create l.size hl hr hextract
  exact ⟨x, hx, hrewrites⟩

theorem ZExtExpr.create_spec (he : e.Typed k) (hk : k < w) : Produces opt V w (.zext e w) (ZExtExpr.create e w) := by
  unfold ZExtExpr.create
  rw [he.width, if_neg (Nat.ne_of_gt hk), if_neg (Nat.lt_asymm hk)]
  split
  case h_1 k' value =>
    obtain rfl : k' = k := he.width
    refine .ok (.to_constant (he.zext hk) fun div v _ _ => ?_)
    rw [Expr.bits_zext he.1 he.2, Expr.bits_constant]
  case h_2 => exact .ok (.refl (he.zext hk))

theorem SExtExpr.create_spec (he : e.Typed k) (hk : k < w) : Produces opt V w (.sext e w) (SExtExpr.create e w) := by
  unfold SExtExpr.create
  rw [he.width, if_neg (Nat.ne_of_gt hk), if_neg (Nat.lt_asymm hk)]
  split
  case h_1 k' value =>
    obtain rfl : k' = k := he.width
    refine .ok (.to_constant (he.sext hk) fun div v _ _ => ?_)
    rw [Expr.bits_sext he.2, Expr.bits_constant]
  case h_2 => exact .ok (.refl (he.sext hk))

theorem NotExpr.create_spec (he : e.Typed w) : Produces opt V w (.not e) (NotExpr.create e) := by
  unfold NotExpr.create
  split
  case h_1 w' value =>
    obtain rfl : w' = w := he.width
    refine .ok (.to_constant (Expr.Typed.not.mpr he) fun div v _ _ => ?_)
    rw [Expr.bits_not he.2, Expr.bits_constant]
  case h_2 => exact .ok (.refl (Expr.Typed.not.mpr he))

/-! ### And, or -/

namespace Rewrites
variable {kind kind' : ArithKind}

theorem to_left (hl : l.Typed w) (hr : r.Typed w)
    (h : ∀ v, applyArith kind (l.bits v w) (r.bits v w) = l.bits v w) : Rewrites opt V w (.arith kind l r) l where
  source := Expr.Typed.arith.mpr ⟨hl, hr⟩
  typed := hl
  weight := Nat.le_add_right_of_le (Nat.le_add_right _ _)
  value _ v _ hs := ⟨hs.1, ((hl.bits_arith kind v).trans (h v)).symm⟩

theorem to_right (hl : l.Typed w) (hr : r.Typed w)
    (h : ∀ v, applyArith kind (l.bits v w) (r.bits v w) = r.bits v w) : Rewrites opt V w (.arith kind l r) r where
  source := Expr.Typed.arith.mpr ⟨hl, hr⟩
  typed := hr
  weight := Nat.le_add_right_of_le (Nat.le_add_left _ _)
  value _ v _ hs := ⟨hs.2.1, ((hl.bits_arith kind v).trans (h v)).symm⟩

theorem arith_constant (hl : l.Typed w) (hr : r.Typed w) {value : BitVec w}
    (h : ∀ v, applyArith kind (l.bits v w) (r.bits v w) = value) :
    Rewrites opt V w (.arith kind l r) (.constant w value) :=
  .to_constant (Expr.Typed.arith.mpr ⟨hl, hr⟩) fun _ v _ _ => ((hl.bits_arith kind v).trans (h v)).symm

theorem arith_kind (hl : l.Typed w) (hr : r.Typed w) (hdiv : divides kind' = false)
    (hcost : ArithKind.cost kind' ≤ ArithKind.cost kind)
    (h : ∀ x y : BitVec w, applyArith kind' x y = applyArith kind x y) :
    Rewrites opt V w (.arith kind l r) (.arith kind' l r) where
  source := Expr.Typed.arith.mpr ⟨hl, hr⟩
  typed := Expr.Typed.arith.mpr ⟨hl, hr⟩
  weight := Nat.add_le_add_left hcost _
  value div v _ hs := by
    refine ⟨⟨hs.1, hs.2.1, fun _ htrue => ?_⟩, by rw [hl.bits_arith, hl.bits_arith, h]⟩
    rw [hdiv] at htrue
    cases htrue

theorem arith_swap (hl : l.Typed w) (hr : r.Typed w) (hdiv : divides kind = false)
    (h : ∀ x y : BitVec w, applyArith kind y x = applyArith kind x y) :
    Rewrites opt V w (.arith kind l r) (.arith kind r l) where
  source := Expr.Typed.arith.mpr ⟨hl, hr⟩
  typed := Expr.Typed.arith.mpr ⟨hr, hl⟩
  weight := by
    simp only [Expr.weight]
    omega
  value div v _ hs := by
    refine ⟨⟨hs.2.1, hs.1, fun _ htrue => ?_⟩, by rw [hl.bits_arith, hr.bits_arith, h]⟩
    rw [hdiv] at htrue
    cases htrue

end Rewrites

theorem AndExpr.createPartial_spec (hl : l.Typed w) (value : BitVec w) :
    Produces opt V w (.arith .and l (.constant w value)) (AndExpr.createPartial l value) := by
  have hr : (Expr.constant w value).Typed w := .constant hl.pos value
  unfold AndExpr.createPartial
  split
  case isTrue hones =>
    subst hones
    exact .ok (.to_left hl hr fun v => by simp)
  case isFalse =>
    split
    case isTrue hzero =>
      subst hzero
      exact .ok (.arith_constant hl hr fun v => by simp)
    case isFalse => exact .ok (.refl (Expr.Typed.arith.mpr ⟨hl, hr⟩))

theorem AndExpr.create_spec (hl : l.Typed w) (hr : r.Typed w) :
    Produces opt V w (.arith .and l r) (AndExpr.create l r) := by
  refine bcreateR_spec (.arith .and) hl hr (fun cl cr _ _ => ?_) (fun cl _ => ?_) (fun cr _ => ?_) fun _ _ => ?_
  · exact foldArith_spec .and hl.pos cl cr (fun h => nomatch h)
  · exact (AndExpr.createPartial_spec hr cl).of_rewrites
      (.arith_swap (.constant hl.pos cl) hr rfl fun x y => by simp [BitVec.and_comm])
  · exact AndExpr.createPartial_spec hl cr
  · exact .ok (.refl (Expr.Typed.arith.mpr ⟨hl, hr⟩))

theorem OrExpr.createPartial_spec (hl : l.Typed w) (value : BitVec w) :
    Produces opt V w (.arith .or l (.constant w value)) (OrExpr.createPartial l value) := by
  have hr : (Expr.constant w value).Typed w := .constant hl.pos value
  unfold OrExpr.createPartial
  split
  case isTrue hones =>
    subst hones
    exact .ok (.arith_constant hl hr fun v => by simp)
  case isFalse =>
    split
    case isTrue hzero =>
      subst hzero
      exact .ok (.to_left hl hr fun v => by simp)
    case isFalse => exact .ok (.refl (Expr.Typed.arith.mpr ⟨hl, hr⟩))

theorem OrExpr.create_spec (hl : l.Typed w) (hr : r.Typed w) :
    Produces opt V w (.arith .or l r) (OrExpr.create l r) := by
  refine bcreateR_spec (.arith .or) hl hr (fun cl cr _ _ => ?_) (fun cl _ => ?_) (fun cr _ => ?_) fun _ _ => ?_
  · exact foldArith_spec .or hl.pos cl cr (fun h => nomatch h)
  · exact (OrExpr.createPartial_spec hr cl).of_rewrites
      (.arith_swap (.constant hl.pos cl) hr rfl fun x y => by simp [BitVec.or_comm])
  · exact OrExpr.createPartial_spec hl cr
  · exact .ok (.refl (Expr.Typed.arith.mpr ⟨hl, hr⟩))

/-! ### Equality -/

theorem Expr.Typed.bits_eq (hl : l.Typed w) (v : Valuation) :
    (Expr.cmp .eq l r).bits v 1 = BitVec.ofBool (decide (l.bits v w = r.bits v w)) := hl.bits_cmp .eq v

namespace Rewrites

theorem eq_swap (hl : l.Typed w) (hr : r.Typed w) : Rewrites opt V 1 (.cmp .eq l r) (.cmp .eq r l) where
  source := hl.cmp hr
  typed := hr.cmp hl
  weight := by
    simp only [Expr.weight]
    omega
  value div v _ hs := by
    refine ⟨⟨hs.2, hs.1⟩, ?_⟩
    rw [hr.bits_eq, hl.bits_eq]
    simp only [eq_comm]

/-- A comparison is replaced by one of other operands that holds exactly when it does. -/
theorem eq_of_iff {l' r' : Expr} (hl : l.Typed w) (hr : r.Typed w) (hl' : l'.Typed k) (hr' : r'.Typed k)
    (hweight : l'.weight + r'.weight ≤ l.weight + r.weight)
    (hsound : ∀ div v, (Expr.cmp .eq l r).Sound opt div v → (Expr.cmp .eq l' r').Sound opt div v)
    (h : ∀ v, l'.bits v k = r'.bits v k ↔ l.bits v w = r.bits v w) :
    Rewrites opt V 1 (.cmp .eq l r) (.cmp .eq l' r') where
  source := hl.cmp hr
  typed := hl'.cmp hr'
  weight := Nat.add_le_add_right hweight _
  value div v _ hs := by
    refine ⟨hsound div v hs, ?_⟩
    rw [hl'.bits_eq, hl.bits_eq]
    simp only [h v]

theorem eq_boolean (hl : l.Typed w) (hr : r.Typed w) {b : Bool}
    (h : ∀ v, l.bits v w = r.bits v w ↔ b = true) : Rewrites opt V 1 (.cmp .eq l r) (boolean b) := by
  refine .to_constant (hl.cmp hr) fun div v _ _ => ?_
  rw [hl.bits_eq]
  simp [h v]

/-- A comparison of one bit with a constant is the operand, the operand below a second comparison, or stays. -/
theorem eq_operand (hl : l.Typed w) (hr : r.Typed w) (he : e.Typed 1) (hweight : e.weight ≤ (Expr.cmp .eq l r).weight)
    (hsound : ∀ div v, (Expr.cmp .eq l r).Sound opt div v → e.Sound opt div v)
    (h : ∀ v, e.bits v 1 = BitVec.ofBool (decide (l.bits v w = r.bits v w))) : Rewrites opt V 1 (.cmp .eq l r) e :=
  ⟨hl.cmp hr, he, hweight, fun div v _ hs => ⟨hsound div v hs, (h v).trans (hl.bits_eq v).symm⟩⟩

end Rewrites

theorem EqExpr.createSymbolic_spec (hl : l.Typed w) (hr : r.Typed w) :
    Rewrites opt V 1 (.cmp .eq l r) (EqExpr.createSymbolic l r) := by
  unfold EqExpr.createSymbolic
  split
  case isTrue h =>
    subst h
    exact .eq_boolean hl hr fun v => by simp
  case isFalse => exact .refl (hl.cmp hr)

theorem EqExpr.withConstant_spec {value : BitVec w} {rest : Created} (he : e.Typed w)
    (hrest : Produces opt V 1 (.cmp .eq (.constant w value) e) rest) :
    Produces opt V 1 (.cmp .eq (.constant w value) e) (EqExpr.withConstant e value rest) := by
  unfold EqExpr.withConstant
  split
  case h_1 w' c =>
    obtain rfl : w' = w := he.width
    exact (foldCmp_spec .eq he.pos c value).of_rewrites (.eq_swap (.constant he.pos value) he)
  case h_2 => exact hrest

theorem bit_cases (x : BitVec 1) : x = 0 ∨ x = 1 := by
  revert x
  decide

theorem setWidth_signExtend (x : BitVec k) (hk : k ≤ w) : (x.signExtend w).setWidth k = x := by
  apply BitVec.eq_of_getLsbD_eq
  intro i hi
  rw [BitVec.getLsbD_setWidth, BitVec.getLsbD_signExtend]
  simp [hi, show i < w by omega]

theorem setWidth_setWidth (x : BitVec k) (hk : k ≤ w) : (x.setWidth w).setWidth k = x := by
  rw [BitVec.setWidth_setWidth_of_le x hk, BitVec.setWidth_eq]

/-- The comparison with an extension is one with the truncated constant, if the constant is an extension itself. -/
theorem eq_extension (extend : BitVec k → BitVec w) (hextend : ∀ x, (extend x).setWidth k = x) (cl : BitVec w)
    (h : cl = extend (cl.setWidth k)) (x : BitVec k) : cl.setWidth k = x ↔ cl = extend x := by
  constructor
  · rintro rfl
    exact h
  · rintro rfl
    exact hextend x

theorem EqExpr.extension_spec {extend : BitVec k → BitVec w} (hextend : ∀ x, (extend x).setWidth k = x)
    {src : Expr} {cl : BitVec w} {result : Created} (hsrc : src.Typed k) (hr : r.Typed w)
    (hweight : src.weight ≤ r.weight) (hsound : ∀ div v, r.Sound opt div v → src.Sound opt div v)
    (hbits : ∀ v, r.bits v w = extend (src.bits v k))
    (hresult : Produces opt V 1 (.cmp .eq (.constant k (cl.setWidth k)) src) result) :
    Produces opt V 1 (.cmp .eq (.constant w cl) r)
      (if cl = extend (cl.setWidth k) then result else .ok (boolean false)) := by
  have hcl : (Expr.constant w cl).Typed w := .constant hr.pos cl
  split
  case isTrue h =>
    refine hresult.of_rewrites
      (.eq_of_iff hcl hr (.constant hsrc.pos _) hsrc (Nat.add_le_add_left hweight 0) (fun div v hs => ?_) fun v => ?_)
    · exact ⟨trivial, hsound div v hs.2⟩
    · rw [Expr.bits_constant, Expr.bits_constant, hbits]
      exact eq_extension extend hextend cl h _
  case isFalse h =>
    refine .ok (.eq_boolean hcl hr fun v => ?_)
    rw [Expr.bits_constant, hbits]
    refine iff_of_false (fun heq => h ?_) Bool.false_ne_true
    rw [heq, hextend]

/-- The disjunction that `TryConstArrayOpt` makes of the positions, before folding. -/
def disjunction (index : Expr) (positions : List Nat) (res : Expr) : Expr :=
  positions.foldl
    (fun res i => .arith .or res (.cmp .eq (.constant index.getWidth (BitVec.ofNat index.getWidth i)) index)) res

section
variable {index : Expr}

theorem disjunction_spec (hindex : index.WellTyped) (positions : List Nat) : ∀ n : Expr, n.Typed 1 →
    (disjunction index positions n).Typed 1 ∧
    (disjunction index positions n).weight = n.weight + positions.length * (index.weight + 3) ∧
    (∀ div v, n.Sound opt div v → index.Sound opt div v → (disjunction index positions n).Sound opt div v) ∧
    ∀ v, (disjunction index positions n).bits v 1 =
      n.bits v 1 ||| BitVec.ofBool (positions.any fun i => BitVec.ofNat index.getWidth i = index.bits v index.getWidth) := by
  induction positions with
  | nil => exact fun n hn => ⟨hn, by simp [disjunction], fun _ _ hs _ => hs, fun v => by simp [disjunction]⟩
  | cons i positions ih =>
    intro n hn
    have heq : (Expr.cmp .eq (.constant index.getWidth (BitVec.ofNat index.getWidth i)) index).Typed 1 :=
      .cmp (.constant (index.width_pos hindex) _) (.self hindex)
    obtain ⟨htyped, hweight, hsound, hbits⟩ := ih _ (Expr.Typed.arith.mpr ⟨hn, heq⟩)
    refine ⟨htyped, ?_, fun div v hs hi => ?_, fun v => ?_⟩
    · refine hweight.trans ?_
      simp only [Expr.weight, ArithKind.cost, CmpKind.cost, List.length_cons, Nat.add_one_mul]
      omega
    · exact hsound div v ⟨hs, ⟨trivial, hi⟩, fun _ h => nomatch h⟩ hi
    · refine (hbits v).trans ?_
      rw [hn.bits_arith, applyArith_or, Expr.Typed.bits_eq (.constant (index.width_pos hindex) _), Expr.bits_constant,
        BitVec.or_assoc, List.any_cons, BitVec.ofBool_or_ofBool]

/-- The loop of `TryConstArrayOpt`. -/
theorem disjunction_produces {step : Expr → Nat → Created} (hindex : index.WellTyped)
    (hstep : ∀ res i, res.Typed 1 → Produces opt V 1
      (.arith .or res (.cmp .eq (.constant index.getWidth (BitVec.ofNat index.getWidth i)) index)) (step res i))
    (positions : List Nat) : ∀ n res : Expr, Rewrites opt V 1 n res →
      Produces opt V 1 (disjunction index positions n) (positions.foldlM step res) := by
  induction positions with
  | nil => exact fun n res h => .ok h
  | cons i positions ih =>
    intro n res h
    refine (hstep res i h.typed).bind fun res' h' => ih _ res' ?_
    exact (h.arith (.refl (.cmp (.constant (index.width_pos hindex) _) (.self hindex)))).trans h'

theorem mem_constantPositions {array : Array} {cl : BitVec array.range} {i : Nat} :
    i ∈ constantPositions array cl ↔ i < array.size ∧ array.constantValues[i]? = some cl := by
  simp only [constantPositions, List.mem_filter, List.mem_range, and_congr_right_iff]
  intro _
  cases array.constantValues[i]? with
  | none => simp
  | some c => simp

/-- Inside a constant array, equality with an element is equality of the index with one of its positions. -/
theorem constantPositions_spec {array : Array} {cl : BitVec array.range} (harray : array.WellFormed)
    (hconst : array.isConstantArray = true) (hindex : index.Typed array.domain) (v : Valuation)
    (hrange : index.value v < array.size) :
    ((constantPositions array cl).any fun i => BitVec.ofNat index.getWidth i = index.bits v index.getWidth) =
      decide (cl = BitVec.ofNat array.range (array.initial v (index.value v))) := by
  have hlength : index.value v < array.constantValues.length := by
    rwa [harray.constants hconst]
  have hinitial : array.initial v (index.value v) = (array.constantValues[index.value v]).toNat := by
    simp [Array.initial, hconst, List.getElem?_eq_getElem hlength]
  rw [hinitial, BitVec.ofNat_toNat, BitVec.setWidth_eq, Bool.eq_iff_iff, List.any_eq_true, decide_eq_true_eq]
  constructor
  · rintro ⟨i, hi, heq⟩
    obtain ⟨hsize, hvalue⟩ := mem_constantPositions.mp hi
    have hi' : i = index.value v := by
      have hnat := congrArg BitVec.toNat (of_decide_eq_true heq)
      rw [Expr.toNat_bits hindex.1 rfl, BitVec.toNat_ofNat, Nat.mod_eq_of_lt] at hnat
      · exact hnat
      · rw [hindex.2]
        exact hsize.trans_le harray.size_le
    subst hi'
    rw [List.getElem?_eq_getElem hlength] at hvalue
    exact (Option.some.inj hvalue).symm
  · rintro rfl
    exact ⟨index.value v, mem_constantPositions.mpr ⟨hrange, List.getElem?_eq_getElem hlength⟩, by simp [Expr.bits]⟩

end

theorem EqExpr.createSymbolic_produces (hr : r.Typed w) (cl : BitVec w) :
    Produces opt V 1 (.cmp .eq (.constant w cl) r) (.ok (EqExpr.createSymbolic (.constant w cl) r)) :=
  .ok (EqExpr.createSymbolic_spec (.constant hr.pos cl) hr)

/-- 0 == (0 == A) => A -/
theorem Rewrites.double_negation {right : Expr} (hright : right.Typed 1) :
    Rewrites opt V 1 (.cmp .eq (.constant 1 0) (.cmp .eq (.constant 1 0) right)) right := by
  have hzero : (Expr.constant 1 0).Typed 1 := .constant Nat.one_pos 0
  refine .eq_operand hzero (hzero.cmp hright) hright ?_ (fun div v hs => hs.2.2) fun v => ?_
  · simp only [Expr.weight]
    omega
  · rw [hzero.bits_eq, Expr.bits_constant]
    generalize right.bits v 1 = x
    revert x
    decide

/-- not(or(a,b)) => and(not a, not b) -/
theorem Rewrites.de_morgan {left right : Expr} (hleft : left.Typed 1) (hright : right.Typed 1) :
    Rewrites opt V 1 (.cmp .eq (.constant 1 0) (.arith .or left right))
      (.arith .and (.cmp .eq (.constant 1 0) left) (.cmp .eq (.constant 1 0) right)) := by
  have hzero : (Expr.constant 1 0).Typed 1 := .constant Nat.one_pos 0
  refine .eq_operand hzero (Expr.Typed.arith.mpr ⟨hleft, hright⟩)
    (Expr.Typed.arith.mpr ⟨hzero.cmp hleft, hzero.cmp hright⟩) ?_ (fun div v hs => ?_) fun v => ?_
  · simp only [Expr.weight, ArithKind.cost, CmpKind.cost]
    omega
  · exact ⟨⟨trivial, hs.2.1⟩, ⟨trivial, hs.2.2.1⟩, fun _ h => nomatch h⟩
  · rw [(hzero.cmp hleft).bits_arith, hzero.bits_eq, hzero.bits_eq, hleft.bits_arith, Expr.bits_constant,
      applyArith_and, applyArith_or]
    generalize left.bits v 1 = x
    generalize right.bits v 1 = y
    revert x y
    decide

/-- The recursion is on the expression that the constant is compared with. -/
theorem EqExpr.createPartialR_spec (cl : BitVec w) (hr : r.Typed w) :
    Produces opt V 1 (.cmp .eq (.constant w cl) r) (EqExpr.createPartialR opt cl r) := by
  induction hsize : r.size using Nat.strong_induction_on generalizing w r with
  | _ size ih =>
    subst hsize
    have hcl : (Expr.constant w cl).Typed w := .constant hr.pos cl
    -- an operand that is compared with a constant by `EqExpr::create`
    have hkid : ∀ {kid : Expr} {k : Nat} (c : BitVec k), kid.size < r.size → kid.Typed k →
        Produces opt V 1 (.cmp .eq (.constant k c) kid)
          (EqExpr.withConstant kid c (EqExpr.createPartialR opt c kid)) := fun c hlt hk =>
      EqExpr.withConstant_spec hk (ih _ hlt c hk rfl)
    unfold EqExpr.createPartialR
    split
    case isTrue hbool =>
      subst hbool
      split
      case isTrue hone =>
        obtain rfl : cl = 1 := (bit_cases cl).resolve_left hone
        refine .ok (.eq_operand hcl hr hr (Nat.le_add_right_of_le (Nat.le_add_left _ _)) (fun _ _ hs => hs.2) fun v => ?_)
        rw [Expr.bits_constant]
        generalize r.bits v 1 = x
        revert x
        decide
      case isFalse hzero =>
        obtain rfl : cl = 0 := not_not.mp hzero
        split
        case h_1 wc c right =>
          split
          case isTrue h =>
            obtain ⟨rfl, rfl⟩ := h
            exact .ok (.double_negation ⟨hr.1.2.1, hr.1.2.2.symm⟩)
          case isFalse => exact EqExpr.createSymbolic_produces hr 0
        case h_2 left right =>
          obtain ⟨hleft, hright⟩ := Expr.Typed.arith.mp hr
          refine Produces.of_rewrites ?_ (.de_morgan hleft hright)
          rw [hleft.width, hright.width]
          refine (hkid 0 (Nat.lt_succ_of_le (Nat.le_add_right _ _)) hleft).bind fun left' hleft' => ?_
          refine (hkid 0 (Nat.lt_succ_of_le (Nat.le_add_left _ _)) hright).bind fun right' hright' => ?_
          exact (AndExpr.create_spec hleft'.typed hright'.typed).of_rewrites (hleft'.arith hright')
        case h_3 => exact EqExpr.createSymbolic_produces hr 0
    case isFalse hbool =>
      split
      case h_1 src w' =>
        obtain rfl : w' = w := hr.width
        have hsrc : src.Typed src.getWidth := .self hr.1.1
        exact EqExpr.extension_spec (fun x => setWidth_signExtend x (Nat.le_of_lt hr.1.2)) hsrc hr (Nat.le_succ _)
          (fun _ _ hs => hs) (fun v => Expr.bits_sext rfl) (hkid _ (Nat.lt_succ_self _) hsrc)
      case h_2 src w' =>
        obtain rfl : w' = w := hr.width
        have hsrc : src.Typed src.getWidth := .self hr.1.1
        exact EqExpr.extension_spec (fun x => setWidth_setWidth x (Nat.le_of_lt hr.1.2)) hsrc hr (Nat.le_succ _)
          (fun _ _ hs => hs) (fun v => Expr.bits_zext hsrc.1 rfl) (hkid _ (Nat.lt_succ_self _) hsrc)
      case h_3 wk c right =>
        obtain ⟨hc, hright⟩ := Expr.Typed.arith.mp hr
        obtain rfl : wk = w := hc.width
        rw [if_neg (not_not.mpr rfl), BitVec.setWidth_eq]
        refine (ih _ (Nat.lt_succ_of_le (Nat.le_add_left _ _)) (cl - c) hright rfl).of_rewrites
          (.eq_of_iff hcl hr (.constant hr.pos _) hright ?_ (fun div v hs => ⟨trivial, hs.2.2.1⟩) fun v => ?_)
        · simp only [Expr.weight]
          omega
        · rw [Expr.bits_constant, Expr.bits_constant, Expr.Typed.bits_arith (.constant hr.pos c), Expr.bits_constant,
            applyArith_add, sub_eq_iff_eq_add']
      case h_4 wk c right =>
        obtain ⟨hc, hright⟩ := Expr.Typed.arith.mp hr
        obtain rfl : wk = w := hc.width
        rw [if_neg (not_not.mpr rfl), BitVec.setWidth_eq]
        refine (ih _ (Nat.lt_succ_of_le (Nat.le_add_left _ _)) (c - cl) hright rfl).of_rewrites
          (.eq_of_iff hcl hr (.constant hr.pos _) hright ?_ (fun div v hs => ⟨trivial, hs.2.2.1⟩) fun v => ?_)
        · simp only [Expr.weight]
          omega
        · rw [Expr.bits_constant, Expr.bits_constant, Expr.Typed.bits_arith (.constant hr.pos c), Expr.bits_constant,
            applyArith_sub, sub_eq_iff_eq_add, eq_sub_iff_add_eq, eq_comm, add_comm]
      case h_5 array index =>
        obtain rfl : array.range = w := hr.width
        have hindex : index.Typed array.domain := ⟨hr.1.2.1, hr.1.2.2⟩
        split
        case isTrue hconst =>
          obtain ⟨rfl, hconst⟩ := hconst
          dsimp only
          split
          case isTrue => exact EqExpr.createSymbolic_produces hr cl
          case isFalse hmany =>
            obtain ⟨htyped, hweight, hsound, hbits⟩ := disjunction_spec hindex.1
              (constantPositions array cl) (boolean false) (.boolean false)
            refine (disjunction_produces hindex.1 (fun res i hres => ?_) _ _ _ (.refl (.boolean false))).of_rewrites
              ⟨hcl.cmp hr, htyped, ?_, fun div v _ hs => ⟨hsound div v trivial hs.2.2.1, ?_⟩⟩
            · refine (hkid _ (Nat.lt_succ_self _) (.self hindex.1)).bind fun mayBe hmayBe => ?_
              exact (OrExpr.create_spec hres hmayBe.typed).of_rewrites (.arith (.refl hres) hmayBe)
            · rw [hweight]
              have hmul := Nat.mul_le_mul_right (index.weight + 3) (Nat.le_of_not_lt hmany)
              simp only [boolean, Expr.weight]
              omega
            · rw [hbits, hcl.bits_eq, constantPositions_spec hr.1.1 hconst hindex v (hs.2.2.2 rfl hconst),
                Expr.bits_constant, boolean, Expr.bits_constant]
              exact BitVec.zero_or
        case isFalse => exact EqExpr.createSymbolic_produces hr cl
      case h_6 => exact EqExpr.createSymbolic_produces hr cl

theorem EqExpr.create_spec (hl : l.Typed w) (hr : r.Typed w) :
    Produces opt V 1 (.cmp .eq l r) (EqExpr.create opt l r) := by
  refine bcreateR_spec (.cmp .eq) hl hr (fun cl cr _ _ => ?_) (fun cl _ => ?_) (fun cr _ => ?_) fun _ _ => ?_
  · exact foldCmp_spec .eq hl.pos cl cr
  · exact EqExpr.createPartialR_spec cl hr
  · exact (EqExpr.createPartialR_spec cr hl).of_rewrites (.eq_swap hl (.constant hl.pos cr))
  · exact .ok (EqExpr.createSymbolic_spec hl hr)

theorem Expr.createIsZero_spec (he : e.Typed w) :
    Produces opt V 1 (.cmp .eq e (.constant w 0)) (e.createIsZero opt) := by
  have h : Produces opt V 1 _ _ := EqExpr.create_spec he (.constant he.pos 0)
  rw [Expr.createIsZero, he.width]
  exact h

/-! ### Sums -/

theorem XorExpr.createPartialR_spec (cl : BitVec w) (hr : r.Typed w) :
    Produces opt V w (.arith .xor (.constant w cl) r) (XorExpr.createPartialR opt cl r) := by
  have hcl : (Expr.constant w cl).Typed w := .constant hr.pos cl
  unfold XorExpr.createPartialR
  split
  case isTrue hzero =>
    subst hzero
    exact .ok (.to_right hcl hr fun v => by simp)
  case isFalse hzero =>
    split
    case isTrue hbool =>
      subst hbool
      obtain rfl : cl = 1 := (bit_cases cl).resolve_left hzero
      refine (EqExpr.createPartialR_spec 0 hr).of_rewrites
        ⟨Expr.Typed.arith.mpr ⟨hcl, hr⟩, .cmp (.constant Nat.one_pos 0) hr, le_rfl, fun div v _ hs => ⟨⟨trivial, hs.2.1⟩, ?_⟩⟩
      rw [Expr.Typed.bits_eq (.constant Nat.one_pos 0), hcl.bits_arith, Expr.bits_constant, Expr.bits_constant,
        applyArith_xor]
      generalize r.bits v 1 = x
      revert x
      decide
    case isFalse => exact .ok (.refl (Expr.Typed.arith.mpr ⟨hcl, hr⟩))

theorem XorExpr.create_spec (hl : l.Typed w) (hr : r.Typed w) :
    Produces opt V w (.arith .xor l r) (XorExpr.create opt l r) := by
  refine bcreateR_spec (.arith .xor) hl hr (fun cl cr _ _ => ?_) (fun cl _ => ?_) (fun cr _ => ?_) fun _ _ => ?_
  · exact foldArith_spec .xor hl.pos cl cr (fun h => nomatch h)
  · exact XorExpr.createPartialR_spec cl hr
  · exact (XorExpr.createPartialR_spec cr hl).of_rewrites
      (.arith_swap hl (.constant hl.pos cr) rfl fun x y => by simp [BitVec.xor_comm])
  · exact .ok (.refl (Expr.Typed.arith.mpr ⟨hl, hr⟩))

theorem foldConstant_spec {kind : ArithKind} {rest : Created} (hdiv : divides kind = false) (he : e.Typed w)
    {c : BitVec w} (hrest : Produces opt V w (.arith kind (.constant w c) e) rest) :
    Produces opt V w (.arith kind (.constant w c) e) (foldConstant kind c e rest) := by
  unfold foldConstant
  rw [if_neg (not_not.mpr he.width.symm)]
  split
  case h_1 w' ce =>
    obtain rfl : w' = w := he.width
    exact foldArith_spec kind he.pos c ce fun h => absurd h (by rw [hdiv]; exact Bool.false_ne_true)
  case h_2 => exact hrest

/-- A constant and a sum with a constant are brought together. -/
theorem Rewrites.fold_constants {k₁ k₂ k₃ : ArithKind} {a b c : BitVec w} (he : e.Typed w) (hdiv : divides k₃ = false)
    (hcost : ArithKind.cost k₃ ≤ ArithKind.cost k₁) (h : ∀ x, applyArith k₃ c x = applyArith k₁ a (applyArith k₂ b x)) :
    Rewrites opt V w (.arith k₁ (.constant w a) (.arith k₂ (.constant w b) e)) (.arith k₃ (.constant w c) e) where
  source := Expr.Typed.arith.mpr ⟨.constant he.pos a, Expr.Typed.arith.mpr ⟨.constant he.pos b, he⟩⟩
  typed := Expr.Typed.arith.mpr ⟨.constant he.pos c, he⟩
  weight := by
    simp only [Expr.weight]
    omega
  value div v _ hs := by
    refine ⟨⟨trivial, hs.2.1.2.1, fun _ htrue => ?_⟩, ?_⟩
    · rw [hdiv] at htrue
      cases htrue
    · rw [Expr.Typed.bits_arith (.constant he.pos c), Expr.Typed.bits_arith (.constant he.pos a),
        Expr.Typed.bits_arith (.constant he.pos b), Expr.bits_constant, Expr.bits_constant, Expr.bits_constant, h]

theorem bit_add_eq_xor (x y : BitVec 1) : applyArith .xor x y = applyArith .add x y := by
  rw [applyArith_xor, applyArith_add]
  revert x y
  decide

theorem bit_sub_eq_xor (x y : BitVec 1) : applyArith .xor x y = applyArith .sub x y := by
  rw [applyArith_xor, applyArith_sub]
  revert x y
  decide

/-- The two functions for a constant on the left call each other on smaller expressions. -/
theorem createPartialR_spec (cl : BitVec w) (hr : r.Typed w) :
    Produces opt V w (.arith .add (.constant w cl) r) (AddExpr.createPartialR opt cl r) ∧
    Produces opt V w (.arith .sub (.constant w cl) r) (SubExpr.createPartialR opt cl r) := by
  induction hsize : r.size using Nat.strong_induction_on generalizing r cl with
  | _ size ih =>
    subst hsize
    have hcl : (Expr.constant w cl).Typed w := .constant hr.pos cl
    have hself : ∀ kind, Produces opt V w (.arith kind (.constant w cl) r) (.ok (.arith kind (.constant w cl) r)) :=
      fun kind => .ok (.refl (Expr.Typed.arith.mpr ⟨hcl, hr⟩))
    -- the operand of a sum with a constant, which is smaller
    have hkid : ∀ {kid : Expr} (c : BitVec w), kid.size < r.size → kid.Typed w →
        Produces opt V w (.arith .add (.constant w c) kid) (foldConstant .add c kid (AddExpr.createPartialR opt c kid)) ∧
        Produces opt V w (.arith .sub (.constant w c) kid) (foldConstant .sub c kid (SubExpr.createPartialR opt c kid)) :=
      fun c hlt hk => ⟨foldConstant_spec rfl hk (ih _ hlt c hk rfl).1, foldConstant_spec rfl hk (ih _ hlt c hk rfl).2⟩
    constructor
    · unfold AddExpr.createPartialR
      split
      case isTrue hbool =>
        subst hbool
        exact (XorExpr.createPartialR_spec cl hr).of_rewrites (.arith_kind hcl hr rfl le_rfl bit_add_eq_xor)
      case isFalse =>
        split
        case isTrue hzero =>
          subst hzero
          exact .ok (.to_right hcl hr fun v => by simp)
        case isFalse =>
          split
          case h_1 wk c kid =>
            obtain ⟨hc, hkid'⟩ := Expr.Typed.arith.mp hr
            obtain rfl : wk = w := hc.width
            rw [if_neg (not_not.mpr rfl), BitVec.setWidth_eq]
            exact (hkid _ (Nat.lt_succ_of_le (Nat.le_add_left _ _)) hkid').1.of_rewrites
              (.fold_constants hkid' rfl le_rfl fun x => by simp [add_assoc])
          case h_2 wk c kid =>
            obtain ⟨hc, hkid'⟩ := Expr.Typed.arith.mp hr
            obtain rfl : wk = w := hc.width
            rw [if_neg (not_not.mpr rfl), BitVec.setWidth_eq]
            exact (hkid _ (Nat.lt_succ_of_le (Nat.le_add_left _ _)) hkid').2.of_rewrites
              (.fold_constants hkid' rfl le_rfl fun x => by simp [add_sub_assoc])
          case h_3 => exact hself .add
    · unfold SubExpr.createPartialR
      split
      case isTrue hbool =>
        subst hbool
        exact (XorExpr.createPartialR_spec cl hr).of_rewrites (.arith_kind hcl hr rfl le_rfl bit_sub_eq_xor)
      case isFalse =>
        split
        case h_1 wk c kid =>
          obtain ⟨hc, hkid'⟩ := Expr.Typed.arith.mp hr
          obtain rfl : wk = w := hc.width
          rw [if_neg (not_not.mpr rfl), BitVec.setWidth_eq]
          exact (hkid _ (Nat.lt_succ_of_le (Nat.le_add_left _ _)) hkid').2.of_rewrites
            (.fold_constants hkid' rfl le_rfl fun x => by simp [sub_sub])
        case h_2 wk c kid =>
          obtain ⟨hc, hkid'⟩ := Expr.Typed.arith.mp hr
          obtain rfl : wk = w := hc.width
          rw [if_neg (not_not.mpr rfl), BitVec.setWidth_eq]
          exact (hkid _ (Nat.lt_succ_of_le (Nat.le_add_left _ _)) hkid').1.of_rewrites
            (.fold_constants hkid' rfl le_rfl fun x => by simp [sub_sub_eq_add_sub, sub_add_eq_add_sub])
        case h_3 => exact hself .sub

theorem SubExpr.createPartial_spec (hl : l.Typed w) (cr : BitVec w) :
    Produces opt V w (.arith .sub l (.constant w cr)) (SubExpr.createPartial opt l cr) := by
  refine (createPartialR_spec (0 - cr) hl).1.of_rewrites ⟨Expr.Typed.arith.mpr ⟨hl, .constant hl.pos cr⟩,
    Expr.Typed.arith.mpr ⟨.constant hl.pos _, hl⟩, ?_, fun div v _ hs => ⟨⟨trivial, hs.1, fun _ h => nomatch h⟩, ?_⟩⟩
  · simp only [Expr.weight, ArithKind.cost]
    omega
  · rw [hl.bits_arith, Expr.Typed.bits_arith (.constant hl.pos _), Expr.bits_constant, Expr.bits_constant,
      applyArith_add, applyArith_sub]
    ring

theorem Expr.size_pos (e : Expr) : 0 < e.size := by cases e <;> exact Nat.succ_pos _

/-- Sums of the same operands with the same value stand for each other. -/
theorem Rewrites.regroup {n : Expr} (hn : n.Typed w) (he : e.Typed w) (hweight : e.weight = n.weight)
    (hsound : ∀ div v, n.Sound opt div v → e.Sound opt div v) (hbits : ∀ v, e.bits v w = n.bits v w) :
    Rewrites opt V w n e :=
  ⟨hn, he, Nat.le_of_eq hweight, fun div v _ hs => ⟨hsound div v hs, hbits v⟩⟩

theorem Expr.Typed.sum (hl : l.Typed w) (hr : r.Typed w) {kind : ArithKind} : (Expr.arith kind l r).Typed w :=
  Expr.Typed.arith.mpr ⟨hl, hr⟩

section
variable {k a b : Expr}

/-- A sum or difference with `k` inside one operand is a sum or difference with `k` as an operand. -/
theorem Rewrites.regroup_kinds (hk : k.Typed w) (ha : a.Typed w) (hb : b.Typed w) :
    (Rewrites opt V w (.arith .add (.arith .add k a) b) (.arith .add k (.arith .add a b)) ∧
      Rewrites opt V w (.arith .add (.arith .sub k a) b) (.arith .add k (.arith .sub b a)) ∧
      Rewrites opt V w (.arith .add a (.arith .add k b)) (.arith .add k (.arith .add a b)) ∧
      Rewrites opt V w (.arith .add a (.arith .sub k b)) (.arith .add k (.arith .sub a b))) ∧
    Rewrites opt V w (.arith .sub (.arith .add k a) b) (.arith .add k (.arith .sub a b)) ∧
    Rewrites opt V w (.arith .sub (.arith .sub k a) b) (.arith .sub k (.arith .add a b)) ∧
    Rewrites opt V w (.arith .sub a (.arith .add k b)) (.arith .sub (.arith .sub a b) k) ∧
    Rewrites opt V w (.arith .sub a (.arith .sub k b)) (.arith .sub (.arith .add a b) k) := by
  refine ⟨⟨?_, ?_, ?_, ?_⟩, ?_, ?_, ?_, ?_⟩ <;>
    refine .regroup (by simp [Expr.Typed.arith, hk, ha, hb]) (by simp [Expr.Typed.arith, hk, ha, hb]) ?_
      (fun div v hs => ?_) fun v => ?_
  any_goals
    simp only [Expr.weight, ArithKind.cost]
    omega
  any_goals
    simp only [Expr.Sound, divides] at hs ⊢
    tauto
  all_goals
    simp only [Expr.bits_arith, Expr.getWidth, hk.width, ha.width, hb.width, applyArith_add, applyArith_sub]
    ring

end

/-- Enough for the operands, or for the functions that take a constant. -/
def EnoughFuel (fuel : Nat) (l r : Expr) : Prop :=
  0 < fuel ∧ ((l.isConstant || r.isConstant) = true ∨ l.size + r.size ≤ fuel)

section
variable {fuel wc : Nat} {kind : ArithKind} {c : BitVec wc} {a b : Expr}

theorem EnoughFuel.left (hr : r.isConstant = false)
    (h : EnoughFuel (fuel + 1) (.arith kind (.constant wc c) a) r) : EnoughFuel fuel a r ∧ EnoughFuel fuel r a := by
  obtain ⟨-, hconst | hsize⟩ := h
  · rw [hr] at hconst
    cases hconst
  · have := a.size_pos
    simp only [Expr.size] at hsize
    exact ⟨⟨by omega, .inr (by omega)⟩, by omega, .inr (by omega)⟩

theorem EnoughFuel.right (hl : l.isConstant = false)
    (h : EnoughFuel (fuel + 1) l (.arith kind (.constant wc c) b)) : EnoughFuel fuel l b := by
  obtain ⟨-, hconst | hsize⟩ := h
  · rw [hl] at hconst
    cases hconst
  · have := b.size_pos
    simp only [Expr.size] at hsize
    exact ⟨by omega, .inr (by omega)⟩

theorem EnoughFuel.constant (h : EnoughFuel fuel a b) (e : Expr) :
    EnoughFuel fuel (.constant wc c) e ∧ EnoughFuel fuel e (.constant wc c) :=
  ⟨⟨h.1, .inl rfl⟩, h.1, .inl (by simp [Expr.isConstant])⟩

end

/-- A sum or difference with a constant inside it is rebuilt around that constant. -/
theorem createFuel_spec : ∀ (fuel : Nat) {l r : Expr} {w : Nat}, l.Typed w → r.Typed w → EnoughFuel fuel l r →
    Produces opt V w (.arith .add l r) (AddExpr.createFuel opt fuel l r) ∧
    Produces opt V w (.arith .sub l r) (SubExpr.createFuel opt fuel l r) := by
  intro fuel
  induction fuel with
  | zero => exact fun _ _ h => absurd h.1 (Nat.lt_irrefl _)
  | succ fuel ih =>
    intro l r w hl hr hfuel
    have hself : ∀ kind, Produces opt V w (.arith kind l r) (.ok (.arith kind l r)) := fun kind => .ok (.refl (hl.sum hr))
    constructor
    · unfold AddExpr.createFuel
      refine bcreateR_spec (.arith .add) hl hr (fun cl cr _ _ => ?_) (fun cl _ => ?_) (fun cr _ => ?_) fun hlc hrc => ?_
      · exact foldArith_spec .add hl.pos cl cr (fun h => nomatch h)
      · exact (createPartialR_spec cl hr).1
      · exact (createPartialR_spec cr hl).1.of_rewrites
          (.arith_swap hl (.constant hl.pos cr) rfl fun x y => by simp [add_comm])
      · split
        case isTrue hbool =>
          obtain rfl : w = 1 := hl.width.symm.trans hbool
          exact .ok (.arith_kind hl hr rfl le_rfl bit_add_eq_xor)
        case isFalse =>
          split
          case h_1 wk c a =>
            obtain ⟨hk, ha⟩ := Expr.Typed.arith.mp hl
            obtain ⟨hinner, -⟩ := hfuel.left hrc
            refine (ih ha hr hinner).1.bind fun sum hsum => ?_
            exact (ih hk hsum.typed (hinner.constant sum).1).1.of_rewrites
              ((Rewrites.regroup_kinds hk ha hr).1.1.trans (.arith (.refl hk) hsum))
          case h_2 wk c a =>
            obtain ⟨hk, ha⟩ := Expr.Typed.arith.mp hl
            obtain ⟨-, hinner⟩ := hfuel.left hrc
            refine (ih hr ha hinner).2.bind fun difference hdiff => ?_
            exact (ih hk hdiff.typed (hinner.constant difference).1).1.of_rewrites
              ((Rewrites.regroup_kinds hk ha hr).1.2.1.trans (.arith (.refl hk) hdiff))
          case h_3 wk c b _ _ =>
            obtain ⟨hk, hb⟩ := Expr.Typed.arith.mp hr
            have hinner := hfuel.right hlc
            refine (ih hl hb hinner).1.bind fun sum hsum => ?_
            exact (ih hk hsum.typed (hinner.constant sum).1).1.of_rewrites
              ((Rewrites.regroup_kinds hk hl hb).1.2.2.1.trans (.arith (.refl hk) hsum))
          case h_4 wk c b _ _ =>
            obtain ⟨hk, hb⟩ := Expr.Typed.arith.mp hr
            have hinner := hfuel.right hlc
            refine (ih hl hb hinner).2.bind fun difference hdiff => ?_
            exact (ih hk hdiff.typed (hinner.constant difference).1).1.of_rewrites
              ((Rewrites.regroup_kinds hk hl hb).1.2.2.2.trans (.arith (.refl hk) hdiff))
          case h_5 => exact hself .add
    · unfold SubExpr.createFuel
      refine bcreateR_spec (.arith .sub) hl hr (fun cl cr _ _ => ?_) (fun cl _ => ?_) (fun cr _ => ?_) fun hlc hrc => ?_
      · exact foldArith_spec .sub hl.pos cl cr (fun h => nomatch h)
      · exact (createPartialR_spec cl hr).2
      · exact SubExpr.createPartial_spec hl cr
      · split
        case isTrue hbool =>
          obtain rfl : w = 1 := hl.width.symm.trans hbool
          exact .ok (.arith_kind hl hr rfl le_rfl bit_sub_eq_xor)
        case isFalse =>
          split
          case isTrue hsame =>
            subst hsame
            rw [hl.width]
            exact .ok (.arith_constant hl hl fun v => by simp)
          case isFalse =>
            split
            case h_1 wk c a _ =>
              obtain ⟨hk, ha⟩ := Expr.Typed.arith.mp hl
              obtain ⟨hinner, -⟩ := hfuel.left hrc
              refine (ih ha hr hinner).2.bind fun difference hdiff => ?_
              exact (ih hk hdiff.typed (hinner.constant difference).1).1.of_rewrites
                ((Rewrites.regroup_kinds hk ha hr).2.1.trans (.arith (.refl hk) hdiff))
            case h_2 wk c a _ =>
              obtain ⟨hk, ha⟩ := Expr.Typed.arith.mp hl
              obtain ⟨hinner, -⟩ := hfuel.left hrc
              refine (ih ha hr hinner).1.bind fun sum hsum => ?_
              exact (ih hk hsum.typed (hinner.constant sum).1).2.of_rewrites
                ((Rewrites.regroup_kinds hk ha hr).2.2.1.trans (.arith (.refl hk) hsum))
            case h_3 wk c b _ _ _ =>
              obtain ⟨hk, hb⟩ := Expr.Typed.arith.mp hr
              have hinner := hfuel.right hlc
              refine (ih hl hb hinner).2.bind fun difference hdiff => ?_
              exact (ih hdiff.typed hk (hinner.constant difference).2).2.of_rewrites
                ((Rewrites.regroup_kinds hk hl hb).2.2.2.1.trans (.arith hdiff (.refl hk)))
            case h_4 wk c b _ _ _ =>
              obtain ⟨hk, hb⟩ := Expr.Typed.arith.mp hr
              have hinner := hfuel.right hlc
              refine (ih hl hb hinner).1.bind fun sum hsum => ?_
              exact (ih hsum.typed hk (hinner.constant sum).2).2.of_rewrites
                ((Rewrites.regroup_kinds hk hl hb).2.2.2.2.trans (.arith hsum (.refl hk)))
            case h_5 => exact hself .sub

theorem AddExpr.create_spec (hl : l.Typed w) (hr : r.Typed w) :
    Produces opt V w (.arith .add l r) (AddExpr.create opt l r) :=
  (createFuel_spec _ hl hr ⟨Nat.add_pos_left l.size_pos _, .inr le_rfl⟩).1

theorem SubExpr.create_spec (hl : l.Typed w) (hr : r.Typed w) :
    Produces opt V w (.arith .sub l r) (SubExpr.create opt l r) :=
  (createFuel_spec _ hl hr ⟨Nat.add_pos_left l.size_pos _, .inr le_rfl⟩).2

/-! ### The other binary kinds -/

theorem MulExpr.createPartialR_spec (cl : BitVec w) (hr : r.Typed w) :
    Produces opt V w (.arith .mul (.constant w cl) r) (MulExpr.createPartialR cl r) := by
  have hcl : (Expr.constant w cl).Typed w := .constant hr.pos cl
  unfold MulExpr.createPartialR
  split
  case isTrue hbool =>
    subst hbool
    have hand : Rewrites opt V 1 (.arith .mul (.constant 1 cl) r) (.arith .and (.constant 1 cl) r) := by
      refine .arith_kind hcl hr rfl le_rfl ?_
      simp only [applyArith_and, applyArith_mul]
      decide
    have hswap : Rewrites opt V 1 (.arith .and (.constant 1 cl) r) (.arith .and r (.constant 1 cl)) :=
      .arith_swap hcl hr rfl fun x y => by simp [BitVec.and_comm]
    exact (AndExpr.createPartial_spec hr cl).of_rewrites (hand.trans hswap)
  case isFalse =>
    split
    case isTrue hone =>
      subst hone
      exact .ok (.to_right hcl hr fun v => by simp)
    case isFalse =>
      split
      case isTrue hzero =>
        subst hzero
        exact .ok (.arith_constant hcl hr fun v => by simp)
      case isFalse => exact .ok (.refl (hcl.sum hr))

theorem MulExpr.create_spec (hl : l.Typed w) (hr : r.Typed w) :
    Produces opt V w (.arith .mul l r) (MulExpr.create l r) := by
  refine bcreateR_spec (.arith .mul) hl hr (fun cl cr _ _ => ?_) (fun cl _ => ?_) (fun cr _ => ?_) fun _ _ => ?_
  · exact foldArith_spec .mul hl.pos cl cr (fun h => nomatch h)
  · exact MulExpr.createPartialR_spec cl hr
  · exact (MulExpr.createPartialR_spec cr hl).of_rewrites
      (.arith_swap hl (.constant hl.pos cr) rfl fun x y => by simp [mul_comm])
  · split
    case isTrue hbool =>
      obtain rfl : w = 1 := hl.width.symm.trans hbool
      refine .ok (.arith_kind hl hr rfl le_rfl ?_)
      simp only [applyArith_and, applyArith_mul]
      decide
    case isFalse => exact .ok (.refl (hl.sum hr))

/-- No constant is divided by the constant zero. -/
def Divisor (kind : ArithKind) (w : Nat) (l r : Expr) : Prop :=
  divides kind = true → l.isConstant = true → r ≠ .constant w 0

/-- A kind that `bit` constructs for one-bit operands. -/
theorem bcreate_bit_spec {kind : ArithKind} {bit : Expr → Expr → Created} (hl : l.Typed w) (hr : r.Typed w)
    (hdivisor : Divisor kind w l r) (hbit : w = 1 → Produces opt V w (.arith kind l r) (bit l r)) :
    Produces opt V w (.arith kind l r)
      (bcreate (foldArith kind) (fun l r => if l.getWidth = 1 then bit l r else .ok (.arith kind l r)) l r) := by
  refine bcreate_spec (.arith kind) hl hr (fun cl cr hcl hcr => ?_) ?_
  · exact foldArith_spec kind hl.pos cl cr fun hdiv hzero => hdivisor hdiv (hcl ▸ rfl) (hzero ▸ hcr)
  · split
    case isTrue hbool => exact hbit (hl.width.symm.trans hbool)
    case isFalse => exact .ok (.refl (hl.sum hr))

theorem createQuotient_spec (kind : ArithKind) (hkind : ∀ x y : BitVec 1, applyArith kind x y = x) (hl : l.Typed w)
    (hr : r.Typed w) (hdivisor : Divisor kind w l r) : Produces opt V w (.arith kind l r) (createQuotient kind l r) := by
  refine bcreate_bit_spec hl hr hdivisor ?_
  rintro rfl
  exact .ok (.to_left hl hr fun v => hkind _ _)

theorem createRemainder_spec (kind : ArithKind) (hkind : ∀ x y : BitVec 1, applyArith kind x y = 0) (hl : l.Typed w)
    (hr : r.Typed w) (hdivisor : Divisor kind w l r) : Produces opt V w (.arith kind l r) (createRemainder kind l r) := by
  refine bcreate_bit_spec hl hr hdivisor ?_
  rintro rfl
  exact .ok (.arith_constant hl hr fun v => hkind _ _)

section Negated
variable {n p q : Expr} {kind : ArithKind} {create : Expr → Expr → Created} (hn : n.Typed 1) (hp : p.Typed 1)
  (hq : q.Typed 1) (hdiv : divides kind = false) (hweight : p.weight + q.weight + 1 + ArithKind.cost kind ≤ n.weight)
  (hsound : ∀ div v, n.Sound opt div v → p.Sound opt div v ∧ q.Sound opt div v)
  (h : ∀ v, applyArith kind (BitVec.ofBool (decide (p.bits v 1 = 0))) (q.bits v 1) = n.bits v 1)
  (hcreate : ∀ {l r : Expr}, l.Typed 1 → r.Typed 1 → Produces opt V 1 (.arith kind l r) (create l r))
include hn hp hq hdiv hweight hsound h

/-- Two one-bit operands of which one is negated stand for an operation on both. -/
theorem Rewrites.of_negated : Rewrites opt V 1 n (.arith kind (.cmp .eq p (.constant 1 0)) q) := by
  have hzero : (Expr.constant 1 0).Typed 1 := .constant Nat.one_pos 0
  refine ⟨hn, (hp.cmp hzero).sum hq, ?_, fun div v _ hs => ?_⟩
  · simp only [Expr.weight, CmpKind.cost]
    omega
  · obtain ⟨hps, hqs⟩ := hsound div v hs
    refine ⟨⟨⟨hps, trivial⟩, hqs, fun _ htrue => ?_⟩, ?_⟩
    · rw [hdiv] at htrue
      cases htrue
    · rw [(hp.cmp hzero).bits_arith, hp.bits_eq, Expr.bits_constant, h]

include hcreate

/-- The construction of two one-bit operands of which the left one is negated. -/
theorem negated_left_spec : Produces opt V 1 n (p.createIsZero opt >>= fun isZero => create isZero q) := by
  refine (Expr.createIsZero_spec hp).bind fun isZero hisZero => ?_
  exact (hcreate hisZero.typed hq).of_rewrites
    ((Rewrites.of_negated hn hp hq hdiv hweight hsound h).trans (hisZero.arith (.refl hq)))

/-- The same with the negated operand on the right. -/
theorem negated_right_spec (hcomm : ∀ x y : BitVec 1, applyArith kind y x = applyArith kind x y) :
    Produces opt V 1 n (p.createIsZero opt >>= fun isZero => create q isZero) := by
  refine (Expr.createIsZero_spec hp).bind fun isZero hisZero => ?_
  exact (hcreate hq hisZero.typed).of_rewrites ((Rewrites.of_negated hn hp hq hdiv hweight hsound h).trans
    ((Rewrites.arith_swap (hp.cmp (.constant Nat.one_pos 0)) hq hdiv hcomm).trans (.arith (.refl hq) hisZero)))

end Negated

theorem createShift_spec (kind : ArithKind) (hdiv : divides kind = false) (hcost : ArithKind.cost kind = 2)
    (hkind : ∀ x y : BitVec 1, BitVec.ofBool (decide (y = 0)) &&& x = applyArith kind x y) (hl : l.Typed w)
    (hr : r.Typed w) : Produces opt V w (.arith kind l r) (createShift opt kind l r) := by
  refine bcreate_bit_spec hl hr (fun h => absurd h (by rw [hdiv]; exact Bool.false_ne_true)) ?_
  rintro rfl
  refine negated_right_spec (hl.sum hr) hr hl rfl ?_ (fun div v hs => ⟨hs.2.1, hs.1⟩) (fun v => ?_) AndExpr.create_spec
    fun x y => by simp [BitVec.and_comm]
  · have hand : ArithKind.cost .and = 1 := rfl
    simp only [Expr.weight, hcost, hand]
    omega
  · rw [hl.bits_arith, applyArith_and, hkind]

theorem AShrExpr.create_spec (hl : l.Typed w) (hr : r.Typed w) :
    Produces opt V w (.arith .ashr l r) (AShrExpr.create l r) := by
  refine bcreate_bit_spec hl hr (fun h => nomatch h) ?_
  rintro rfl
  refine .ok (.to_left hl hr fun v => ?_)
  generalize l.bits v 1 = x
  generalize r.bits v 1 = y
  revert x y
  decide

theorem createArith_spec (kind : ArithKind) (hl : l.Typed w) (hr : r.Typed w) (hdivisor : Divisor kind w l r) :
    Produces opt V w (.arith kind l r) (createArith opt kind l r) := by
  cases kind with
  | add => exact AddExpr.create_spec hl hr
  | sub => exact SubExpr.create_spec hl hr
  | mul => exact MulExpr.create_spec hl hr
  | udiv => exact createQuotient_spec .udiv (by decide) hl hr hdivisor
  | sdiv => exact createQuotient_spec .sdiv (by decide) hl hr hdivisor
  | urem => exact createRemainder_spec .urem (by decide) hl hr hdivisor
  | srem => exact createRemainder_spec .srem (by decide) hl hr hdivisor
  | and => exact AndExpr.create_spec hl hr
  | or => exact OrExpr.create_spec hl hr
  | xor => exact XorExpr.create_spec hl hr
  | shl => exact createShift_spec .shl rfl rfl (by decide) hl hr
  | lshr => exact createShift_spec .lshr rfl rfl (by decide) hl hr
  | ashr => exact AShrExpr.create_spec hl hr

/-! ### Comparisons -/

theorem NeExpr.create_spec (hl : l.Typed w) (hr : r.Typed w) :
    Produces opt V 1 (.cmp .ne l r) (NeExpr.create opt l r) := by
  refine (EqExpr.create_spec hl hr).bind fun eq heq => ?_
  refine (EqExpr.create_spec (.boolean false) heq.typed).of_rewrites (Rewrites.trans ?_ (.cmp (.refl (.boolean false)) heq))
  refine ⟨hl.cmp hr, .cmp (.boolean false) (hl.cmp hr), ?_, fun div v _ hs => ⟨⟨trivial, hs⟩, ?_⟩⟩
  · simp only [boolean, Expr.weight, CmpKind.cost]
    omega
  · rw [Expr.Typed.bits_eq (.boolean false), hl.bits_eq, hl.bits_cmp .ne, boolean, Expr.bits_constant]
    by_cases h : l.bits v w = r.bits v w <;> simp [CmpKind.eval, h]

section
variable {kind : CmpKind} {arith : ArithKind} {create : Expr → Expr → Created}

/-- The unsigned orders: for one bit, the left operand is negated. -/
theorem unsigned_spec (hcreate : ∀ {l r : Expr}, l.Typed 1 → r.Typed 1 → Produces opt V 1 (.arith arith l r) (create l r))
    (hdiv : divides arith = false) (hcost : 1 + ArithKind.cost arith = CmpKind.cost kind)
    (hkind : ∀ x y : BitVec 1, applyArith arith (BitVec.ofBool (decide (x = 0))) y = BitVec.ofBool (kind.eval x y))
    (hl : l.Typed w) (hr : r.Typed w) :
    Produces opt V 1 (.cmp kind l r)
      (bcreate (foldCmp kind)
        (fun l r => if l.getWidth = 1 then l.createIsZero opt >>= fun isZero => create isZero r else .ok (.cmp kind l r))
        l r) := by
  refine bcreate_spec (.cmp kind) hl hr (fun cl cr _ _ => foldCmp_spec kind hl.pos cl cr) ?_
  split
  case isTrue hbool =>
    obtain rfl : w = 1 := hl.width.symm.trans hbool
    refine negated_left_spec (hl.cmp hr) hl hr hdiv ?_ (fun div v hs => hs) (fun v => ?_) hcreate
    · simp only [Expr.weight]
      omega
    · rw [hl.bits_cmp, hkind]
  case isFalse => exact .ok (.refl (hl.cmp hr))

/-- The signed orders: for one bit, the right operand is negated. -/
theorem signed_spec (hcreate : ∀ {l r : Expr}, l.Typed 1 → r.Typed 1 → Produces opt V 1 (.arith arith l r) (create l r))
    (hdiv : divides arith = false) (hcomm : ∀ x y : BitVec 1, applyArith arith y x = applyArith arith x y)
    (hcost : 1 + ArithKind.cost arith = CmpKind.cost kind)
    (hkind : ∀ x y : BitVec 1, applyArith arith (BitVec.ofBool (decide (y = 0))) x = BitVec.ofBool (kind.eval x y))
    (hl : l.Typed w) (hr : r.Typed w) :
    Produces opt V 1 (.cmp kind l r)
      (bcreate (foldCmp kind)
        (fun l r => if l.getWidth = 1 then r.createIsZero opt >>= fun isZero => create l isZero else .ok (.cmp kind l r))
        l r) := by
  refine bcreate_spec (.cmp kind) hl hr (fun cl cr _ _ => foldCmp_spec kind hl.pos cl cr) ?_
  split
  case isTrue hbool =>
    obtain rfl : w = 1 := hl.width.symm.trans hbool
    refine negated_right_spec (hl.cmp hr) hr hl hdiv ?_ (fun div v hs => hs.symm) (fun v => ?_) hcreate hcomm
    · simp only [Expr.weight]
      omega
    · rw [hl.bits_cmp, hkind]
  case isFalse => exact .ok (.refl (hl.cmp hr))

end

theorem UltExpr.create_spec (hl : l.Typed w) (hr : r.Typed w) :
    Produces opt V 1 (.cmp .ult l r) (UltExpr.create opt l r) :=
  unsigned_spec AndExpr.create_spec rfl rfl (by decide) hl hr

theorem UleExpr.create_spec (hl : l.Typed w) (hr : r.Typed w) :
    Produces opt V 1 (.cmp .ule l r) (UleExpr.create opt l r) :=
  unsigned_spec OrExpr.create_spec rfl rfl (by decide) hl hr

theorem SltExpr.create_spec (hl : l.Typed w) (hr : r.Typed w) :
    Produces opt V 1 (.cmp .slt l r) (SltExpr.create opt l r) :=
  signed_spec AndExpr.create_spec rfl (by decide) rfl (by decide) hl hr

theorem SleExpr.create_spec (hl : l.Typed w) (hr : r.Typed w) :
    Produces opt V 1 (.cmp .sle l r) (SleExpr.create opt l r) :=
  signed_spec OrExpr.create_spec rfl (by decide) rfl (by decide) hl hr

/-- The node that a comparison asks for. -/
def Comparison.node (l r : Expr) : Comparison → Expr
  | .eq => .cmp .eq l r
  | .ne => .cmp .ne l r
  | .ult => .cmp .ult l r
  | .ule => .cmp .ule l r
  | .ugt => .cmp .ult r l
  | .uge => .cmp .ule r l
  | .slt => .cmp .slt l r
  | .sle => .cmp .sle l r
  | .sgt => .cmp .slt r l
  | .sge => .cmp .sle r l

theorem createComparison_spec (kind : Comparison) (hl : l.Typed w) (hr : r.Typed w) :
    Produces opt V 1 (kind.node l r) (createComparison opt l r kind) := by
  cases kind with
  | eq => exact EqExpr.create_spec hl hr
  | ne => exact NeExpr.create_spec hl hr
  | ult => exact UltExpr.create_spec hl hr
  | ule => exact UleExpr.create_spec hl hr
  | ugt => exact UltExpr.create_spec hr hl
  | uge => exact UleExpr.create_spec hr hl
  | slt => exact SltExpr.create_spec hl hr
  | sle => exact SleExpr.create_spec hl hr
  | sgt => exact SltExpr.create_spec hr hl
  | sge => exact SleExpr.create_spec hr hl

/-! ### Reads and selections -/

section
variable {next : UpdateList} {index updateIndex value : Expr}

/-- The read meets the update. -/
theorem Rewrites.read_hit (hul : (UpdateList.extend next updateIndex value).WellTyped)
    (hindex : index.Typed next.array.domain)
    (h : ∀ div v, V v → (Expr.cmp .eq index updateIndex).Sound opt div v →
      index.bits v next.array.domain = updateIndex.bits v next.array.domain) :
    Rewrites opt V next.array.range (.read (.extend next updateIndex value) index) value where
  source := ⟨⟨hul, hindex.1, hindex.2⟩, rfl⟩
  typed := ⟨hul.2.2.1, hul.2.2.2.2⟩
  weight := by
    simp only [Expr.weight, UpdateList.weight]
    omega
  value div v hv hs := by
    have heq := h div v hv ⟨hs.2.1, hs.1.2.1⟩
    rw [Expr.value_inj hindex.1 hul.2.1 hindex.2 hul.2.2.2.1] at heq
    exact ⟨hs.1.2.2, by rw [Expr.bits, Expr.bits, Expr.value, UpdateList.readAt, if_pos heq.symm]⟩

/-- The read passes the update. -/
theorem Rewrites.read_miss (hul : (UpdateList.extend next updateIndex value).WellTyped)
    (hindex : index.Typed next.array.domain)
    (h : ∀ div v, V v → (Expr.cmp .eq index updateIndex).Sound opt div v →
      index.bits v next.array.domain ≠ updateIndex.bits v next.array.domain) :
    Rewrites opt V next.array.range (.read (.extend next updateIndex value) index) (.read next index) where
  source := ⟨⟨hul, hindex.1, hindex.2⟩, rfl⟩
  typed := ⟨⟨hul.1, hindex.1, hindex.2⟩, rfl⟩
  weight := by
    simp only [Expr.weight, UpdateList.weight]
    omega
  value div v hv hs := by
    have hne := h div v hv ⟨hs.2.1, hs.1.2.1⟩
    rw [Ne, Expr.value_inj hindex.1 hul.2.1 hindex.2 hul.2.2.2.1] at hne
    refine ⟨⟨hs.1.1, hs.2.1, hs.2.2⟩, ?_⟩
    rw [Expr.bits, Expr.bits, Expr.value, Expr.value, UpdateList.readAt, if_neg fun heq => hne heq.symm]

end

theorem ReadExpr.rollback_spec {index : Expr} : (ul : UpdateList) → ul.WellTyped → index.Typed ul.array.domain →
    ∃ value, ReadExpr.rollback opt index ul = .ok value ∧
      ∀ e, value = some e → Rewrites opt V ul.array.range (.read ul index) e
  | .root _, _, _ => ⟨none, rfl, fun _ h => nomatch h⟩
  | .extend next updateIndex value, hul, hindex => by
    have hindex' : index.Typed next.array.domain := hindex
    obtain ⟨cond, hcond, hrewrites⟩ : Produces opt V 1 (.cmp .eq index updateIndex) (EqExpr.create opt index updateIndex) :=
      EqExpr.create_spec hindex' ⟨hul.2.1, hul.2.2.2.1⟩
    rw [ReadExpr.rollback, hcond]
    rcases hrewrites.typed.constant_or with ⟨c, rfl⟩ | hsymbolic
    · have hc : ∀ div v, V v → (Expr.cmp .eq index updateIndex).Sound opt div v →
          c = BitVec.ofBool (decide (index.bits v next.array.domain = updateIndex.bits v next.array.domain)) :=
        fun div v hv hs => by rw [← hindex'.bits_eq, ← (hrewrites.value div v hv hs).2, Expr.bits_constant]
      rcases bit_cases c with rfl | rfl
      · obtain ⟨found, hfound, hmiss⟩ := ReadExpr.rollback_spec next hul.1 hindex
        refine ⟨found, hfound, fun e he => (Rewrites.read_miss hul hindex fun div v hv hs heq => ?_).trans (hmiss e he)⟩
        have := hc div v hv hs
        simp [heq] at this
      · refine ⟨some value, rfl, fun e he => ?_⟩
        obtain rfl := Option.some.inj he
        refine .read_hit hul hindex fun div v hv hs => ?_
        by_contra hne
        have := hc div v hv hs
        simp [hne] at this
    · cases cond with
      | constant w c => cases hsymbolic
      | _ => exact ⟨none, rfl, fun _ h => nomatch h⟩

theorem ReadExpr.create_spec {ul : UpdateList} {index : Expr} (hul : ul.WellTyped) (hindex : index.Typed ul.array.domain) :
    Produces opt V ul.array.range (.read ul index) (ReadExpr.create opt ul index) := by
  obtain ⟨value, hvalue, hfound⟩ : ∃ value, ReadExpr.rollback opt index ul = .ok value ∧
      ∀ e, value = some e → Rewrites opt V ul.array.range (.read ul index) e := ReadExpr.rollback_spec ul hul hindex
  rw [ReadExpr.create, hvalue]
  cases value with
  | none => exact .ok (.refl ⟨⟨hul, hindex.1, hindex.2⟩, rfl⟩)
  | some e => exact .ok (hfound e rfl)

theorem Expr.Typed.bits_select (hc : c.Typed 1) (v : Valuation) :
    (Expr.select c t f).bits v w = if c.bits v 1 ≠ 0 then t.bits v w else f.bits v w :=
  Expr.bits_select c t f hc.1 hc.2

/-- A one-bit selection with one constant alternative. -/
theorem Rewrites.select_arith {kind : ArithKind} {q : Expr} (hn : (Expr.select c t f).Typed 1) (hq : q = t ∨ q = f)
    (hdiv : divides kind = false) (hcost : ArithKind.cost kind ≤ 3)
    (h : ∀ v, applyArith kind (c.bits v 1) (q.bits v 1) = (Expr.select c t f).bits v 1) :
    Rewrites opt V 1 (.select c t f) (.arith kind c q) := by
  obtain ⟨hc, ht, hf⟩ := Expr.Typed.select.mp hn
  have hqt : q.Typed 1 := by rcases hq with rfl | rfl <;> assumption
  refine ⟨hn, hc.sum hqt, ?_, fun div v _ hs => ⟨⟨hs.1, ?_, fun _ htrue => ?_⟩, (hc.bits_arith kind v).trans (h v)⟩⟩
  · rcases hq with rfl | rfl <;> simp only [Expr.weight] <;> omega
  · rcases hq with rfl | rfl
    · exact hs.2.1
    · exact hs.2.2
  · rw [hdiv] at htrue
    cases htrue

theorem SelectExpr.create_spec (hn : (Expr.select c t f).Typed w) :
    Produces opt V w (.select c t f) (SelectExpr.create opt c t f) := by
  obtain ⟨hc, ht, hf⟩ := Expr.Typed.select.mp hn
  unfold SelectExpr.create
  rw [if_neg (by rintro (h | h) <;> apply h; exacts [hc.width, ht.width.trans hf.width.symm])]
  split
  case h_1 wc cc =>
    obtain rfl : wc = 1 := hc.width
    refine .ok ⟨hn, by split <;> assumption, ?_, fun div v _ hs => ⟨?_, ?_⟩⟩
    · simp only [Expr.weight]
      split <;> omega
    · split
      exacts [hs.2.1, hs.2.2]
    · rw [hc.bits_select, Expr.bits_constant]
      split <;> rfl
  case h_2 =>
    split
    case isTrue hsame =>
      subst hsame
      refine .ok ⟨hn, ht, ?_, fun div v _ hs => ⟨hs.2.1, ?_⟩⟩
      · simp only [Expr.weight]
        omega
      · rw [hc.bits_select, ite_self]
    case isFalse =>
      split
      case isTrue hbool =>
        obtain rfl : w = 1 := ht.width.symm.trans hbool
        split
        case h_1 wt ct _ =>
          obtain rfl : wt = 1 := ht.width
          split
          case isTrue hone =>
            obtain rfl : ct = 1 := (bit_cases ct).resolve_left hone
            refine (OrExpr.create_spec hc hf).of_rewrites (.select_arith hn (.inr rfl) rfl (by decide) fun v => ?_)
            rw [hc.bits_select, Expr.bits_constant]
            generalize c.bits v 1 = x
            generalize f.bits v 1 = y
            revert x y
            decide
          case isFalse hzero =>
            obtain rfl : ct = 0 := not_not.mp hzero
            refine negated_left_spec hn hc hf rfl ?_ (fun div v hs => ⟨hs.1, hs.2.2⟩) (fun v => ?_) AndExpr.create_spec
            · simp only [Expr.weight, ArithKind.cost]
              omega
            · rw [hc.bits_select, Expr.bits_constant]
              generalize c.bits v 1 = x
              generalize f.bits v 1 = y
              revert x y
              decide
        case h_2 wf cf _ _ =>
          obtain rfl : wf = 1 := hf.width
          split
          case isTrue hone =>
            obtain rfl : cf = 1 := (bit_cases cf).resolve_left hone
            refine negated_left_spec hn hc ht rfl ?_ (fun div v hs => ⟨hs.1, hs.2.1⟩) (fun v => ?_) OrExpr.create_spec
            · simp only [Expr.weight, ArithKind.cost]
              omega
            · rw [hc.bits_select, Expr.bits_constant]
              generalize c.bits v 1 = x
              generalize t.bits v 1 = y
              revert x y
              decide
          case isFalse hzero =>
            obtain rfl : cf = 0 := not_not.mp hzero
            refine (AndExpr.create_spec hc ht).of_rewrites (.select_arith hn (.inl rfl) rfl (by decide) fun v => ?_)
            rw [hc.bits_select, Expr.bits_constant]
            generalize c.bits v 1 = x
            generalize t.bits v 1 = y
            revert x y
            decide
        case h_3 => exact .ok (.refl hn)
      case isFalse => exact .ok (.refl hn)

end CapTaint.Klee
