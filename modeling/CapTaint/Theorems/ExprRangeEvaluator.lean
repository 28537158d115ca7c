import CapTaint.Theorems.ValueRange
import CapTaint.Theorems.Create

/-! # Ranges contain the values

The range of an expression contains its value, by recursion over what the evaluator comes to. A value is lost where a concat
takes its right operand for a byte. -/

namespace CapTaint.Klee

variable {v : Valuation} {x y w : Nat} {r r' : ValueRange}

mutual
/-- The elements of all arrays are bytes. -/
def Expr.OverBytes : Expr → Prop
  | .constant _ _ => True
  | .notOptimized src => src.OverBytes
  | .read updates index => updates.OverBytes ∧ index.OverBytes
  | .select cond trueExpr falseExpr => cond.OverBytes ∧ trueExpr.OverBytes ∧ falseExpr.OverBytes
  | .concat left right => left.OverBytes ∧ right.OverBytes
  | .extract expr _ _ => expr.OverBytes
  | .zext src _ => src.OverBytes
  | .sext src _ => src.OverBytes
  | .not expr => expr.OverBytes
  | .arith _ left right => left.OverBytes ∧ right.OverBytes
  | .cmp _ left right => left.OverBytes ∧ right.OverBytes

def UpdateList.OverBytes : UpdateList → Prop
  | .root array => array.range = 8
  | .extend next index value => next.OverBytes ∧ index.OverBytes ∧ value.OverBytes
end

theorem UpdateList.range_eq : (updates : UpdateList) → updates.OverBytes → updates.array.range = 8
  | .root _, h => h
  | .extend next _ _, h => next.range_eq h.1

namespace ExprRangeEvaluator

open ValueRange (Contains full fixed)

/-- The comparisons of signed numbers. -/
def isSigned : CmpKind → Bool
  | .slt | .sle => true
  | _ => false

/-- The operators that look at the ranges of their operands. -/
def isBitwise : ArithKind → Bool
  | .and | .or | .xor => true
  | _ => false

section
variable (getInitialReadRange : Array → ValueRange → ValueRange)

mutual
/-- No value is lost at what the evaluator comes to: arms and updates that it leaves out do not matter, nor do operands whose
    ranges it does not use. What it uses has a right operand of one byte in each concat, constants of 64 bits, no comparison
    that canonical expressions do not have, and none of signed numbers of 64 bits. -/
def Handled : Expr → Prop
  | .constant _ value => value.toNat < 2 ^ 64
  | .notOptimized src => src.getWidth ≤ 64
  | .read updates index => Handled index ∧ ∀ ir, evaluate getInitialReadRange index = some ir → ReadHandled updates ir .empty
  | .select cond trueExpr falseExpr => Handled cond ∧ ∀ cr, evaluate getInitialReadRange cond = some cr →
      if cr.mustEqualValue 1 then Handled trueExpr
      else if cr.mustEqualValue 0 then Handled falseExpr
      else Handled trueExpr ∧ Handled falseExpr
  | .concat left right => Handled left ∧ Handled right ∧ right.getWidth = 8 ∧
      ∀ r, evaluate getInitialReadRange left = some r → r.max.toNat < 2 ^ 56
  | .extract _ _ width => width ≤ 64
  | .zext _ width => width ≤ 64
  | .sext _ width => width ≤ 64
  | .not expr => expr.getWidth ≤ 64
  | .arith kind left right =>
    if isShift kind then left.getWidth ≤ 64
    else if isBitwise kind then Handled left ∧ Handled right
    else left.getWidth ≤ 64 ∧ (evaluate getInitialReadRange left).isSome ∧ (evaluate getInitialReadRange right).isSome
  | .cmp kind left right =>
    -- either the comparison is left open, or it is decided by ranges that have the values
    evaluate getInitialReadRange (.cmp kind left right) = full 1 ∨
      Handled left ∧ Handled right ∧ kind ≠ .ne ∧ (isSigned kind = true → left.getWidth < 64)

/-- The updates that are come to when the index has the range `index`, and those in front the range `res`. -/
def ReadHandled : UpdateList → ValueRange → ValueRange → Prop
  | .root _, _, _ => True
  | .extend next updateIndex value, index, res => Handled updateIndex ∧
    ∀ ui, evaluate getInitialReadRange updateIndex = some ui →
      if ui.mustEqual index then Handled value
      else if ui.mayEqual index then
        Handled value ∧ ∀ vr, evaluate getInitialReadRange value = some vr →
          (res.set_union vr).isFullRange 8 = true ∨ ReadHandled next index (res.set_union vr)
      else ReadHandled next index res
end

end

/-- The ranges of the initial reads are ranges of bytes that contain the bytes of the valuation. -/
structure Covers (getInitialReadRange : Array → ValueRange → ValueRange) (v : Valuation) : Prop where
  contains : ∀ array index i, array.range = 8 → index.Contains i → (getInitialReadRange array index).Contains (array.initial v i)
  byte : ∀ array index, array.range = 8 → (getInitialReadRange array index).max.toNat < 2 ^ 8

/-- The range is there, has the value, and fits the width. -/
def Bounds (range : Option ValueRange) (w x : Nat) : Prop := ∃ r, range = some r ∧ r.Contains x ∧ r.max.toNat < 2 ^ w

theorem bounds_full (hw : w ≤ 64) (hx : x < 2 ^ w) : Bounds (full w) w x := ValueRange.full_spec hw hx

theorem Bounds.bind {f : ValueRange → Option ValueRange} {range : Option ValueRange} {w' : Nat} (h : Bounds range w x)
    (hf : ∀ r, r.Contains x → r.max.toNat < 2 ^ w → Bounds (f r) w' y) : Bounds (range >>= f) w' y := by
  obtain ⟨r, rfl, hr, hmax⟩ := h
  exact hf r hr hmax

theorem bounds_constant {width : Nat} (value : BitVec width) (hlt : value.toNat < 2 ^ 64) :
    Bounds (some (fixed (getLimitedValue value))) width value.toNat := by
  have heq : (getLimitedValue value).toNat = value.toNat := by
    rw [getLimitedValue, if_pos hlt, BitVec.toNat_ofNat, Nat.mod_eq_of_lt hlt]
  exact ⟨_, rfl, heq ▸ ValueRange.contains_fixed _, heq.symm ▸ value.isLt⟩

/-! ### Comparisons -/

theorem bounds_decided {must cannot p : Bool} (hmust : must = true → p = true) (hcannot : cannot = true → p = false) :
    Bounds (decided must cannot) 1 p.toNat := by
  unfold decided
  split_ifs with h h'
  · rw [hmust h]
    exact ⟨_, rfl, ValueRange.contains_fixed 1, by decide⟩
  · rw [hcannot h']
    exact ⟨_, rfl, ValueRange.contains_fixed 0, by decide⟩
  · exact bounds_full (by decide) p.toNat_lt

theorem getMin_eq (h : r.Contains x) : r.getMin = some r.min := if_neg (by rw [h.isEmpty]; exact Bool.false_ne_true)

theorem getMax_eq (h : r.Contains x) : r.getMax = some r.max := if_neg (by rw [h.isEmpty]; exact Bool.false_ne_true)

theorem bounds_evaluateCmp {kind : CmpKind} (hx : r.Contains x) (hy : r'.Contains y) (hr : r.max.toNat < 2 ^ w) (hr' : r'.max.toNat < 2 ^ w)
    (hw : 0 < w) (hne : kind ≠ .ne) (hsigned : isSigned kind = true → w < 64) :
    Bounds (evaluateCmp w r r' kind) 1 (kind.eval (BitVec.ofNat w x) (BitVec.ofNat w y)).toNat := by
  have hxw : (BitVec.ofNat w x).toNat = x := by rw [BitVec.toNat_ofNat, Nat.mod_eq_of_lt (hx.le_max.trans_lt hr)]
  have hyw : (BitVec.ofNat w y).toNat = y := by rw [BitVec.toNat_ofNat, Nat.mod_eq_of_lt (hy.le_max.trans_lt hr')]
  have hmin := hx.min_le
  have hmax := hx.le_max
  have hmin' := hy.min_le
  have hmax' := hy.le_max
  cases kind with
  | ne => exact absurd rfl hne
  | eq =>
    refine bounds_decided (fun h => ?_) fun h => ?_
    · exact decide_eq_true (congrArg (BitVec.ofNat w) (ValueRange.eq_of_mustEqual hx hy h))
    · refine decide_eq_false fun heq => ?_
      have hxy : x = y := by rw [← hxw, heq, hyw]
      rw [ValueRange.mayEqual_of_contains hx (hxy ▸ hy)] at h
      cases h
  | ult =>
    rw [evaluateCmp, getMin_eq hx, getMin_eq hy, getMax_eq hx, getMax_eq hy]
    refine bounds_decided (fun h => decide_eq_true ?_) fun h => decide_eq_false ?_
    · have := BitVec.lt_def.mp (of_decide_eq_true h)
      rw [hxw, hyw]
      omega
    · have := BitVec.le_def.mp (of_decide_eq_true h)
      rw [hxw, hyw]
      omega
  | ule =>
    rw [evaluateCmp, getMin_eq hx, getMin_eq hy, getMax_eq hx, getMax_eq hy]
    refine bounds_decided (fun h => decide_eq_true ?_) fun h => decide_eq_false ?_
    · have := BitVec.le_def.mp (of_decide_eq_true h)
      rw [hxw, hyw]
      omega
    · have := BitVec.lt_def.mp (of_decide_eq_true h)
      rw [hxw, hyw]
      omega
  | slt =>
    obtain ⟨lo, hlo, hlox⟩ := ValueRange.minSigned_spec hx hw (hsigned rfl) hr
    obtain ⟨hi, hhi, hxhi⟩ := ValueRange.maxSigned_spec hx hw (hsigned rfl) hr
    obtain ⟨lo', hlo', hloy⟩ := ValueRange.minSigned_spec hy hw (hsigned rfl) hr'
    obtain ⟨hi', hhi', hyhi⟩ := ValueRange.maxSigned_spec hy hw (hsigned rfl) hr'
    rw [evaluateCmp, hlo, hhi, hlo', hhi']
    refine bounds_decided (fun h => decide_eq_true ?_) fun h => decide_eq_false ?_
    · exact (hxhi.trans_lt (of_decide_eq_true h)).trans_le hloy
    · exact not_lt.mpr ((hyhi.trans (of_decide_eq_true h)).trans hlox)
  | sle =>
    obtain ⟨lo, hlo, hlox⟩ := ValueRange.minSigned_spec hx hw (hsigned rfl) hr
    obtain ⟨hi, hhi, hxhi⟩ := ValueRange.maxSigned_spec hx hw (hsigned rfl) hr
    obtain ⟨lo', hlo', hloy⟩ := ValueRange.minSigned_spec hy hw (hsigned rfl) hr'
    obtain ⟨hi', hhi', hyhi⟩ := ValueRange.maxSigned_spec hy hw (hsigned rfl) hr'
    rw [evaluateCmp, hlo, hhi, hlo', hhi']
    refine bounds_decided (fun h => decide_eq_true ?_) fun h => decide_eq_false ?_
    · exact (hxhi.trans (of_decide_eq_true h)).trans hloy
    · exact not_le.mpr ((hyhi.trans_lt (of_decide_eq_true h)).trans_le hlox)

/-! ### The traversal -/

/-- Without a look at the operands. -/
theorem evaluateArith_full {kind : ArithKind} (hbitwise : isBitwise kind = false) : evaluateArith w r r' kind = full w := by
  cases kind <;> first | rfl | cases hbitwise

theorem bounds_evaluateArith {kind : ArithKind} (hx : r.Contains x) (hy : r'.Contains y) (hr : r.max.toNat < 2 ^ w)
    (hr' : r'.max.toNat < 2 ^ w) (hbitwise : isBitwise kind = true) :
    Bounds (evaluateArith w r r' kind) w (applyArith kind (BitVec.ofNat w x) (BitVec.ofNat w y)).toNat := by
  have hxw : (BitVec.ofNat w x).toNat = x := by rw [BitVec.toNat_ofNat, Nat.mod_eq_of_lt (hx.le_max.trans_lt hr)]
  have hyw : (BitVec.ofNat w y).toNat = y := by rw [BitVec.toNat_ofNat, Nat.mod_eq_of_lt (hy.le_max.trans_lt hr')]
  cases kind with
  | and =>
    rw [applyArith_and, BitVec.toNat_and, hxw, hyw]
    exact ValueRange.binaryAnd_spec hx hy hr hr'
  | or =>
    rw [applyArith_or, BitVec.toNat_or, hxw, hyw]
    exact ValueRange.binaryOr_spec hx hy hr hr'
  | xor =>
    rw [applyArith_xor, BitVec.toNat_xor, hxw, hyw]
    exact ValueRange.binaryXor_spec hx hy hr hr'
  | _ => cases hbitwise

theorem bounds_concat (hx : r.Contains x) (hy : r'.Contains y) (hr : r.max.toNat < 2 ^ w) (hr' : r'.max.toNat < 2 ^ 8)
    (hfits : r.max.toNat < 2 ^ 56) :
    Bounds ((fixed 0).concat r 8 >>= fun res => res.concat r' 8) (w + 8) (x * 2 ^ 8 + y) := by
  -- the bits of the left operand that are not shifted out
  have hmin : r.max.toNat < 2 ^ min w 56 := by
    rcases Nat.le_total w 56 with hle | hle
    · rwa [min_eq_left hle]
    · rwa [min_eq_right hle]
  have hzero : Bounds ((fixed 0).concat r 8) (min w 56) (0 ||| x) :=
    ValueRange.binaryOr_spec (ValueRange.contains_fixed 0) hx (Nat.two_pow_pos _) hmin
  rw [Nat.zero_or] at hzero
  refine hzero.bind fun res hres hmax => ?_
  obtain ⟨r, hr, hcontains, hlt⟩ := ValueRange.concat_spec (min_le_right w 56) hres hy hmax hr'
  exact ⟨r, hr, hcontains, hlt.trans_le (Nat.pow_le_pow_right Nat.two_pos (Nat.add_le_add_right (min_le_left w 56) 8))⟩

/-- The arms that are evaluated have bounds. -/
theorem bounds_select {cond : ValueRange} {t f : Option ValueRange} {c : Nat} (hc : cond.Contains c)
    (harms : if cond.mustEqualValue 1 then Bounds t w x else if cond.mustEqualValue 0 then Bounds f w y
      else Bounds t w x ∧ Bounds f w y) :
    Bounds (if cond.mustEqualValue 1 then t else if cond.mustEqualValue 0 then f
      else t >>= fun t => f >>= fun f => some (t.set_union f)) w (if c ≠ 0 then x else y) := by
  have hfixed : ∀ value : BitVec 64, cond.mustEqualValue value = true → c = value.toNat := fun value h => by
    obtain ⟨heq, hvalue⟩ := of_decide_eq_true h
    rw [hc.eq_of_isFixed (decide_eq_true heq), hvalue]
  by_cases h1 : cond.mustEqualValue 1 = true
  · rw [if_pos h1] at harms ⊢
    rwa [if_pos (by rw [hfixed 1 h1]; decide)]
  by_cases h0 : cond.mustEqualValue 0 = true
  · rw [if_neg h1, if_pos h0] at harms ⊢
    rwa [if_neg (by rw [hfixed 0 h0]; decide)]
  rw [if_neg h1, if_neg h0] at harms ⊢
  obtain ⟨⟨tr, rfl, htr, htmax⟩, fr, rfl, hfr, hfmax⟩ := harms
  refine ⟨_, rfl, ?_, ValueRange.union_max_lt htmax hfmax⟩
  split
  exacts [ValueRange.contains_union_left htr, ValueRange.union_comm_contains hfr]

/-- The range of all bytes. -/
theorem contains_of_isFullRange (h : r.isFullRange 8 = true) (hx : x < 2 ^ 8) : r.Contains x := by
  obtain ⟨hmin, hmax⟩ := of_decide_eq_true h
  constructor
  · rw [hmin]
    exact Nat.zero_le _
  · rw [hmax, maxValueOfNBits_eq (by decide)]
    exact Nat.le_sub_one_of_lt hx

/-- The range of a read contains its value, and what is in the range of the updates in front. -/
def ReadBounds (range : Option ValueRange) (res : ValueRange) (x : Nat) : Prop :=
  ∃ r, range = some r ∧ r.max.toNat < 2 ^ 8 ∧ r.Contains x ∧ ∀ x, res.Contains x → r.Contains x

section
variable {ui ir res vr : ValueRange} {k i : Nat}

/-- An update that must be the one that is read. -/
theorem readBounds_must (hui : ui.Contains k) (hir : ir.Contains i) (hmust : ui.mustEqual ir = true)
    (hres : res.max.toNat < 2 ^ 8) (hvr : vr.Contains x) (hvrmax : vr.max.toNat < 2 ^ 8) :
    ReadBounds (some (res.set_union vr)) res (if k = i then x else y) := by
  rw [if_pos (ValueRange.eq_of_mustEqual hui hir hmust)]
  exact ⟨_, rfl, ValueRange.union_max_lt hres hvrmax, ValueRange.union_comm_contains hvr, fun _ => ValueRange.contains_union_left⟩

/-- An update that may be the one that is read. The search goes on unless every byte is in the range. -/
theorem readBounds_may {rest : Option ValueRange} (hres : res.max.toNat < 2 ^ 8) (hvr : vr.Contains x)
    (hvrmax : vr.max.toNat < 2 ^ 8) (hx : x < 2 ^ 8) (hy : y < 2 ^ 8)
    (hrest : (res.set_union vr).isFullRange 8 = true ∨ ReadBounds rest (res.set_union vr) y) :
    ReadBounds (if (res.set_union vr).isFullRange 8 then some (res.set_union vr) else rest) res (if k = i then x else y) := by
  by_cases hfull : (res.set_union vr).isFullRange 8 = true
  · rw [if_pos hfull]
    refine ⟨_, rfl, ValueRange.union_max_lt hres hvrmax, ?_, fun _ => ValueRange.contains_union_left⟩
    split
    exacts [contains_of_isFullRange hfull hx, contains_of_isFullRange hfull hy]
  · rw [if_neg hfull]
    obtain ⟨r, hr, hmax, hread, hkeep⟩ := hrest.resolve_left hfull
    refine ⟨r, hr, hmax, ?_, fun z hz => hkeep z (ValueRange.contains_union_left hz)⟩
    split
    exacts [hkeep x (ValueRange.union_comm_contains hvr), hread]

/-- An update that cannot be the one that is read. -/
theorem readBounds_cannot {rest : Option ValueRange} (hui : ui.Contains k) (hir : ir.Contains i) (hmay : ¬ui.mayEqual ir = true)
    (hrest : ReadBounds rest res y) : ReadBounds rest res (if k = i then x else y) := by
  have hne : k ≠ i := fun hsame => hmay (ValueRange.mayEqual_of_contains hui (hsame.symm ▸ hir))
  rwa [if_neg hne]

end

variable {getInitialReadRange : Array → ValueRange → ValueRange}

mutual
theorem evaluate_bounds (hcovers : Covers getInitialReadRange v) : (e : Expr) → e.WellTyped → e.OverBytes →
    Handled getInitialReadRange e → Bounds (evaluate getInitialReadRange e) e.getWidth (e.value v)
  | .constant _ value, _, _, h => bounds_constant value h
  | .notOptimized src, he, _, h => bounds_full h (Expr.value_lt src he)
  | .read updates index, he, hbytes, h => by
    rw [evaluate, Expr.getWidth, updates.range_eq hbytes.1]
    obtain ⟨ir, hindex, hir, -⟩ := evaluate_bounds hcovers index he.2.1 hbytes.2 h.1
    obtain ⟨r, hr, hmax, hcontains, -⟩ := evalRead_bounds hcovers updates he.1 hbytes.1 hir .empty (by decide) (h.2 ir hindex)
    rw [hindex]
    exact ⟨r, hr, hcontains, hmax⟩
  | .select cond t f, he, hbytes, h => by
    obtain ⟨hc, ht, hf, hcw, hwidth⟩ := he
    obtain ⟨cr, hcond, hcr, -⟩ := evaluate_bounds hcovers cond hc hbytes.1 h.1
    have htrue := evaluate_bounds hcovers t ht hbytes.2.1
    have hfalse := evaluate_bounds hcovers f hf hbytes.2.2
    rw [← hwidth] at hfalse
    rw [evaluate, hcond]
    refine bounds_select hcr ?_
    have harms := h.2 cr hcond
    by_cases h1 : cr.mustEqualValue 1 = true
    · rw [if_pos h1] at harms ⊢
      exact htrue harms
    by_cases h0 : cr.mustEqualValue 0 = true
    · rw [if_neg h1, if_pos h0] at harms ⊢
      exact hfalse harms
    · rw [if_neg h1, if_neg h0] at harms ⊢
      exact ⟨htrue harms.1, hfalse harms.2⟩
  | .concat l r, he, hbytes, h => by
    obtain ⟨hl, hr, hbyte, hfits⟩ := h
    rw [evaluate, Expr.getWidth, Expr.value, hbyte]
    obtain ⟨left, hleft, hlx, hlmax⟩ := evaluate_bounds hcovers l he.1 hbytes.1 hl
    obtain ⟨right, hright, hrx, hrmax⟩ := evaluate_bounds hcovers r he.2 hbytes.2 hr
    rw [hleft, hright]
    exact bounds_concat hlx hrx hlmax (hbyte ▸ hrmax) (hfits left hleft)
  | .extract e off w, he, _, h => bounds_full h (Nat.mod_lt _ (Nat.two_pow_pos w))
  | .zext src w, he, _, h => bounds_full h (Expr.value_lt (.zext src w) he)
  | .sext src w, he, _, h => bounds_full h (Expr.value_lt (.sext src w) he)
  | .not e, he, _, h => bounds_full h (Expr.value_lt (.not e) he)
  | .arith kind l r, he, hbytes, h => by
    rw [Handled] at h
    rw [evaluate]
    split at h
    case isTrue hshift =>
      rw [if_pos hshift]
      exact bounds_full h (Expr.value_lt (.arith kind l r) he)
    case isFalse hshift =>
      rw [if_neg hshift]
      split at h
      case isTrue hbitwise =>
        have hright := evaluate_bounds hcovers r he.2.1 hbytes.2 h.2
        rw [← he.2.2] at hright
        exact (evaluate_bounds hcovers l he.1 hbytes.1 h.1).bind fun left hlx hlmax => hright.bind fun right hrx hrmax =>
          bounds_evaluateArith hlx hrx hlmax hrmax hbitwise
      case isFalse hbitwise =>
        obtain ⟨hwidth, hleft, hright⟩ := h
        obtain ⟨left, hleft⟩ := Option.isSome_iff_exists.mp hleft
        obtain ⟨right, hright⟩ := Option.isSome_iff_exists.mp hright
        rw [hleft, hright, Option.bind_eq_bind, Option.bind_some, Option.bind_some,
          evaluateArith_full (Bool.eq_false_iff.mpr hbitwise)]
        exact bounds_full hwidth (Expr.value_lt (.arith kind l r) he)
  | .cmp kind l r, he, hbytes, h => by
    rw [Handled] at h
    rcases h with hopen | ⟨hl, hr, hne, hsigned⟩
    · rw [hopen]
      exact bounds_full (by decide) (Expr.value_lt (.cmp kind l r) he)
    · have hright := evaluate_bounds hcovers r he.2.1 hbytes.2 hr
      rw [← he.2.2] at hright
      exact (evaluate_bounds hcovers l he.1 hbytes.1 hl).bind fun left hlx hlmax => hright.bind fun right hrx hrmax =>
        bounds_evaluateCmp hlx hrx hlmax hrmax (l.width_pos he.1) hne hsigned

theorem evalRead_bounds (hcovers : Covers getInitialReadRange v) : (updates : UpdateList) → updates.WellTyped → updates.OverBytes →
    {ir : ValueRange} → {i : Nat} → ir.Contains i → (res : ValueRange) → res.max.toNat < 2 ^ 8 →
    ReadHandled getInitialReadRange updates ir res →
    ReadBounds (evalRead getInitialReadRange updates ir res) res (updates.readAt v i)
  | .root array, _, hbytes, ir, i, hi, res, hres, _ =>
    ⟨_, rfl, ValueRange.union_max_lt hres (hcovers.byte array ir hbytes), ValueRange.union_comm_contains (hcovers.contains array ir i hbytes hi),
      fun _ => ValueRange.contains_union_left⟩
  | .extend next index value, he, hbytes, ir, i, hi, res, hres, h => by
    obtain ⟨hnext, hindex, hvalue, -, hwidth⟩ := he
    obtain ⟨ui, hui, huix, -⟩ := evaluate_bounds hcovers index hindex hbytes.2.1 h.1
    have hupdate := h.2 ui hui
    have hvalueBounds := evaluate_bounds hcovers value hvalue hbytes.2.2
    have hrest := fun res hres => @evalRead_bounds hcovers next hnext hbytes.1 ir i hi res hres
    rw [hwidth, next.range_eq hbytes.1] at hvalueBounds
    rw [evalRead, hui, UpdateList.readAt]
    change ReadBounds (if ui.mustEqual ir then _ else _) res _
    split at hupdate
    case isTrue hmust =>
      obtain ⟨vr, hvr, hvrx, hvrmax⟩ := hvalueBounds hupdate
      rw [if_pos hmust, hvr]
      exact readBounds_must huix hi hmust hres hvrx hvrmax
    case isFalse hmust =>
      rw [if_neg hmust]
      split at hupdate
      case isTrue hmay =>
        obtain ⟨vr, hvr, hvrx, hvrmax⟩ := hvalueBounds hupdate.1
        have hvalueLt := value.value_lt hvalue (v := v)
        have hnextLt := next.readAt_lt hnext i (v := v)
        rw [hwidth, next.range_eq hbytes.1] at hvalueLt
        rw [next.range_eq hbytes.1] at hnextLt
        rw [if_pos hmay, hvr]
        refine readBounds_may hres hvrx hvrmax hvalueLt hnextLt ?_
        exact (hupdate.2 vr hvr).imp_right (hrest _ (ValueRange.union_max_lt hres hvrmax))
      case isFalse hmay =>
        rw [if_neg hmay]
        exact readBounds_cannot huix hi hmay (hrest res hres hupdate)
end

end ExprRangeEvaluator

/-- The ranges of the initial reads in `FastCexSolver`. -/
theorem CexRangeEvaluator.covers (v : Valuation) : ExprRangeEvaluator.Covers CexRangeEvaluator.getInitialReadRange v := by
  have hbyte : ∀ (array : Array) (i : Nat), array.range = 8 → ((array.constantValues[i]?.map (·.toNat)).getD 0) < 2 ^ 8 := by
    intro array i hrange
    cases array.constantValues[i]? with
    | none => exact Nat.two_pow_pos 8
    | some c => exact hrange ▸ c.isLt
  have hword : ∀ n, n < 2 ^ 8 → (BitVec.ofNat 64 n).toNat = n := fun n hn => by
    rw [BitVec.toNat_ofNat, Nat.mod_eq_of_lt (hn.trans (by decide))]
  constructor
  · intro array index i hrange hi
    rw [getInitialReadRange]
    split_ifs with h
    · obtain ⟨hconstant, hfixed, -⟩ := h
      rw [Array.initial, if_pos hconstant, hi.eq_of_isFixed hfixed]
      have hcontains := ValueRange.contains_fixed (BitVec.ofNat 64 ((array.constantValues[index.min.toNat]?.map (·.toNat)).getD 0))
      rwa [hword _ (hbyte array _ hrange)] at hcontains
    · have hlt := initial_lt (v := v) array i
      rw [hrange] at hlt
      exact ⟨Nat.zero_le _, Nat.le_of_lt_succ hlt⟩
  · intro array index hrange
    rw [getInitialReadRange]
    split_ifs with h
    · rw [ValueRange.fixed, hword _ (hbyte array _ hrange)]
      exact hbyte array _ hrange
    · decide

namespace ExprRangeEvaluator

/-- A byte of an array of four. -/
def byteAt (i : Nat) : Expr := .read (.root ⟨0, 4, 32, 8, []⟩) (.constant 32 (.ofNat 32 i))

theorem byteAt_wellTyped (i : Nat) : (byteAt i).WellTyped := ⟨⟨by decide, by decide, nofun⟩, show 0 < 32 by decide, rfl⟩

theorem byteAt_handled (getInitialReadRange : Array → ValueRange → ValueRange) (i : Nat) :
    Handled getInitialReadRange (byteAt i) :=
  ⟨(BitVec.isLt _).trans (by decide), fun _ _ => trivial⟩

/-- The word of all four bytes. -/
def word : Expr := .concat (byteAt 3) (.concat (byteAt 2) (.concat (byteAt 1) (byteAt 0)))

theorem word_wellTyped : word.WellTyped :=
  ⟨byteAt_wellTyped 3, byteAt_wellTyped 2, byteAt_wellTyped 1, byteAt_wellTyped 0⟩

end ExprRangeEvaluator
end CapTaint.Klee
