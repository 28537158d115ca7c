import CapTaint.GetElementPtr
import CapTaint.Lib.OptionLoop
import CapTaint.Theorems.Resolution

/-! The address that a `getelementptr` gives. An instruction sign-extends every index; a constant zero-extends them and
keeps the sizes of the elements in 32 bits. -/

namespace CapTaint.GetElementPtr

open Klee

variable {target : TargetData} {opt : Bool} {V : Valuation → Prop} {locals : Nat → Expr} {operands : List LValue}
  {steps : List Step}

/-! ### The address -/

/-- The value of an index as a signed number. -/
def LValue.index (locals : Nat → Expr) (v : Valuation) (operand : LValue) : Int :=
  ((operand.cell locals).bits v (operand.cell locals).getWidth).toInt

theorem LValue.index_constant (locals : Nat → Expr) (v : Valuation) (c : ConstantExpr) :
    (LValue.constant c).index locals v = c.value.toInt := by
  show (BitVec.ofNat c.width c.value.toNat).toInt = c.value.toInt
  rw [BitVec.ofNat_toNat, BitVec.setWidth_eq]

/-- How far a step moves the pointer. -/
def Step.displacement (target : TargetData) (locals : Nat → Expr) (v : Valuation) : Step → Int
  | .field name elements i => target.getElementOffset name elements i
  | .element type operand => operand.index locals v * target.getTypeStoreSize type

def address (target : TargetData) (locals : Nat → Expr) (gep : GEPOperator) (v : Valuation) : BitVec target.pointerWidth :=
  BitVec.ofInt target.pointerWidth
    ((gep.pointer.cell locals).value v + (gep.steps.map (Step.displacement target locals v)).sum)

/-- A pointer with the number `z v`, modulo the width. -/
abbrev PointsTo (target : TargetData) (opt : Bool) (V : Valuation → Prop) (e : Expr) (z : Valuation → Int) : Prop :=
  Denotes opt V target.pointerWidth e fun v => (BitVec.ofInt target.pointerWidth (z v)).toNat

namespace PointsTo

variable {e e' : Expr} {z z' : Valuation → Int}

theorem add (hV : ∃ v, V v) (h : PointsTo target opt V e z) (h' : PointsTo target opt V e' z') :
    ∃ sum, AddExpr.create opt e e' = .ok sum ∧ PointsTo target opt V sum fun v => z v + z' v := by
  obtain ⟨sum, hcreate, hsum⟩ := Denotes.add hV h h'
  refine ⟨sum, hcreate, hsum.congr fun v _ => ?_⟩
  rw [BitVec.ofInt_add, BitVec.toNat_add]

theorem mul (hV : ∃ v, V v) (h : PointsTo target opt V e z) (h' : PointsTo target opt V e' z') :
    ∃ product, MulExpr.create e e' = .ok product ∧ PointsTo target opt V product fun v => z v * z' v := by
  refine denotes_of_evaluates hV fun v hv => ?_
  have hmul := arith_evaluates .mul (h.operand hv) (h'.operand hv) nofun
  have hproduct : (ArithKind.mul.eval (e.bits v target.pointerWidth) (e'.bits v target.pointerWidth)).toNat =
      (BitVec.ofInt target.pointerWidth (z v * z' v)).toNat := by
    rw [ArithKind.eval, BitVec.toNat_mul, h.bits hv, h'.bits hv, BitVec.ofInt_mul, BitVec.toNat_mul]
  rwa [hproduct] at hmul

theorem ofPointer (h : Denotes opt V target.pointerWidth e fun v => e.value v) :
    PointsTo target opt V e fun v => e.value v := by
  refine h.congr fun v hv => ?_
  rw [BitVec.ofInt_natCast]
  exact (h.bits hv).symm

theorem sext (hV : ∃ v, V v) (hpw : 0 < target.pointerWidth) {w : Nat} (h : Denotes opt V w e fun v => e.value v) :
    ∃ e', SExtExpr.create e target.pointerWidth = .ok e' ∧
      PointsTo target opt V e' fun v => (e.bits v e.getWidth).toInt := by
  refine denotes_of_evaluates hV fun v hv => ?_
  have hsext := sext_evaluates (h.operand hv) hpw
  rwa [← h.typed.2] at hsext

end PointsTo

theorem createPointer_pointsTo (opt : Bool) (V : Valuation → Prop) (hpw : 0 < target.pointerWidth) {n : Nat}
    (hn : n < 2 ^ target.pointerWidth) : ∃ e, createPointer target n = .ok e ∧ PointsTo target opt V e fun _ => n := by
  obtain ⟨e, hcreate, he⟩ := ConstantExpr.create_denotes opt V hpw hn
  refine ⟨e, hcreate, he.congr fun _ _ => ?_⟩
  rw [BitVec.ofInt_natCast, BitVec.toNat_ofNat, Nat.mod_eq_of_lt hn]

theorem lt_of_createPointer {n : Nat} {e : Expr} (h : createPointer target n = .ok e) : n < 2 ^ target.pointerWidth := by
  by_contra hn
  exact nomatch (if_neg hn).symm.trans h

/-! ### The operands of the steps -/

/-- The steps index the operands from the one with the number `n` on. -/
def Indexed (operands : List LValue) (n : Nat) (steps : List Step) : Prop :=
  ∀ (k : Nat) (type : LType) (operand : LValue), steps[k]? = some (.element type operand) → operands[n + k]? = some operand

theorem Indexed.tail {step : Step} {n : Nat} (h : Indexed operands n (step :: steps)) : Indexed operands (n + 1) steps := by
  intro k type operand hk
  rw [Nat.add_right_comm, Nat.add_assoc]
  exact h (k + 1) type operand hk

theorem stepInto_element {composite : CompositeType} {operand operand' : LValue} {type element : LType}
    (h : stepInto composite operand = some (.element type operand', element)) : operand' = operand := by
  rcases composite with ⟨name, elements⟩ | inner
  · rcases operand with c | n
    · obtain ⟨_, _, heq⟩ := Option.bind_eq_some_iff.mp h
      cases heq
    · cases h
  · cases h
    rfl

theorem gepSteps_operand : ∀ {operands : List LValue} {composite : Option CompositeType} {steps : List Step},
    gepSteps composite operands = some steps → Indexed operands 0 steps
  | [], composite, steps, h => by
    rw [gepSteps] at h
    cases h
    exact fun k type operand hk => nomatch hk
  | operand :: operands, none, steps, h => nomatch h
  | operand :: operands, some composite, steps, h => by
    rw [gepSteps] at h
    obtain ⟨next, hnext, h⟩ := Option.bind_eq_some_iff.mp h
    obtain ⟨rest, hrest, h⟩ := Option.bind_eq_some_iff.mp h
    obtain rfl := Option.some.inj h
    intro k type operand' hk
    rw [Nat.zero_add]
    cases k with
    | zero =>
      obtain rfl : operand' = operand := stepInto_element (hnext.trans (congrArg some (Prod.ext (Option.some.inj hk) rfl)))
      rfl
    | succ k => exact Nat.zero_add k ▸ gepSteps_operand hrest k type operand' hk

theorem GEPOperator.indexed (gep : GEPOperator) : Indexed gep.operands 1 gep.steps := by
  intro k type operand hk
  have hoperand := gepSteps_operand gep.steps_eq k type operand hk
  rwa [Nat.zero_add, ← List.getElem?_cons_succ (a := gep.pointer), Nat.add_comm] at hoperand

/-! ### The two halves of an instruction -/

/-- What the offset holds of a step. -/
def Step.constantPart (target : TargetData) : Step → Int
  | .field name elements i => target.getElementOffset name elements i
  | .element type (.constant c) => c.value.toInt * target.getTypeStoreSize type
  | .element _ (.register _) => 0

/-- What is left for the time when the instruction is executed, by the number of the operand. -/
def registerIndices (target : TargetData) : List Step → Nat → List (Nat × Nat)
  | [], _ => []
  | .field _ _ _ :: steps, index => registerIndices target steps (index + 1)
  | .element _ (.constant _) :: steps, index => registerIndices target steps (index + 1)
  | .element type (.register _) :: steps, index =>
    (index, target.getTypeStoreSize type) :: registerIndices target steps (index + 1)

theorem computeOffsets_eq (target : TargetData) : ∀ (steps : List Step) (index : Nat) (z : Int) (indices : List (Nat × Nat)),
    computeOffsets target steps index ⟨target.pointerWidth, BitVec.ofInt _ z⟩ indices =
      ⟨indices ++ registerIndices target steps index,
        (BitVec.ofInt target.pointerWidth (z + (steps.map (Step.constantPart target)).sum)).toNat⟩
  | [], _, z, indices => by
    rw [computeOffsets, registerIndices, List.append_nil, List.map_nil, List.sum_nil, Int.add_zero]
  | .field name elements i :: steps, index, z, indices => by
    rw [computeOffsets, registerIndices, List.map_cons, List.sum_cons, ← Int.add_assoc, ← computeOffsets_eq target steps,
      BitVec.ofInt_add]
    simp only [ConstantExpr.add, ConstantExpr.alloc, Step.constantPart, BitVec.setWidth_eq, BitVec.ofInt_natCast]
  | .element type (.constant c) :: steps, index, z, indices => by
    rw [computeOffsets, registerIndices, List.map_cons, List.sum_cons, ← Int.add_assoc, ← computeOffsets_eq target steps,
      BitVec.ofInt_add]
    simp only [ConstantExpr.add, ConstantExpr.mul, ConstantExpr.sext, ConstantExpr.alloc, Step.constantPart,
      BitVec.setWidth_eq, BitVec.ofInt_mul, BitVec.ofInt_natCast, BitVec.signExtend]
  | .element type (.register n) :: steps, index, z, indices => by
    rw [computeOffsets, registerIndices, List.map_cons, List.sum_cons, Step.constantPart, Int.zero_add,
      computeOffsets_eq target steps, List.append_assoc, List.singleton_append]

/-- What the loop over the indices adds for a step. -/
def Step.registerPart (target : TargetData) (locals : Nat → Expr) (v : Valuation) : Step → Int
  | .element type (.register n) => (LValue.register n).index locals v * target.getTypeStoreSize type
  | _ => 0

theorem Step.parts (target : TargetData) (locals : Nat → Expr) (v : Valuation) (step : Step) :
    step.displacement target locals v = step.constantPart target + step.registerPart target locals v := by
  rcases step with ⟨name, elements, i⟩ | ⟨type, c | n⟩
  · exact (Int.add_zero _).symm
  · rw [displacement, LValue.index_constant]
    exact (Int.add_zero _).symm
  · exact (Int.zero_add _).symm

/-- The size of an element that a register indexes fits in a pointer. -/
def SizesFit (target : TargetData) (steps : List Step) : Prop :=
  ∀ type n, .element type (.register n) ∈ steps → target.getTypeStoreSize type < 2 ^ target.pointerWidth

theorem addIndex_ok (hV : ∃ v, V v) (hpw : 0 < target.pointerWidth) {base : Expr} {z : Valuation → Int} {index n w size : Nat}
    (hoperand : operands[index]? = some (.register n)) (hn : Denotes opt V w (locals n) fun v => (locals n).value v)
    (hsize : size < 2 ^ target.pointerWidth) (hbase : PointsTo target opt V base z) :
    ∃ e, addIndex target opt locals operands base (index, size) = .ok e ∧
      PointsTo target opt V e fun v => z v + (LValue.register n).index locals v * size := by
  obtain ⟨i, hi, hipoints⟩ := PointsTo.sext hV hpw hn
  obtain ⟨s, hs, hspoints⟩ := createPointer_pointsTo opt V hpw hsize
  obtain ⟨product, hproduct, hppoints⟩ := hipoints.mul hV hspoints
  obtain ⟨sum, hsum, hsumpoints⟩ := hbase.add hV hppoints
  refine ⟨sum, ?_, hsumpoints⟩
  rw [addIndex, eval, hoperand]
  show SExtExpr.create (locals n) target.pointerWidth >>= _ = _
  rw [hi]
  show createPointer target size >>= _ = _
  rw [hs]
  show MulExpr.create i s >>= _ = _
  rw [hproduct]
  exact hsum

theorem lt_of_addIndex {base e : Expr} {it : Nat × Nat} (h : addIndex target opt locals operands base it = .ok e) :
    it.2 < 2 ^ target.pointerWidth := by
  obtain ⟨_, -, h⟩ := Result.bind_eq_ok.mp h
  obtain ⟨_, -, h⟩ := Result.bind_eq_ok.mp h
  obtain ⟨_, hsize, -⟩ := Result.bind_eq_ok.mp h
  exact lt_of_createPointer hsize

/-- The loop over the indices adds what the registers add. -/
theorem foldlM_addIndex (hV : ∃ v, V v) (hpw : 0 < target.pointerWidth)
    (hlocals : ∀ n, .register n ∈ operands → ∃ w, Denotes opt V w (locals n) fun v => (locals n).value v) :
    ∀ (steps : List Step) (index : Nat) (base : Expr) (z : Valuation → Int), Indexed operands index steps →
      SizesFit target steps → PointsTo target opt V base z →
      ∃ e, (registerIndices target steps index).foldlM (addIndex target opt locals operands) base = .ok e ∧
        PointsTo target opt V e fun v => z v + (steps.map (Step.registerPart target locals v)).sum
  | [], index, base, z, _, _, hbase => ⟨base, rfl, by
    simpa only [List.map_nil, List.sum_nil, Int.add_zero] using hbase⟩
  | step :: steps, index, base, z, hindexed, hfits, hbase => by
    have hrest := fun base' z' => foldlM_addIndex hV hpw hlocals steps (index + 1) base' z' hindexed.tail
      fun type n hmem => hfits type n (List.mem_cons_of_mem step hmem)
    simp only [List.map_cons, List.sum_cons, ← Int.add_assoc]
    rcases step with ⟨name, elements, i⟩ | ⟨type, c | n⟩
    · simpa only [registerIndices, Step.registerPart, Int.add_zero] using hrest base _ hbase
    · simpa only [registerIndices, Step.registerPart, Int.add_zero] using hrest base _ hbase
    · have hoperand := hindexed 0 type (.register n) rfl
      obtain ⟨w, hn⟩ := hlocals n (List.mem_of_getElem? hoperand)
      obtain ⟨e, he, hpoints⟩ := addIndex_ok hV hpw hoperand hn (hfits type n List.mem_cons_self) hbase
      obtain ⟨e', he', hpoints'⟩ := hrest e _ hpoints
      refine ⟨e', ?_, hpoints'⟩
      rw [registerIndices, List.foldlM_cons, ← Nat.add_zero index, he]
      exact he'

theorem sizesFit_of_foldlM : ∀ (steps : List Step) (index : Nat) (base e : Expr),
    (registerIndices target steps index).foldlM (addIndex target opt locals operands) base = .ok e → SizesFit target steps
  | [], index, base, e, _ => fun type n hmem => nomatch hmem
  | step :: steps, index, base, e, h => by
    intro type n hmem
    rcases step with ⟨name, elements, i⟩ | ⟨type', c | n'⟩
    · refine sizesFit_of_foldlM steps (index + 1) base e h type n ((List.mem_cons.mp hmem).resolve_left nofun)
    · refine sizesFit_of_foldlM steps (index + 1) base e h type n ((List.mem_cons.mp hmem).resolve_left nofun)
    · rw [registerIndices, List.foldlM_cons] at h
      obtain ⟨base', hadd, h⟩ := Result.bind_eq_ok.mp h
      rcases List.mem_cons.mp hmem with heq | hmem
      · cases heq
        exact lt_of_addIndex hadd
      · exact sizesFit_of_foldlM steps (index + 1) base' e h type n hmem

theorem addOffset_ok (hV : ∃ v, V v) (hpw : 0 < target.pointerWidth) {base : Expr} {z : Valuation → Int} (offset : Int)
    (hbase : PointsTo target opt V base z) :
    ∃ e, addOffset target opt (BitVec.ofInt target.pointerWidth offset).toNat base = .ok e ∧
      PointsTo target opt V e fun v => z v + offset := by
  by_cases hzero : (BitVec.ofInt target.pointerWidth offset).toNat = 0
  · refine ⟨base, if_pos hzero, hbase.congr fun v _ => ?_⟩
    rw [BitVec.ofInt_add, BitVec.eq_of_toNat_eq (hzero.trans BitVec.toNat_zero.symm), BitVec.add_zero]
  · obtain ⟨p, hp, hpoints⟩ := createPointer_pointsTo opt V hpw (BitVec.ofInt target.pointerWidth offset).isLt
    obtain ⟨e, he, hsum⟩ := hbase.add hV hpoints
    refine ⟨e, ?_, hsum.congr fun v _ => ?_⟩
    · rw [addOffset, if_neg hzero, hp]
      exact he
    · rw [BitVec.ofInt_add, BitVec.ofInt_natCast, BitVec.ofNat_toNat, BitVec.setWidth_eq, ← BitVec.ofInt_add]

theorem bindInstructionConstants_eq (target : TargetData) (gep : GEPOperator) :
    bindInstructionConstants target gep = ⟨registerIndices target gep.steps 1,
      (BitVec.ofInt target.pointerWidth (gep.steps.map (Step.constantPart target)).sum).toNat⟩ := by
  have hoffsets := computeOffsets_eq target gep.steps 1 0 []
  rwa [Int.zero_add, List.nil_append] at hoffsets

theorem sum_displacement (target : TargetData) (locals : Nat → Expr) (v : Valuation) (steps : List Step) :
    (steps.map (Step.displacement target locals v)).sum =
      (steps.map (Step.registerPart target locals v)).sum + (steps.map (Step.constantPart target)).sum := by
  rw [Int.add_comm, ← List.sum_map_add]
  exact congrArg List.sum (List.map_congr_left fun step _ => Step.parts target locals v step)

theorem execute_ok (target : TargetData) (gep : GEPOperator) (hV : ∃ v, V v) (hpw : 0 < target.pointerWidth)
    (hpointer : Denotes opt V target.pointerWidth (gep.pointer.cell locals) fun v => (gep.pointer.cell locals).value v)
    (hlocals : ∀ n, .register n ∈ gep.operands → ∃ w, Denotes opt V w (locals n) fun v => (locals n).value v)
    (hfits : SizesFit target gep.steps) :
    ∃ e, executeGetElementPtr target opt locals gep.operands (bindInstructionConstants target gep) = .ok e ∧
      Denotes opt V target.pointerWidth e fun v => (address target locals gep v).toNat := by
  obtain ⟨e, hloop, hpoints⟩ := foldlM_addIndex hV hpw hlocals gep.steps 1 (gep.pointer.cell locals) _ gep.indexed hfits
    (PointsTo.ofPointer hpointer)
  obtain ⟨e', hoffset, hpoints'⟩ := addOffset_ok hV hpw (gep.steps.map (Step.constantPart target)).sum hpoints
  refine ⟨e', ?_, hpoints'.congr fun v _ => ?_⟩
  · rw [executeGetElementPtr, bindInstructionConstants_eq]
    show (List.foldlM (addIndex target opt locals gep.operands) (gep.pointer.cell locals) _ >>= fun base => _) = _
    rw [hloop]
    exact hoffset
  · rw [address, sum_displacement, ← Int.add_assoc]

theorem sizesFit_of_execute {e : Expr} {gep : GEPOperator}
    (h : executeGetElementPtr target opt locals gep.operands (bindInstructionConstants target gep) = .ok e) :
    SizesFit target gep.steps := by
  rw [bindInstructionConstants_eq] at h
  obtain ⟨base, -, h⟩ := Result.bind_eq_ok.mp h
  obtain ⟨sum, hloop, -⟩ := Result.bind_eq_ok.mp h
  exact sizesFit_of_foldlM gep.steps 1 base sum hloop

/-! ### Constants -/

def LValue.isConstant : LValue → Bool
  | .constant _ => true
  | .register _ => false

/-- How much too far a constant moves the pointer: a negative index stands for a number that is greater by `2 ^ width`, and
    the size lacks what does not fit in an `unsigned`. -/
def Step.excess (target : TargetData) : Step → Int
  | .element type (.constant c) =>
    (if c.value.toInt < 0 then (2 : Int) ^ c.width else 0) * (target.getTypeStoreSize type % 2 ^ 32 : Nat) -
      c.value.toInt * (target.getTypeStoreSize type - target.getTypeStoreSize type % 2 ^ 32 : Nat)
  | _ => 0

theorem toNat_eq_toInt {w : Nat} (x : BitVec w) : (x.toNat : Int) = x.toInt + if x.toInt < 0 then (2 : Int) ^ w else 0 := by
  have hlt := x.isLt
  rw [BitVec.toInt_eq_toNat_cond]
  split_ifs <;> push_cast <;> omega

theorem constantAddend_constant (target : TargetData) (locals : Nat → Expr) (v : Valuation) (step : Step)
    (hstep : ∀ type n, step ≠ .element type (.register n)) :
    constantAddend target step =
      .ok ⟨target.pointerWidth, BitVec.ofInt _ (step.displacement target locals v + step.excess target)⟩ := by
  rcases step with ⟨name, elements, i⟩ | ⟨type, c | n⟩
  · rw [constantAddend, Step.displacement, Step.excess, Int.add_zero, BitVec.ofInt_natCast]
    · rfl
    · exact nofun
  · have hsize : (target.getTypeStoreSize type : Int) = (target.getTypeStoreSize type % 2 ^ 32 : Nat) +
        (target.getTypeStoreSize type - target.getTypeStoreSize type % 2 ^ 32 : Nat) := by
      rw [← Nat.cast_add, Nat.add_sub_cancel' (Nat.mod_le _ _)]
    have hsum : (LValue.constant c).index locals v * target.getTypeStoreSize type + (Step.element type (.constant c)).excess target =
        c.value.toNat * (target.getTypeStoreSize type % 2 ^ 32 : Nat) := by
      rw [LValue.index_constant, Step.excess, toNat_eq_toInt]
      nth_rewrite 1 [hsize]
      ring
    rw [Step.displacement, hsum, BitVec.ofInt_mul, BitVec.ofInt_natCast, BitVec.ofInt_natCast, BitVec.ofNat_toNat]
    simp only [constantAddend, ConstantExpr.mul, ConstantExpr.zext, ConstantExpr.alloc, BitVec.setWidth_eq]
    rfl
  · exact absurd rfl (hstep type n)

theorem foldlM_constantAddend (target : TargetData) (locals : Nat → Expr) (v : Valuation) : ∀ (steps : List Step) (z : Int),
    (∀ type n, .element type (.register n) ∉ steps) →
    steps.foldlM (fun (base : ConstantExpr) step => do return base.add (← constantAddend target step))
        ⟨target.pointerWidth, BitVec.ofInt _ z⟩ =
      .ok ⟨target.pointerWidth, BitVec.ofInt _ (z + (steps.map fun step =>
        step.displacement target locals v + step.excess target).sum)⟩
  | [], z, _ => by
    rw [List.foldlM_nil, List.map_nil, List.sum_nil, Int.add_zero]
    rfl
  | step :: steps, z, hconstant => by
    rw [List.foldlM_cons, constantAddend_constant target locals v step fun type n heq =>
      hconstant type n (heq ▸ List.mem_cons_self), List.map_cons, List.sum_cons, ← Int.add_assoc]
    rw [← foldlM_constantAddend target locals v steps _ fun type n hmem => hconstant type n (List.mem_cons_of_mem step hmem),
      BitVec.ofInt_add z]
    show List.foldlM _ (ConstantExpr.add ⟨_, _⟩ ⟨_, _⟩) steps = _
    rw [ConstantExpr.add, BitVec.setWidth_eq]

theorem ofInt_add_eq_iff (w : Nat) (a b : Int) : BitVec.ofInt w (a + b) = BitVec.ofInt w a ↔ (2 : Int) ^ w ∣ b := by
  have hpos : ((2 ^ w : Nat) : Int) ≠ 0 := Nat.cast_ne_zero.mpr (Nat.two_pow_pos w).ne'
  rw [← BitVec.toNat_inj, ← Int.natCast_inj, BitVec.toNat_ofInt, BitVec.toNat_ofInt,
    Int.toNat_of_nonneg (Int.emod_nonneg _ hpos), Int.toNat_of_nonneg (Int.emod_nonneg _ hpos),
    Int.emod_eq_emod_iff_emod_sub_eq_zero, add_sub_cancel_left, ← Int.dvd_iff_emod_eq_zero, Nat.cast_pow, Nat.cast_ofNat]

/-- A `getelementptr` whose operands are all constants has a constant form. -/
def GEPOperator.AllConstant (gep : GEPOperator) : Prop := ∀ operand ∈ gep.operands, operand.isConstant = true

theorem gepSteps_mem {composite : Option CompositeType} {steps : List Step} {type : LType} {operand : LValue}
    (h : gepSteps composite operands = some steps) (hmem : .element type operand ∈ steps) : operand ∈ operands := by
  obtain ⟨k, hk⟩ := List.mem_iff_getElem?.mp hmem
  have hoperand := gepSteps_operand h k type operand hk
  exact List.mem_of_getElem? hoperand

/-- Both forms give the address of the element. -/
structure GivesAddress (target : TargetData) (opt : Bool) (V : Valuation → Prop) (locals : Nat → Expr) (gep : GEPOperator) :
    Prop where
  executed : ∃ e, executeGetElementPtr target opt locals gep.operands (bindInstructionConstants target gep) = .ok e ∧
    Denotes opt V target.pointerWidth e fun v => (address target locals gep v).toNat
  constant : gep.AllConstant → ∀ v, V v → evalConstantExpr target gep = .ok ⟨target.pointerWidth, address target locals gep v⟩

/-- The exact condition: sizes fit, and what the constant form adds too much vanishes modulo the width of a pointer. -/
structure Fits (target : TargetData) (gep : GEPOperator) : Prop where
  sizes : SizesFit target gep.steps
  excess : gep.AllConstant → (2 : Int) ^ target.pointerWidth ∣ (gep.steps.map (Step.excess target)).sum

theorem evalConstantExpr_eq (locals : Nat → Expr) (v : Valuation) {gep : GEPOperator} (hall : gep.AllConstant) :
    evalConstantExpr target gep = .ok ⟨target.pointerWidth, BitVec.ofInt _ ((gep.pointer.cell locals).value v +
      (gep.steps.map (Step.displacement target locals v)).sum + (gep.steps.map (Step.excess target)).sum)⟩ := by
  obtain ⟨c, hc⟩ : ∃ c, gep.pointer = .constant c := by
    have hconstant := hall gep.pointer List.mem_cons_self
    rcases hp : gep.pointer with c | n
    · exact ⟨c, rfl⟩
    · rw [hp] at hconstant
      cases hconstant
  have hsteps : ∀ type n, .element type (.register n) ∉ gep.steps := by
    intro type n hmem
    exact nomatch hall (.register n) (List.mem_cons_of_mem _ (gepSteps_mem gep.steps_eq hmem))
  rw [evalConstantExpr, hc]
  show List.foldlM _ (c.zext target.pointerWidth) gep.steps = _
  rw [ConstantExpr.zext, ← BitVec.ofNat_toNat, ← BitVec.ofInt_natCast, foldlM_constantAddend target locals v _ _ hsteps,
    List.sum_map_add, ← Int.add_assoc]
  rfl

/-- The claim about both forms holds exactly under the condition. -/
theorem givesAddress_iff (target : TargetData) (gep : GEPOperator) (opt : Bool) (V : Valuation → Prop) (locals : Nat → Expr)
    (hV : ∃ v, V v) (hpw : 0 < target.pointerWidth)
    (hpointer : Denotes opt V target.pointerWidth (gep.pointer.cell locals) fun v => (gep.pointer.cell locals).value v)
    (hlocals : ∀ n, .register n ∈ gep.operands → ∃ w, Denotes opt V w (locals n) fun v => (locals n).value v) :
    GivesAddress target opt V locals gep ↔ Fits target gep := by
  have hconstant : ∀ v, gep.AllConstant →
      (evalConstantExpr target gep = .ok ⟨target.pointerWidth, address target locals gep v⟩ ↔
        (2 : Int) ^ target.pointerWidth ∣ (gep.steps.map (Step.excess target)).sum) := by
    intro v hall
    rw [evalConstantExpr_eq locals v hall, Except.ok.injEq, ConstantExpr.mk.injEq, heq_eq_eq, address, ofInt_add_eq_iff]
    exact and_iff_right rfl
  constructor
  · rintro ⟨⟨e, he, -⟩, hform⟩
    obtain ⟨v, hv⟩ := hV
    exact ⟨sizesFit_of_execute he, fun hall => (hconstant v hall).mp (hform hall v hv)⟩
  · rintro ⟨hsizes, hexcess⟩
    exact ⟨execute_ok target gep hV hpw hpointer hlocals hsizes, fun hall v _ => (hconstant v hall).mpr (hexcess hall)⟩

/-- The element with a symbolic number in the second field of the struct before the one that a pointer points to. -/
def second : GEPOperator where
  source := .struct "" [.scalar (.integer 8), .array (.scalar (.integer 32)) 4]
  pointer := .register 0
  indices := [.constant ⟨32, -1⟩, .constant ⟨32, 1⟩, .register 1]
  steps := [.element (.struct "" [.scalar (.integer 8), .array (.scalar (.integer 32)) 4]) (.constant ⟨32, -1⟩),
    .field "" [.scalar (.integer 8), .array (.scalar (.integer 32)) 4] 1, .element (.scalar (.integer 32)) (.register 1)]
  steps_eq := rfl

/-- The pointer 4096 and a symbolic byte. -/
def twoLocals : Nat → Expr
  | 0 => .constant 64 4096
  | _ => .read (.root { id := 1, size := 1 }) (.constant 32 0)

theorem twoLocals_denotes (n : Nat) :
    ∃ w, Denotes false (fun _ => True) w (twoLocals n) fun v => (twoLocals n).value v := by
  rcases n with _ | n
  · exact ⟨64, Denotes.constant (by decide) 4096⟩
  · refine ⟨8, ⟨⟨⟨by decide, by decide, by decide⟩, (by decide : 0 < 32), rfl⟩, rfl⟩, fun v _ => ?_, fun _ _ => rfl⟩
    simp [twoLocals, Expr.Sound, UpdateList.Sound, UpdateList.array, Array.isConstantArray, Array.isSymbolicArray]

theorem givesAddress_iff_second :
    GivesAddress DataLayout.x86_64.targetData false (fun _ => True) twoLocals second ↔ Fits DataLayout.x86_64.targetData second :=
  givesAddress_iff DataLayout.x86_64.targetData second false _ twoLocals ⟨fun _ _ => 0, trivial⟩ (by decide)
    (Denotes.constant (by decide : 0 < 64) 4096) fun n _ => twoLocals_denotes n

/-- The element before the one that the pointer 4096 points to. -/
def previous : GEPOperator where
  source := .scalar (.integer 8)
  pointer := .constant ⟨64, 4096⟩
  indices := [.constant ⟨32, -1⟩]
  steps := [.element (.scalar (.integer 8)) (.constant ⟨32, -1⟩)]
  steps_eq := rfl

/-- The constant form is not 4095. -/
theorem not_givesAddress_previous :
    ¬GivesAddress DataLayout.x86_64.targetData false (fun _ => True) (fun _ => .constant 64 0) previous := by
  intro h
  have hall : previous.AllConstant := by
    unfold GEPOperator.AllConstant
    decide
  have hform := h.constant hall (fun _ _ => 0) trivial
  exact absurd hform (by decide +kernel)

end CapTaint.GetElementPtr
