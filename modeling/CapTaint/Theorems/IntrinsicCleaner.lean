import CapTaint.Theorems.IntrinsicLowering

/-! # Blocks with lowered intrinsics

A rewritten block runs as the block does, as long as the bits of the products are right. -/

namespace CapTaint.IntrinsicCleaner

variable {size : WordSize} {ω : Type} {meaning : Meaning size ω} {pass : IntrinsicCleanerPass size ω}
  {uses f F : Operand size → Operand size} {b rest : List (Instruction size ω)} {ii : Instruction size ω} {s s' : State size}
  {o : Outcome size} {n : Nat} {r : Register}

/-- An operand of a block as it was. -/
def Operand.Source (a : Operand size) : Prop := ∀ r, a = .register r → ∃ n, r = .original n

/-- Every instruction computes a value of its own, and intrinsics do not use theirs. -/
structure WellFormed (b : List (Instruction size ω)) : Prop where
  original : ∀ ii ∈ b, ∃ n, ii.register = .original n
  source : ∀ ii ∈ b, ∀ a ∈ ii.operands, a.Source
  nodup : (b.map Instruction.register).Nodup
  earlier : ∀ ii ∈ b, ∀ id, ii.opcode = .intrinsic id → .register ii.register ∉ ii.operands

/-- The second state holds the values of the first, where its uses are replaced. -/
def Same (F : Operand size → Operand size) (s s' : State size) : Prop :=
  s'.memory = s.memory ∧ ∀ n v, s.env (.original n) = some v → (F (.register (.original n))).eval s'.env = some v

/-- The bits of the products along the run are right. -/
def AllDetected (meaning : Meaning size ω) : List (Instruction size ω) → State size → Prop
  | [], _ => True
  | ii :: rest, s => (∀ args, ii.operands.mapM (Operand.eval s.env) = some args → Detected ii.opcode args) ∧
    ∀ o, step meaning ii s = some o → o.stopped = false → AllDetected meaning rest o.state

namespace IntrinsicCleanerPass

/-- The intrinsics that the pass lowers. -/
def lowers (pass : IntrinsicCleanerPass size ω) : IntrinsicID ω → Bool
  | .vastart => false
  | .vaend => false
  | .vacopy => true
  | .uadd_with_overflow => true
  | .umul_with_overflow => true
  | .dbg_value => true
  | .dbg_declare => true
  | .trap => true
  | .other _ => pass.lowerIntrinsics

def keeps (pass : IntrinsicCleanerPass size ω) (ii : Instruction size ω) : Bool :=
  match ii.opcode with
  | .intrinsic id => !pass.lowers id
  | _ => true

/-- The rewritten block does what the block did in the run that ends in `o`, and the remaining instructions are in order. -/
structure Preserves (pass : IntrinsicCleanerPass size ω) (meaning : Meaning size ω) (b : List (Instruction size ω)) (s' : State size)
    (o : Outcome size) : Prop where
  computes : ∃ o', run meaning (pass.runOnBasicBlock b) s' = some o' ∧ o'.stopped = o.stopped ∧
    Same (pass.finalUses id b) o.state o'.state
  order : ((b.filter pass.keeps).map (Instruction.mapOperands (pass.finalUses id b))).Sublist (pass.runOnBasicBlock b)

/-! ### The rewritten block -/

/-- How the uses of an instruction are replaced. -/
def replace (pass : IntrinsicCleanerPass size ω) (uses : Operand size → Operand size) (ii : Instruction size ω) :
    Operand size → Operand size := (pass.lower (ii.mapOperands uses)).replaceUses ii.register

/-- What the uses are replaced by from here on. -/
def laterUses (pass : IntrinsicCleanerPass size ω) (uses : Operand size → Operand size) :
    List (Instruction size ω) → Operand size → Operand size
  | [] => id
  | ii :: rest => pass.laterUses (pass.replace uses ii ∘ uses) rest ∘ pass.replace uses ii

/-- The code of the instructions from here on in the end. -/
def finalCode (pass : IntrinsicCleanerPass size ω) (uses : Operand size → Operand size) :
    List (Instruction size ω) → List (Instruction size ω)
  | [] => []
  | ii :: rest => (pass.lower (ii.mapOperands uses)).code.map (Instruction.mapOperands (pass.laterUses uses (ii :: rest))) ++
      pass.finalCode (pass.replace uses ii ∘ uses) rest

theorem finalUses_eq (pass : IntrinsicCleanerPass size ω) : ∀ (b : List (Instruction size ω)) (uses : Operand size → Operand size),
    pass.finalUses uses b = pass.laterUses uses b ∘ uses
  | [], uses => rfl
  | ii :: rest, uses => by
    rw [finalUses, finalUses_eq pass rest]
    rfl

theorem map_mapOperands (f g : Operand size → Operand size) (code : List (Instruction size ω)) :
    (code.map (Instruction.mapOperands f)).map (Instruction.mapOperands g) = code.map (Instruction.mapOperands (g ∘ f)) := by
  rw [List.map_map]
  refine List.map_congr_left fun ii _ => ?_
  rw [Function.comp_apply, Instruction.mapOperands, Instruction.mapOperands, Instruction.mapOperands, List.map_map]

theorem map_mapOperands_id (code : List (Instruction size ω)) : code.map (Instruction.mapOperands id) = code := by
  refine (List.map_congr_left fun ii _ => ?_).trans (List.map_id code)
  rw [Instruction.mapOperands, List.map_id]
  rfl

theorem loop_eq (pass : IntrinsicCleanerPass size ω) : ∀ (b : List (Instruction size ω)) (uses : Operand size → Operand size)
    (done : List (Instruction size ω)),
    pass.loop uses done b = done.map (Instruction.mapOperands (pass.laterUses uses b)) ++ pass.finalCode uses b
  | [], uses, done => by
    rw [loop, laterUses, finalCode, map_mapOperands_id, List.append_nil]
  | ii :: rest, uses, done => by
    rw [loop, loop_eq pass rest, map_mapOperands, List.map_append, List.append_assoc]
    rfl

theorem runOnBasicBlock_eq (pass : IntrinsicCleanerPass size ω) (b : List (Instruction size ω)) :
    pass.runOnBasicBlock b = pass.finalCode id b := by
  rw [runOnBasicBlock, loop_eq]
  rfl

theorem lower_of_keeps (h : pass.keeps ii = true) : pass.lower ii = ⟨[ii], none⟩ := by
  rw [keeps.eq_def] at h
  rw [lower.eq_def]
  split
  · rename_i id hopcode
    rw [hopcode] at h
    cases id with
    | vastart | vaend => rfl
    | other o =>
      have hoff : pass.lowerIntrinsics = false := by simpa [lowers] using h
      rw [lowerIntrinsic, hoff, if_neg Bool.false_ne_true]
    | _ => cases h
  · rfl

/-- The instructions that are not lowered are there, with their uses replaced. -/
theorem keeps_sublist (pass : IntrinsicCleanerPass size ω) : ∀ (b : List (Instruction size ω)) (uses : Operand size → Operand size),
    ((b.filter pass.keeps).map (Instruction.mapOperands (pass.finalUses uses b))).Sublist (pass.finalCode uses b)
  | [], uses => List.Sublist.refl _
  | ii :: rest, uses => by
    have hrest := keeps_sublist pass rest (pass.replace uses ii ∘ uses)
    rw [finalCode, finalUses]
    cases hkeeps : pass.keeps ii with
    | false =>
      rw [List.filter_cons_of_neg (by rw [hkeeps]; exact Bool.false_ne_true)]
      exact hrest.trans (List.sublist_append_right _ _)
    | true =>
      have hcode : (pass.lower (ii.mapOperands uses)).code = [ii].map (Instruction.mapOperands uses) :=
        congrArg Lowering.code (lower_of_keeps (show pass.keeps (ii.mapOperands uses) = true from hkeeps))
      rw [List.filter_cons_of_pos hkeeps, List.map_cons, hcode, map_mapOperands, finalUses_eq]
      rw [finalUses_eq] at hrest
      exact hrest.cons_cons _

/-! ### Replaced uses -/

theorem lower_place (hcall : ∀ (ii : Instruction size ω) (o : ω), ii.opcode = .intrinsic (.other o) →
    Implements meaning ii (pass.lowerIntrinsicCall ii)) (ii : Instruction size ω) :
    (∀ jj ∈ (pass.lower ii).code, jj.register.place = ii.register.place) ∧
      ∀ result, (pass.lower ii).result = some result → result.Inserted ii.register.place := by
  by_cases hproduct : ii.opcode = .intrinsic .umul_with_overflow
  · rw [lower_product pass hproduct]
    exact ⟨lowerOverflow_place _ _ _ _, lowerOverflow_inserted _ _ _ _⟩
  · have himplements := lower_implements hcall hproduct
    exact ⟨himplements.place, himplements.inserted⟩

theorem replaceUses_uses {l : Lowering size ω} (hl : ∀ result, l.result = some result → result.Inserted n) :
    Uses (l.replaceUses (.original n)) where
  constant _ := rfl
  inserted m k := by
    rw [Lowering.replaceUses, if_neg fun h => by cases h]
  original m := by
    rw [Lowering.replaceUses]
    split_ifs with heq
    · cases heq
      rcases hresult : l.result with _ | result
      · exact .inl rfl
      · exact .inr (hl result hresult)
    · exact .inl rfl

section
variable (hcall : ∀ (ii : Instruction size ω) (o : ω), ii.opcode = .intrinsic (.other o) →
  Implements meaning ii (pass.lowerIntrinsicCall ii))
include hcall

theorem replace_uses (uses : Operand size → Operand size) (hn : ii.register = .original n) : Uses (pass.replace uses ii) := by
  have hinserted := (lower_place hcall (ii.mapOperands uses)).2
  have hplace : (ii.mapOperands uses).register.place = n := congrArg Register.place hn
  rw [hplace] at hinserted
  rw [replace, hn]
  exact replaceUses_uses hinserted

theorem laterUses_uses : ∀ (b : List (Instruction size ω)) (uses : Operand size → Operand size),
    (∀ ii ∈ b, ∃ n, ii.register = .original n) → Uses (pass.laterUses uses b)
  | [], _, _ => .id
  | ii :: rest, uses, hb => by
    obtain ⟨n, hn⟩ := hb ii List.mem_cons_self
    exact (laterUses_uses rest _ fun ii' h => hb ii' (List.mem_cons_of_mem ii h)).comp (replace_uses hcall uses hn)

theorem finalCode_place : ∀ (b : List (Instruction size ω)) (uses : Operand size → Operand size),
    ∀ jj ∈ pass.finalCode uses b, ∃ ii ∈ b, jj.register.place = ii.register.place
  | [], _, jj, hjj => absurd hjj List.not_mem_nil
  | ii :: rest, uses, jj, hjj => by
    rcases List.mem_append.mp hjj with hjj | hjj
    · obtain ⟨jj, hmem, rfl⟩ := List.mem_map.mp hjj
      exact ⟨ii, List.mem_cons_self, (lower_place hcall (ii.mapOperands uses)).1 jj hmem⟩
    · obtain ⟨ii', hmem, hplace⟩ := finalCode_place rest _ jj hjj
      exact ⟨ii', List.mem_cons_of_mem ii hmem, hplace⟩

end

theorem replace_register (uses : Operand size → Operand size) (h : r ≠ ii.register) :
    pass.replace uses ii (.register r) = .register r := if_neg h

/-- Later instructions leave the uses of another value. -/
theorem laterUses_register : ∀ (b : List (Instruction size ω)) (uses : Operand size → Operand size) {r : Register},
    (∀ ii ∈ b, ii.register ≠ r) → pass.laterUses uses b (.register r) = .register r
  | [], _, _, _ => rfl
  | ii :: rest, uses, r, hb => by
    rw [laterUses, Function.comp_apply, replace_register uses (Ne.symm (hb ii List.mem_cons_self))]
    exact laterUses_register rest _ fun ii' h => hb ii' (List.mem_cons_of_mem ii h)

end IntrinsicCleanerPass

theorem bool_injective : Function.Injective (bool : Bool → Value size) := by
  intro x y h
  have hbits : BitVec.ofBool x = BitVec.ofBool y := eq_of_heq (Value.int.inj h).2
  cases x <;> cases y
  · rfl
  · exact absurd hbits (by decide)
  · exact absurd hbits (by decide)
  · rfl

/-! ### One instruction -/

theorem Same.mapM (h : Same F s s') (hF : Uses F) : ∀ {operands : List (Operand size)} {args : List (Value size)},
    (∀ a ∈ operands, a.Source) → operands.mapM (Operand.eval s.env) = some args →
    (operands.map F).mapM (Operand.eval s'.env) = some args
  | [], _, _, hargs => hargs
  | a :: operands, _, hsource, hargs => by
    obtain ⟨v, vs, ha, hrest, rfl⟩ := OptionLoop.mapM_cons_eq_some.mp hargs
    refine OptionLoop.mapM_cons_eq_some.mpr ⟨v, vs, ?_, h.mapM hF (fun x hx => hsource x (List.mem_cons_of_mem a hx)) hrest, rfl⟩
    rcases a with c | r
    · rw [hF.constant]
      exact ha
    · obtain ⟨n, rfl⟩ := hsource _ List.mem_cons_self r rfl
      exact h.2 n v ha

theorem Uses.away (hF : Uses F) {a : Operand size} (hsource : a.Source) (ha : a ≠ .register (.original n)) : (F a).Away n := by
  intro r hr
  rcases a with c | r'
  · rw [hF.constant] at hr
    cases hr
  · obtain ⟨m, rfl⟩ := hsource r' rfl
    rw [hF.place hr]
    exact fun h => ha (h ▸ rfl)

/-- An instruction whose code does the same effect. -/
theorem Same.does (h : Same F s s') (hF : Uses F) {l : Lowering size ω} {e : Effect size}
    (hl : F (.register (.original n)) = l.result.getD (.register (.original n)))
    (hdoes : Does meaning f (.original n) l s'.env s'.memory e) :
    ∃ s₁', run meaning (l.code.map (Instruction.mapOperands f)) s' = some ⟨e.stops, s₁'⟩ ∧
      Same F (e.outcome (.original n) s).state s₁' := by
  obtain ⟨env', hrun, hkeep, hresult, hnone⟩ := hdoes
  refine ⟨⟨env', e.memory⟩, hrun, rfl, fun m v hv => ?_⟩
  by_cases hm : m = n
  · subst hm
    rw [Effect.outcome_env_self] at hv
    rw [hl]
    rcases hlr : l.result with _ | result
    · have hold : ∀ v, s.env (.original m) = some v → s'.env (.original m) = some v := by
        intro v hv
        have hsame := h.2 m v hv
        rwa [hl, hlr] at hsame
      refine (hnone hlr).trans ?_
      rcases he : e.result with _ | v'
      · rw [he] at hv
        exact hold v hv
      · rw [he] at hv
        exact hv
    · obtain ⟨v', he, hv'⟩ := hresult result hlr
      rw [he] at hv
      exact hv'.trans hv
  · rw [Effect.outcome_env fun heq => hm (by cases heq; rfl)] at hv
    refine (Operand.eval_congr fun r hr => hkeep r ?_).trans (h.2 m v hv)
    rw [hF.place hr]
    exact hm

/-- A block whose values are not there yet starts in the same state. -/
theorem same_self (pass : IntrinsicCleanerPass size ω) (h : ∀ ii ∈ b, s.env ii.register = none) : Same (pass.finalUses id b) s s := by
  refine ⟨rfl, fun n v hv => ?_⟩
  have hfresh : ∀ ii ∈ b, ii.register ≠ .original n := by
    intro ii hii heq
    rw [← heq, h ii hii] at hv
    cases hv
  rw [IntrinsicCleanerPass.finalUses_eq, Function.comp_apply, id, IntrinsicCleanerPass.laterUses_register b id hfresh]
  exact hv

theorem WellFormed.tail (hb : WellFormed (ii :: rest)) : WellFormed rest where
  original ii' h := hb.original ii' (List.mem_cons_of_mem ii h)
  source ii' h := hb.source ii' (List.mem_cons_of_mem ii h)
  nodup := (List.nodup_cons.mp hb.nodup).2
  earlier ii' h := hb.earlier ii' (List.mem_cons_of_mem ii h)

theorem WellFormed.ne (hb : WellFormed (ii :: rest)) : ∀ ii' ∈ rest, ii'.register ≠ ii.register :=
  fun _ h heq => (List.nodup_cons.mp hb.nodup).1 (heq ▸ List.mem_map_of_mem h)

namespace IntrinsicCleanerPass

variable (hcall : ∀ (ii : Instruction size ω) (o : ω), ii.opcode = .intrinsic (.other o) →
  Implements meaning ii (pass.lowerIntrinsicCall ii))

include hcall in
theorem finalUses_register (hb : WellFormed (ii :: rest)) (hn : ii.register = .original n)
    (huses : uses (.register ii.register) = .register ii.register) :
    pass.finalUses uses (ii :: rest) (.register (.original n)) =
      (pass.lower (ii.mapOperands uses)).result.getD (.register (.original n)) := by
  have hlater := laterUses_uses hcall rest (pass.replace uses ii ∘ uses) hb.tail.original
  have hinserted := (lower_place hcall (ii.mapOperands uses)).2
  rw [finalUses_eq, Function.comp_apply, ← hn, huses, laterUses, Function.comp_apply, replace, Lowering.replaceUses, if_pos rfl]
  rcases hresult : (pass.lower (ii.mapOperands uses)).result with _ | result
  · exact laterUses_register rest _ hb.ne
  · exact hlater.fixes (hinserted result hresult)

/-- The operands of the code are there, with the values that they have in the block. -/
theorem operands_ready {F : Operand size → Operand size} (hF : Uses F) (hfinal : F = f ∘ uses) (hb : WellFormed (ii :: rest))
    (hs : Same F s s') {args : List (Value size)} (hargs : ii.operands.mapM (Operand.eval s.env) = some args) :
    Ready f (ii.mapOperands uses) ∧ ((ii.mapOperands uses).operands.map f).mapM (Operand.eval s'.env) = some args := by
  have hsource := hb.source ii List.mem_cons_self
  obtain ⟨n, hn⟩ := hb.original ii List.mem_cons_self
  constructor
  · refine ⟨⟨n, hn⟩, fun id hid a ha => ?_⟩
    obtain ⟨x, hx, rfl⟩ := List.mem_map.mp ha
    have haway : (F x).Away n := hF.away (hsource x hx) fun h => hb.earlier ii List.mem_cons_self id hid (by rw [hn, ← h]; exact hx)
    rw [hfinal] at haway
    rwa [show (ii.mapOperands uses).register.place = n from congrArg Register.place hn]
  · have hmap := hs.mapM hF hsource hargs
    rw [hfinal, ← List.map_map] at hmap
    exact hmap

include hcall

/-- The code of an instruction whose bit is right does its effect. -/
theorem lower_does {env : Register → Option (Value size)} {m : Memory size} {args : List (Value size)} {e : Effect size} (hf : Uses f)
    (hready : Ready f ii) (hargs : (ii.operands.map f).mapM (Operand.eval env) = some args)
    (he : effect meaning ii.opcode args m = some e) (hdetected : Detected ii.opcode args) :
    Does meaning f ii.register (pass.lower ii) env m e := by
  by_cases hproduct : ii.opcode = .intrinsic .umul_with_overflow
  · obtain ⟨w, a, b, rfl, rfl, hdoes⟩ := umul_does hproduct hf hready hargs he
    rw [lower_product pass hproduct, ← (ult_mul_iff a b).mpr (hdetected hproduct w a b rfl)]
    exact hdoes
  · exact (lower_implements hcall hproduct).does f env m args e hf hready hargs he

/-- Where a bit is wrong, a value is wrong in the end. -/
theorem missed_not_same {args : List (Value size)} {e : Effect size} {o' : Outcome size} (hb : WellFormed (ii :: rest))
    (hn : ii.register = .original n) (huses : uses (.register ii.register) = .register ii.register)
    (hlater : Uses (pass.laterUses uses (ii :: rest))) (hready : Ready (pass.laterUses uses (ii :: rest)) (ii.mapOperands uses))
    (hargs : ((ii.mapOperands uses).operands.map (pass.laterUses uses (ii :: rest))).mapM (Operand.eval s'.env) = some args)
    (he : effect meaning ii.opcode args s'.memory = some e) (hdetected : ¬Detected ii.opcode args)
    (hrun : (if (e.outcome ii.register s).stopped then some (e.outcome ii.register s) else
      run meaning rest (e.outcome ii.register s).state) = some o)
    (hrun' : run meaning (pass.finalCode uses (ii :: rest)) s' = some o') :
    ¬Same (pass.finalUses uses (ii :: rest)) o.state o'.state := by
  intro hsame
  obtain ⟨hproduct, hmissed⟩ := Classical.not_imp.mp hdetected
  have hopcode : (ii.mapOperands uses).opcode = .intrinsic .umul_with_overflow := hproduct
  obtain ⟨w, a, b, rfl, rfl, env', hcode, -, hresult, -⟩ := umul_does hopcode hlater hready hargs he
  rw [← lower_product pass hopcode] at hcode hresult
  obtain ⟨result, hlowered⟩ : ∃ result, (pass.lower (ii.mapOperands uses)).result = some result := by
    rw [lower_product pass hopcode]
    exact ⟨_, rfl⟩
  obtain ⟨v, hv, hwrong⟩ := hresult result hlowered
  cases hv
  have hplace : result.Inserted n := by
    have hinserted := (lower_place hcall (ii.mapOperands uses)).2 result hlowered
    rwa [show (ii.mapOperands uses).register.place = n from congrArg Register.place hn] at hinserted
  -- The run of the block ends with the pair of the intrinsic.
  have hright : o.state.env (.original n) = some (.pair (.int w (a * b)) (bool (2 ^ w ≤ a.toNat * b.toNat))) := by
    have hrest : run meaning rest _ = some o := hrun
    rw [run_env hrest fun ii' h => hn ▸ hb.ne ii' h, ← hn, Effect.outcome_env_self]
    rfl
  -- The run of the rewritten block ends with the one of the code.
  rw [finalCode, run_append, hcode, Option.bind_some, if_neg Bool.false_ne_true] at hrun'
  have hlast : result.eval o'.state.env = result.eval env' := by
    refine Operand.eval_congr fun r hr => run_env hrun' fun jj hjj heq => ?_
    obtain ⟨ii', hmem, hjj⟩ := finalCode_place hcall rest _ jj hjj
    obtain ⟨n', hn'⟩ := hb.tail.original ii' hmem
    have hr' : r.place = n := by
      rcases hplace with ⟨v, rfl⟩ | ⟨k, rfl⟩ <;> cases hr
      rfl
    refine hb.ne ii' hmem ?_
    rw [heq, hr', hn'] at hjj
    rw [hn, hn', show n = n' from hjj]
  have hfound := hsame.2 n _ hright
  rw [finalUses_register hcall hb hn huses, hlowered, Option.getD_some, hlast, hwrong] at hfound
  have hbit := bool_injective (Value.pair.inj (Option.some.inj hfound)).2
  refine hmissed fun w' a' b' heq => ?_
  cases heq
  exact (ult_mul_iff a b).mp hbit

/-- The rewritten block follows the block exactly as long as the bits are right. -/
theorem finalCode_iff : ∀ (b : List (Instruction size ω)) (uses : Operand size → Operand size) (s s' : State size) (o : Outcome size),
    Uses uses → WellFormed b → (∀ ii ∈ b, uses (.register ii.register) = .register ii.register) →
    Same (pass.finalUses uses b) s s' → run meaning b s = some o →
    ((∃ o', run meaning (pass.finalCode uses b) s' = some o' ∧ o'.stopped = o.stopped ∧ Same (pass.finalUses uses b) o.state o'.state) ↔
      AllDetected meaning b s)
  | [], uses, s, s', o, _, _, _, hs, hrun => by
    cases hrun
    exact iff_of_true ⟨_, rfl, rfl, hs⟩ trivial
  | ii :: rest, uses, s, s', o, huses, hb, hfresh, hs, hrun => by
    rw [run_cons] at hrun
    obtain ⟨o₁, hstep, hrun⟩ := Option.bind_eq_some_iff.mp hrun
    obtain ⟨args, e, hargs, he, rfl⟩ := step_cases hstep
    obtain ⟨n, hn⟩ := hb.original ii List.mem_cons_self
    have hself := hfresh ii List.mem_cons_self
    have hlater := laterUses_uses hcall (ii :: rest) uses hb.original
    have hfinal := finalUses_eq pass (ii :: rest) uses
    have hF : Uses (pass.finalUses uses (ii :: rest)) := hfinal ▸ hlater.comp huses
    obtain ⟨hready, hargs'⟩ := operands_ready hF hfinal hb hs hargs
    rw [← hs.1] at he
    by_cases hdetected : Detected ii.opcode args
    · have hdoes := lower_does hcall hlater hready hargs'
        (show effect meaning (ii.mapOperands uses).opcode args s'.memory = some e from he) hdetected
      rw [show (ii.mapOperands uses).register = .original n from hn] at hdoes
      obtain ⟨s₁', hcode, hsame⟩ := hs.does hF (finalUses_register hcall hb hn hself) hdoes
      rw [← hn] at hsame
      rw [finalCode, run_append, hcode, Option.bind_some]
      have hone : ∀ args', ii.operands.mapM (Operand.eval s.env) = some args' → Detected ii.opcode args' := fun args' h =>
        Option.some.inj (hargs.symm.trans h) ▸ hdetected
      cases hstops : e.stops with
      | true =>
        have hstopped : (e.outcome ii.register s).stopped = true := hstops
        rw [if_pos hstopped] at hrun
        cases hrun
        refine iff_of_true ⟨_, rfl, hstopped.symm, hsame⟩ ⟨hone, fun o₁ h hgoes => ?_⟩
        cases hstep.symm.trans h
        exact absurd (hgoes.symm.trans hstopped) Bool.false_ne_true
      | false =>
        have hgoes : (e.outcome ii.register s).stopped = false := hstops
        rw [hgoes, if_neg Bool.false_ne_true] at hrun
        have hfresh' : ∀ ii' ∈ rest, (pass.replace uses ii ∘ uses) (.register ii'.register) = .register ii'.register := by
          intro ii' h
          rw [Function.comp_apply, hfresh ii' (List.mem_cons_of_mem ii h)]
          exact replace_register uses (hb.ne ii' h)
        have hrest := finalCode_iff rest _ _ s₁' o ((replace_uses hcall uses hn).comp huses) hb.tail hfresh' hsame hrun
        rw [if_neg Bool.false_ne_true]
        refine hrest.trans ⟨fun h => ⟨hone, fun o₁ heq _ => ?_⟩, fun h => h.2 _ hstep hgoes⟩
        cases hstep.symm.trans heq
        exact h
    · refine iff_of_false ?_ fun hall => hdetected (hall.1 args hargs)
      rintro ⟨o', hrun', -, hsame⟩
      exact missed_not_same hcall hb hn hself hlater hready hargs' he hdetected hrun hrun' hsame

omit hcall

/-- The block is rewritten into one that does the same in a run exactly when the bits of its products are right. -/
theorem runOnBasicBlock_preserves_iff (hcall : ∀ (ii : Instruction size ω) (o : ω), ii.opcode = .intrinsic (.other o) →
    Implements meaning ii (pass.lowerIntrinsicCall ii)) (hb : WellFormed b) (hs : Same (pass.finalUses id b) s s')
    (hrun : run meaning b s = some o) : pass.Preserves meaning b s' o ↔ AllDetected meaning b s := by
  have hiff := finalCode_iff hcall b id s s' o .id hb (fun _ _ => rfl) hs hrun
  rw [← runOnBasicBlock_eq] at hiff
  refine ⟨fun h => hiff.mp h.computes, fun h => ⟨hiff.mpr h, ?_⟩⟩
  rw [runOnBasicBlock_eq]
  exact pass.keeps_sublist b id

end IntrinsicCleanerPass

/-! ### A product -/

/-- A product of the values 0 and 1. -/
def productBlock : List (Instruction .eight Unit) :=
  [⟨.original 2, .intrinsic .umul_with_overflow, [.register (.original 0), .register (.original 1)]⟩]

def factors (a b : BitVec 8) : State .eight :=
  ⟨fun r => if r = .original 0 then some (.int 8 a) else if r = .original 1 then some (.int 8 b) else none, fun _ => 0⟩

/-- LLVM leaves the other intrinsics. -/
def keepingPass : IntrinsicCleanerPass .eight Unit := ⟨true, fun ii => ⟨[ii], none⟩⟩

def noMeaning : Meaning .eight Unit := fun _ _ _ => none

theorem productBlock_wellFormed : WellFormed productBlock where
  original ii hii := ⟨2, by rw [List.mem_singleton.mp hii]⟩
  source ii hii a ha r hr := by
    rw [List.mem_singleton.mp hii] at ha
    rcases List.mem_pair.mp ha with rfl | rfl <;> cases hr
    · exact ⟨0, rfl⟩
    · exact ⟨1, rfl⟩
  nodup := List.nodup_singleton _
  earlier ii hii id _ h := by
    rw [List.mem_singleton.mp hii] at h
    rcases List.mem_pair.mp h with h | h <;> cases h

theorem same_factors (a b : BitVec 8) : Same (keepingPass.finalUses id productBlock) (factors a b) (factors a b) :=
  same_self keepingPass fun ii hii => by rw [List.mem_singleton.mp hii]; rfl

theorem productBlock_preserves_iff : ∃ o, run noMeaning productBlock (factors 15 17) = some o ∧
    (keepingPass.Preserves noMeaning productBlock (factors 15 17) o ↔ AllDetected noMeaning productBlock (factors 15 17)) :=
  ⟨_, rfl, IntrinsicCleanerPass.runOnBasicBlock_preserves_iff (fun ii _ _ => implements_self noMeaning ii) productBlock_wellFormed
    (same_factors 15 17) rfl⟩

/-- The bit of a pair. -/
def Value.overflow {size : WordSize} : Value size → Option Bool
  | .pair _ (.int _ bit) => some (bit.toNat ≠ 0)
  | _ => none

/-- `16 * 17` does not fit into 8 bits, and its low bits are not below 16. -/
theorem not_preserves_productBlock : ∃ o, WellFormed productBlock ∧ run noMeaning productBlock (factors 16 17) = some o ∧
    Same (keepingPass.finalUses id productBlock) (factors 16 17) (factors 16 17) ∧
    ¬keepingPass.Preserves noMeaning productBlock (factors 16 17) o := by
  refine ⟨_, productBlock_wellFormed, rfl, same_factors 16 17, ?_⟩
  rintro ⟨⟨o', hrun, -, hsame⟩, -⟩
  cases (rfl : run noMeaning (keepingPass.runOnBasicBlock productBlock) (factors 16 17) = some _).symm.trans hrun
  have hbits := congrArg (Option.bind · Value.overflow) (hsame.2 2 _ rfl)
  exact absurd hbits (by decide)

end CapTaint.IntrinsicCleaner
