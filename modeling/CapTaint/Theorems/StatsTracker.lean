import CapTaint.StatsTracker

/-! # Distances are shortest paths

The distances that the sweeps leave are the costs of the cheapest paths through the instructions and the functions that
they call. -/

namespace CapTaint.StatsTracker

open Distance

variable {m : Module} {id succ : InstId} {inst : Instruction} {f k n : Nat}

/-! ### Paths -/

/-- The function is not in the module and returns: it counts as one instruction. -/
def ExternalReturns (m : Module) (f : Nat) : Prop :=
  ∃ fn, m.functions[f]? = some fn ∧ fn.isDeclaration = true ∧ fn.doesNotReturn = false

/-- There is a path from the instruction to a return of its function, with this cost. A call is passed through a callee
that returns. -/
inductive ReturnPath (m : Module) : InstId → Nat → Prop
  | ret {id : InstId} {inst : Instruction} (hinst : m.inst id = some inst) (hret : inst.isRet = true) : ReturnPath m id 1
  | step {id succ : InstId} {inst : Instruction} {n : Nat} (hinst : m.inst id = some inst) (hcall : inst.isCall = false)
      (hsucc : succ ∈ m.getSuccs id) (rest : ReturnPath m succ n) : ReturnPath m id (1 + n)
  | external {id succ : InstId} {inst : Instruction} {f n : Nat} (hinst : m.inst id = some inst)
      (hf : f ∈ m.callTargets inst) (hreturns : ExternalReturns m f) (hsucc : succ ∈ m.getSuccs id)
      (rest : ReturnPath m succ n) : ReturnPath m id (1 + 1 + n)
  | through {id succ : InstId} {inst : Instruction} {f k n : Nat} (hinst : m.inst id = some inst)
      (hf : f ∈ m.callTargets inst) (callee : ReturnPath m (begin f) k) (hsucc : succ ∈ m.getSuccs id)
      (rest : ReturnPath m succ n) : ReturnPath m id (1 + k + n)

/-- The function returns at this cost. -/
def ReturnsAt (m : Module) (f k : Nat) : Prop := ExternalReturns m f ∧ k = 1 ∨ ReturnPath m (begin f) k

/-- There is a path from the instruction to one that is not covered, with this cost. It may end in a callee. -/
inductive UncoveredPath (m : Module) (uncovered : InstId → Bool) : InstId → Nat → Prop
  | here {id : InstId} {inst : Instruction} (hinst : m.inst id = some inst) (huncovered : uncovered id = true) :
      UncoveredPath m uncovered id 1
  | into {id : InstId} {inst : Instruction} {f n : Nat} (hinst : m.inst id = some inst) (hf : f ∈ m.callTargets inst)
      (rest : UncoveredPath m uncovered (begin f) n) : UncoveredPath m uncovered id (1 + n)
  | step {id succ : InstId} {inst : Instruction} {n : Nat} (hinst : m.inst id = some inst) (hcall : inst.isCall = false)
      (hsucc : succ ∈ m.getSuccs id) (rest : UncoveredPath m uncovered succ n) : UncoveredPath m uncovered id (1 + n)
  | through {id succ : InstId} {inst : Instruction} {f k n : Nat} (hinst : m.inst id = some inst)
      (hf : f ∈ m.callTargets inst) (callee : ReturnsAt m f k) (hsucc : succ ∈ m.getSuccs id)
      (rest : UncoveredPath m uncovered succ n) : UncoveredPath m uncovered id (1 + k + n)

/-! ### The instructions -/

theorem mem_instructions : (id, inst) ∈ m.instructions ↔ m.inst id = some inst := by
  simp only [Module.instructions, List.mem_reverse, List.mem_flatMap, List.mem_map, Module.inst, Module.block,
    Option.bind_eq_some_iff, Prod.mk.injEq, List.mem_zipIdx_iff_getElem?]
  constructor
  · rintro ⟨fn, hfn, bb, hbb, i, hi, rfl, rfl⟩
    exact ⟨bb.1, ⟨fn.1, hfn, hbb⟩, hi⟩
  · rintro ⟨bb, ⟨fn, hfn, hbb⟩, hi⟩
    exact ⟨(fn, id.function), hfn, (bb, id.block), hbb, (inst, id.place), hi, rfl, rfl⟩

theorem isCall_of_mem (hf : f ∈ m.callTargets inst) : inst.isCall = true := by
  cases inst with
  | call => rfl
  | _ => cases hf

theorem not_isDeclaration (h : m.inst (begin f) = some inst) : m.isDeclaration f = false := by
  obtain ⟨bb, hbb, -⟩ := Option.bind_eq_some_iff.mp h
  obtain ⟨fn, hfn, hblock⟩ := Option.bind_eq_some_iff.mp hbb
  change m.functions[f]? = some fn at hfn
  rw [Module.isDeclaration, hfn, Option.elim_some, Function.isDeclaration, List.isEmpty_eq_false_iff]
  rintro hnil
  rw [hnil] at hblock
  cases hblock

theorem ReturnPath.exists_inst (h : ReturnPath m id n) : ∃ inst, m.inst id = some inst := by
  cases h with
  | ret hinst | step hinst | external hinst | through hinst => exact ⟨_, hinst⟩

theorem UncoveredPath.exists_inst {uncovered : InstId → Bool} (h : UncoveredPath m uncovered id n) :
    ∃ inst, m.inst id = some inst := by
  cases h with
  | here hinst | into hinst | step hinst | through hinst => exact ⟨_, hinst⟩

theorem ReturnPath.throughAt (hinst : m.inst id = some inst) (hf : f ∈ m.callTargets inst) (callee : ReturnsAt m f k)
    (hsucc : succ ∈ m.getSuccs id) (rest : ReturnPath m succ n) : ReturnPath m id (1 + k + n) := by
  obtain ⟨hreturns, rfl⟩ | callee := callee
  · exact .external hinst hf hreturns hsucc rest
  · exact .through hinst hf callee hsucc rest

/-! ### The loops of a step

As long as the numbers fit, the loops find the best of the ways. -/

section
variable {fsp : Nat → Nat} {dist : InstId → Nat} {through best : Nat} {succs : List InstId}

theorem lower_eq_better (h : k ≠ 0) : lower best k = better best k := by
  simp only [lower, better, h, ne_eq, not_false_eq_true, true_and]

theorem bestOver_eq (hthrough : through ≠ 0) (hfits : ∀ id, through + dist id < 2 ^ 64) :
    bestOver dist through best succs = bestOf (fun succ => plus through (dist succ)) best succs := by
  unfold bestOver bestOf
  congr 1
  funext best succ
  dsimp only
  by_cases hzero : dist succ = 0
  · rw [if_pos hzero, hzero, plus, if_pos (.inr rfl), better, if_neg fun h => h.1 rfl]
  · rw [if_neg hzero, Nat.mod_eq_of_lt (hfits succ), lower_eq_better (by omega), plus_of_ne hthrough hzero]

theorem bestInto_eq (hfits : ∀ id, 1 + dist id < 2 ^ 64) (hdecl : ∀ f, m.isDeclaration f = true → dist (begin f) = 0) :
    bestInto m dist best inst = bestOf (fun f => plus 1 (dist (begin f))) best (m.callTargets inst) := by
  unfold bestInto bestOf
  congr 1
  funext best f
  dsimp only
  by_cases hzero : dist (begin f) = 0
  · rw [if_pos (by simp [hzero]), hzero, plus, if_pos (.inr rfl), better, if_neg fun h => h.1 rfl]
  · have hdefined : m.isDeclaration f = false := Bool.eq_false_iff.mpr fun h => hzero (hdecl f h)
    rw [if_neg (by simp [hzero, hdefined]), Nat.mod_eq_of_lt (hfits _), lower_eq_better (by omega),
      plus_of_ne one_ne_zero hzero]

theorem bestCallee_eq {targets : List Nat} (hfits : ∀ f ∈ targets, 1 + fsp f < 2 ^ 32) (hbest : best < 2 ^ 32) :
    bestCallee fsp targets best = bestOf (fun f => plus 1 (fsp f)) best targets := by
  induction targets generalizing best with
  | nil => rfl
  | cons f targets ih =>
    obtain ⟨hf, htargets⟩ := List.forall_mem_cons.mp hfits
    rw [bestCallee, bestOf, List.foldl_cons, List.foldl_cons]
    by_cases hzero : fsp f = 0
    · rw [if_pos hzero, hzero, plus, if_pos (.inr rfl), better, if_neg fun h => h.1 rfl]
      exact ih htargets hbest
    · have hlower : lower best (1 + fsp f) < 2 ^ 32 := by
        unfold lower
        split
        · exact hf
        · exact hbest
      rw [if_neg hzero, Nat.mod_eq_of_lt hlower, plus_of_ne one_ne_zero hzero, ← lower_eq_better (by omega)]
      exact ih htargets hlower

theorem bestCallee_lt {targets : List Nat} (hbest : best < 2 ^ 32) : bestCallee fsp targets best < 2 ^ 32 := by
  induction targets generalizing best with
  | nil => exact hbest
  | cons f targets ih =>
    rw [bestCallee, List.foldl_cons]
    split
    · exact ih hbest
    · exact ih (Nat.mod_lt _ (Nat.two_pow_pos 32))

/-- It is an `unsigned`. -/
theorem bestThrough_lt (m : Module) (fsp : Nat → Nat) (inst : Instruction) : bestThrough m fsp inst < 2 ^ 32 := by
  unfold bestThrough
  split
  · exact bestCallee_lt (Nat.two_pow_pos 32)
  · decide

section
variable (hfits : ∀ f ∈ m.callTargets inst, 1 + fsp f < 2 ^ 32)
include hfits

theorem bestThrough_eq :
    bestThrough m fsp inst = if inst.isCall then bestOf (fun f => plus 1 (fsp f)) 0 (m.callTargets inst) else 1 := by
  rw [bestThrough, bestCallee_eq hfits (by decide)]

theorem bestThrough_cases (hne : bestThrough m fsp inst ≠ 0) : inst.isCall = false ∧ bestThrough m fsp inst = 1 ∨
    ∃ f ∈ m.callTargets inst, fsp f ≠ 0 ∧ bestThrough m fsp inst = 1 + fsp f := by
  rw [bestThrough_eq hfits] at hne ⊢
  cases hcall : inst.isCall with
  | false => exact .inl ⟨rfl, if_neg Bool.false_ne_true⟩
  | true =>
    rw [hcall, if_pos rfl] at hne
    rw [if_pos rfl]
    rcases bestOf_cases (fun f => plus 1 (fsp f)) 0 (m.callTargets inst) with hbest | ⟨f, hf, hbest, hplus⟩
    · exact absurd hbest hne
    · have hzero : fsp f ≠ 0 := fun h => hplus (plus_eq_zero.mpr (.inr h))
      exact .inr ⟨f, hf, hzero, hbest.trans (plus_of_ne one_ne_zero hzero)⟩

theorem cost_bestThrough_le (hf : f ∈ m.callTargets inst) (hk : cost (fsp f) ≤ k) :
    cost (bestThrough m fsp inst) ≤ (1 + k : Nat) := by
  rw [bestThrough_eq hfits, if_pos (isCall_of_mem hf)]
  exact (cost_bestOf_le_of_mem hf 0).trans (cost_plus_le (cost_le_iff.mpr ⟨one_ne_zero, le_rfl⟩) hk)

end

theorem cost_bestThrough_step (hcall : inst.isCall = false) : cost (bestThrough m fsp inst) ≤ (1 : Nat) := by
  rw [bestThrough, hcall, if_neg Bool.false_ne_true, cost_le_iff]
  exact ⟨one_ne_zero, le_rfl⟩

/-- Where the best way is the distance, it is at most as long as a way through a successor. -/
theorem cost_le_through (hbest : bestOf (fun succ => plus through (dist succ)) best (m.getSuccs id) = dist id)
    (hthrough : cost through ≤ k) (hsucc : succ ∈ m.getSuccs id) (hrest : cost (dist succ) ≤ n) : cost (dist id) ≤ (k + n : Nat) :=
  hbest ▸ (cost_bestOf_le_of_mem hsucc _).trans (cost_plus_le hthrough hrest)

/-- What the best of the successors is. -/
theorem bestOf_plus_cases (through : Nat) (dist : InstId → Nat) (best : Nat) (succs : List InstId) :
    bestOf (fun succ => plus through (dist succ)) best succs = best ∨ ∃ succ ∈ succs, through ≠ 0 ∧ dist succ ≠ 0 ∧
      bestOf (fun succ => plus through (dist succ)) best succs = through + dist succ := by
  rcases bestOf_cases (fun succ => plus through (dist succ)) best succs with hsame | ⟨succ, hsucc, hbest, hplus⟩
  · exact .inl hsame
  · obtain ⟨hthrough, hdist⟩ := not_or.mp (mt plus_eq_zero.mpr hplus)
    exact .inr ⟨succ, hsucc, hthrough, hdist, hbest.trans (plus_of_ne hthrough hdist)⟩

end

/-! ### Distances to a return -/

/-- The distance of a function fits an `unsigned`, and so does that of a call of it. -/
def Returns.Fits (m : Module) (s : Returns) : Prop := ∀ node ∈ m.instructions,
  (node.1 = begin node.1.function → s.minDistToReturn node.1 < 2 ^ 32) ∧
    ∀ f ∈ m.callTargets node.2, 1 + s.minDistToReturn (begin f) < 2 ^ 32

instance (m : Module) (s : Returns) : Decidable (s.Fits m) := inferInstanceAs (Decidable (∀ node ∈ _, _))

/-- The distances found so far are those of paths. The best ones of the instructions that need no path are there. -/
structure Returns.Sound (m : Module) (s : Returns) : Prop where
  path : ∀ id, s.minDistToReturn id ≠ 0 → ReturnPath m id (s.minDistToReturn id)
  function : ∀ f, s.functionShortestPath f ≠ 0 → ReturnsAt m f (s.functionShortestPath f)
  ret : ∀ id inst, m.inst id = some inst → inst.isRet = true → cost (s.minDistToReturn id) ≤ (1 : Nat)
  external : ∀ f, ExternalReturns m f → cost (s.functionShortestPath f) ≤ (1 : Nat)
  begin : ∀ f, (m.inst (begin f)).isSome → cost (s.minDistToReturn (begin f)) ≤ cost (s.functionShortestPath f)
  entry : ∀ f, s.functionShortestPath f ≤ 1 ∨ s.functionShortestPath f = s.minDistToReturn (StatsTracker.begin f)
  bounded : Bounded (2 ^ 32) (m.instructions.map Prod.fst) s.minDistToReturn

theorem Returns.Sound.call {s : Returns} (h : s.Sound m) (hfits : s.Fits m) (hinst : m.inst id = some inst) :
    ∀ f ∈ m.callTargets inst, 1 + s.functionShortestPath f < 2 ^ 32 := by
  intro f hf
  rcases h.entry f with hone | hentry
  · exact (Nat.add_le_add_left hone 1).trans_lt (by decide)
  · rw [hentry]
    exact (hfits _ (mem_instructions.mpr hinst)).2 f hf

/-- What stays below the number of the instructions times `2 ^ 32` fits a `uint64_t`. -/
theorem add_lt_of_bounded {dist : InstId → Nat} {through : Nat} (hsize : m.instructions.length < 2 ^ 32)
    (h : Bounded (2 ^ 32) (m.instructions.map Prod.fst) dist) (hthrough : through < 2 ^ 32) (id : InstId) :
    through + dist id < 2 ^ 64 := by
  have hle := h.le id
  rw [List.length_map] at hle
  omega

/-- The best way through the instruction and on. -/
def Returns.best (m : Module) (s : Returns) (id : InstId) (inst : Instruction) : Nat :=
  bestOf (fun succ => plus (bestThrough m s.functionShortestPath inst) (s.minDistToReturn succ)) (s.minDistToReturn id)
    (m.getSuccs id)

section
variable {s : Returns}

/-- A step leaves the state as it is, or it records the best way. -/
theorem returnStep_cases (h : s.Sound m) (hsize : m.instructions.length < 2 ^ 32) (id : InstId) (inst : Instruction) :
    (returnStep m s (id, inst) = (s, false) ∧ (bestThrough m s.functionShortestPath inst ≠ 0 →
      s.best m id inst = s.minDistToReturn id ∧
        (id = begin id.function → s.functionShortestPath id.function = s.minDistToReturn id))) ∨
      (returnStep m s (id, inst) = (s.record id (s.best m id inst), true) ∧ bestThrough m s.functionShortestPath inst ≠ 0 ∧
        (s.best m id inst ≠ s.minDistToReturn id ∨
          id = begin id.function ∧ s.functionShortestPath id.function ≠ s.best m id inst)) := by
  by_cases hthrough : bestThrough m s.functionShortestPath inst = 0
  · refine .inl ⟨?_, fun h => absurd hthrough h⟩
    rw [returnStep, if_neg fun h => h.1 hthrough]
  have hbest : bestOver s.minDistToReturn (bestThrough m s.functionShortestPath inst) (s.minDistToReturn id) (m.getSuccs id) =
      s.best m id inst := bestOver_eq hthrough (add_lt_of_bounded hsize h.bounded (bestThrough_lt m _ inst))
  rw [returnStep, hbest]
  by_cases hchange : s.best m id inst ≠ s.minDistToReturn id ∨
      id = begin id.function ∧ s.functionShortestPath id.function ≠ s.best m id inst
  · exact .inr ⟨if_pos ⟨hthrough, hchange⟩, hthrough, hchange⟩
  · refine .inl ⟨if_neg fun h => hchange h.2, fun _ => ?_⟩
    rw [not_or, not_not, not_and, not_not] at hchange
    exact ⟨hchange.1, fun h => (hchange.2 h).trans hchange.1⟩

theorem Returns.cost_best_le (m : Module) (s : Returns) (id : InstId) (inst : Instruction) :
    cost (s.best m id inst) ≤ cost (s.minDistToReturn id) := cost_bestOf_le _ _ _

theorem Returns.Sound.best (h : s.Sound m) (hfits : s.Fits m) (hinst : m.inst id = some inst) (hne : s.best m id inst ≠ 0) :
    ReturnPath m id (s.best m id inst) := by
  unfold Returns.best at hne ⊢
  rcases bestOf_plus_cases (bestThrough m s.functionShortestPath inst) s.minDistToReturn (s.minDistToReturn id)
    (m.getSuccs id) with hsame | ⟨succ, hsucc, hthrough, hdist, hbest⟩
  · rw [hsame] at hne ⊢
    exact h.path id hne
  · rw [hbest]
    rcases bestThrough_cases (h.call hfits hinst) hthrough with ⟨hcall, hone⟩ | ⟨f, hf, hfsp, hsum⟩
    · rw [hone]
      exact .step hinst hcall hsucc (h.path succ hdist)
    · rw [hsum]
      exact .throughAt hinst hf (h.function f hfsp) hsucc (h.path succ hdist)

theorem Returns.record_distance (s : Returns) (id id' : InstId) (best : Nat) :
    (s.record id best).minDistToReturn id' = if id' = id then best else s.minDistToReturn id' :=
  Function.update_apply ..

theorem Returns.record_function (s : Returns) (id : InstId) (best f : Nat) : (s.record id best).functionShortestPath f =
    if id = StatsTracker.begin f then best % 2 ^ 32 else s.functionShortestPath f := by
  rw [Returns.record]
  by_cases hf : f = id.function
  · subst hf
    split
    · exact Function.update_self ..
    · rfl
  · have hne : id ≠ StatsTracker.begin f := fun h => hf (congrArg InstId.function h).symm
    rw [if_neg hne]
    split
    · exact Function.update_of_ne hf ..
    · rfl

/-- The distance of a function is recorded as it is, when it fits. -/
theorem Returns.record_function_of_fits {best : Nat} (hinst : m.inst id = some inst) (hnext : (s.record id best).Fits m)
    (f : Nat) : (s.record id best).functionShortestPath f =
      if id = StatsTracker.begin f then best else s.functionShortestPath f := by
  rw [Returns.record_function]
  split
  case isTrue hid =>
    have hlt := (hnext _ (mem_instructions.mpr hinst)).1 (by rw [hid]; rfl)
    rw [Returns.record_distance, if_pos rfl] at hlt
    exact Nat.mod_eq_of_lt hlt
  case isFalse => rfl

theorem returnStart_distance (m : Module) (id : InstId) :
    (returnStart m).minDistToReturn id = (m.inst id).elim 0 fun inst => inst.isRet.toNat := rfl

theorem returnStart_function (m : Module) (f : Nat) : (returnStart m).functionShortestPath f =
    m.functions[f]?.elim 0 fun fn => (fn.isDeclaration && !fn.doesNotReturn).toNat := rfl

theorem Returns.Sound.start (m : Module) : (returnStart m).Sound m where
  path id hne := by
    rw [returnStart_distance] at hne ⊢
    cases hinst : m.inst id with
    | none =>
      rw [hinst] at hne
      exact absurd rfl hne
    | some inst =>
      rw [hinst, Option.elim_some] at hne
      rw [Option.elim_some]
      cases hret : inst.isRet with
      | false =>
        rw [hret] at hne
        exact absurd rfl hne
      | true => exact .ret hinst hret
  function f hne := by
    rw [returnStart_function] at hne ⊢
    cases hf : m.functions[f]? with
    | none =>
      rw [hf] at hne
      exact absurd rfl hne
    | some fn =>
      rw [hf, Option.elim_some] at hne
      rw [Option.elim_some]
      cases hreturns : fn.isDeclaration && !fn.doesNotReturn with
      | false =>
        rw [hreturns] at hne
        exact absurd rfl hne
      | true =>
        obtain ⟨hdecl, hreturn⟩ := (Bool.and_eq_true _ _).mp hreturns
        exact .inl ⟨⟨fn, hf, hdecl, by simpa using hreturn⟩, rfl⟩
  ret id inst hinst hret := by
    rw [returnStart_distance, hinst, Option.elim_some, hret, cost_le_iff]
    exact ⟨one_ne_zero, le_rfl⟩
  external f := by
    rintro ⟨fn, hfn, hdecl, hreturn⟩
    rw [returnStart_function, hfn, Option.elim_some, hdecl, hreturn, cost_le_iff]
    exact ⟨one_ne_zero, le_rfl⟩
  begin f hf := by
    obtain ⟨inst, hinst⟩ := Option.isSome_iff_exists.mp hf
    have hdefined := not_isDeclaration hinst
    have hzero : (returnStart m).functionShortestPath f = 0 := by
      rw [returnStart_function]
      cases hfn : m.functions[f]? with
      | none => rfl
      | some fn =>
        rw [Module.isDeclaration, hfn, Option.elim_some] at hdefined
        rw [Option.elim_some, hdefined]
        rfl
    rw [hzero, cost_zero]
    exact le_top
  entry f := by
    left
    rw [returnStart_function]
    cases m.functions[f]? with
    | none => exact Nat.zero_le 1
    | some fn => exact Bool.toNat_le _
  bounded := by
    refine .of_le_one (by decide) (fun id => ?_) fun id hne => ?_
    · rw [returnStart_distance]
      cases m.inst id with
      | none => exact Nat.zero_le 1
      | some inst => exact Bool.toNat_le _
    · rw [returnStart_distance] at hne
      cases hinst : m.inst id with
      | none =>
        rw [hinst] at hne
        exact absurd rfl hne
      | some inst => exact List.mem_map_of_mem (mem_instructions.mpr hinst)

/-- The record of the best way keeps the distances sound. -/
theorem Returns.Sound.record (h : s.Sound m) (hfits : s.Fits m) (hinst : m.inst id = some inst)
    (hnext : (s.record id (s.best m id inst)).Fits m) : (s.record id (s.best m id inst)).Sound m where
  path id' hne := by
    rw [Returns.record_distance] at hne ⊢
    by_cases hid : id' = id
    · subst hid
      rw [if_pos rfl] at hne ⊢
      exact h.best hfits hinst hne
    · rw [if_neg hid] at hne ⊢
      exact h.path id' hne
  function f hne := by
    rw [Returns.record_function_of_fits hinst hnext] at hne ⊢
    by_cases hid : id = StatsTracker.begin f
    · subst hid
      rw [if_pos rfl] at hne ⊢
      exact .inr (h.best hfits hinst hne)
    · rw [if_neg hid] at hne ⊢
      exact h.function f hne
  ret id' inst' hinst' hret := by
    rw [Returns.record_distance]
    by_cases hid : id' = id
    · subst hid
      rw [if_pos rfl]
      exact (s.cost_best_le m id' inst).trans (h.ret id' inst' hinst' hret)
    · rw [if_neg hid]
      exact h.ret id' inst' hinst' hret
  external f hreturns := by
    rw [Returns.record_function]
    by_cases hid : id = StatsTracker.begin f
    · -- a function with a first instruction is no declaration
      obtain ⟨fn, hfn, hdecl, -⟩ := hreturns
      have hdefined := not_isDeclaration (hid ▸ hinst)
      rw [Module.isDeclaration, hfn, Option.elim_some, hdecl] at hdefined
      cases hdefined
    · rw [if_neg hid]
      exact h.external f hreturns
  begin f hf := by
    rw [Returns.record_distance, Returns.record_function_of_fits hinst hnext]
    by_cases hid : id = StatsTracker.begin f
    · rw [if_pos hid, if_pos hid.symm]
    · rw [if_neg hid, if_neg fun h => hid h.symm]
      exact h.begin f hf
  entry f := by
    rw [Returns.record_distance, Returns.record_function_of_fits hinst hnext]
    by_cases hid : id = StatsTracker.begin f
    · rw [if_pos hid, if_pos hid.symm]
      exact .inr rfl
    · rw [if_neg hid, if_neg fun h => hid h.symm]
      exact h.entry f
  bounded := by
    refine h.bounded.update (List.mem_map_of_mem (mem_instructions.mpr hinst)) (s.cost_best_le m id inst) ?_
    rcases bestOf_plus_cases (bestThrough m s.functionShortestPath inst) s.minDistToReturn (s.minDistToReturn id)
      (m.getSuccs id) with hsame | ⟨succ, -, -, -, hbest⟩
    · exact .inl hsame
    · exact .inr ⟨_, succ, (bestThrough_lt m _ inst).le, hbest⟩

/-- The costs of the instructions, and those of the functions. -/
def Returns.rank (m : Module) (s : Returns) :
    ({id // id ∈ m.instructions.map Prod.fst} → ℕ∞) × ({f // f ∈ List.range m.functions.length} → ℕ∞) :=
  (Distance.rank _ s.minDistToReturn, Distance.rank _ s.functionShortestPath)

theorem function_mem (hinst : m.inst id = some inst) : id.function ∈ List.range m.functions.length := by
  obtain ⟨bb, hbb, -⟩ := Option.bind_eq_some_iff.mp hinst
  obtain ⟨fn, hfn, -⟩ := Option.bind_eq_some_iff.mp hbb
  exact List.mem_range.mpr (List.getElem?_eq_some_iff.mp hfn).1

theorem Returns.Sound.rank_lt (h : s.Sound m) (hinst : m.inst id = some inst)
    (hnext : (s.record id (s.best m id inst)).Fits m) (hchange : s.best m id inst ≠ s.minDistToReturn id ∨
      id = StatsTracker.begin id.function ∧ s.functionShortestPath id.function ≠ s.best m id inst) :
    (s.record id (s.best m id inst)).rank m < s.rank m := by
  have hdistance : ∀ id', cost ((s.record id (s.best m id inst)).minDistToReturn id') ≤ cost (s.minDistToReturn id') := by
    intro id'
    rw [Returns.record_distance]
    split
    case isTrue hid => rw [hid]; exact s.cost_best_le m id inst
    case isFalse => exact le_rfl
  have hfunction : ∀ f, cost ((s.record id (s.best m id inst)).functionShortestPath f) ≤ cost (s.functionShortestPath f) := by
    intro f
    rw [Returns.record_function_of_fits hinst hnext]
    split
    case isTrue hid =>
      subst hid
      exact (s.cost_best_le m _ inst).trans (h.begin f (by rw [hinst]; rfl))
    case isFalse => exact le_rfl
  by_cases hbest : s.best m id inst = s.minDistToReturn id
  · obtain ⟨hid, hne⟩ := hchange.resolve_left fun hne => hne hbest
    refine Prod.lt_of_le_of_lt (Distance.rank_le hdistance) (Distance.rank_lt hfunction (function_mem hinst) ?_)
    rw [Returns.record_function_of_fits hinst hnext, if_pos hid]
    exact fun h => hne h.symm
  · refine Prod.lt_of_lt_of_le (Distance.rank_lt hdistance (k := id) ?_ ?_) (Distance.rank_le hfunction)
    · exact List.mem_map_of_mem (mem_instructions.mpr hinst)
    · rw [Returns.record_distance, if_pos rfl]
      exact hbest

theorem returnStep_unchanged (m : Module) (s : Returns) (node : InstId × Instruction) (hfalse : (returnStep m s node).2 = false) :
    (returnStep m s node).1 = s := by
  unfold returnStep at hfalse ⊢
  dsimp only at hfalse ⊢
  split at hfalse
  case isTrue => cases hfalse
  case isFalse hno => rw [if_neg hno]

theorem improves_returnStep (hsize : m.instructions.length < 2 ^ 32) :
    Improves (returnStep m) m.instructions (Returns.Sound m) (Returns.Fits m) (Returns.rank m) where
  keeps s h hfits node hnode hnext := by
    rcases returnStep_cases h hsize node.1 node.2 with ⟨hsame, -⟩ | ⟨hrecord, -⟩
    · rw [hsame]
      exact h
    · rw [hrecord] at hnext ⊢
      exact h.record hfits (mem_instructions.mp hnode) hnext
  unchanged s node _ hfalse := returnStep_unchanged m s node hfalse
  lowers s h hfits node hnode hnext htrue := by
    rcases returnStep_cases h hsize node.1 node.2 with ⟨hsame, -⟩ | ⟨hrecord, -, hchange⟩
    · rw [hsame] at htrue
      cases htrue
    · rw [hrecord] at hnext ⊢
      exact h.rank_lt (mem_instructions.mp hnode) hnext hchange

/-- Where no step changes anything, every path is at least as long as the distance. The induction is on the path. -/
theorem Returns.Sound.settled (h : s.Sound m) (hfits : s.Fits m) (hsize : m.instructions.length < 2 ^ 32)
    (hend : ∀ node ∈ m.instructions, (returnStep m s node).2 = false)
    (hpath : ReturnPath m id n) :
    cost (s.minDistToReturn id) ≤ n ∧
      (id = StatsTracker.begin id.function → s.functionShortestPath id.function = s.minDistToReturn id) := by
  have hstill : ∀ {id : InstId} {inst : Instruction} {k : Nat}, m.inst id = some inst →
      cost (bestThrough m s.functionShortestPath inst) ≤ k →
      s.best m id inst = s.minDistToReturn id ∧
        (id = StatsTracker.begin id.function → s.functionShortestPath id.function = s.minDistToReturn id) := by
    intro id inst k hinst hthrough
    have hfalse := hend (id, inst) (mem_instructions.mpr hinst)
    rcases returnStep_cases h hsize id inst with ⟨-, hsame⟩ | ⟨hrecord, -⟩
    · exact hsame (cost_le_iff.mp hthrough).1
    · rw [hrecord] at hfalse
      cases hfalse
  induction hpath with
  | @ret id inst hinst hret =>
    have hcall : inst.isCall = false := by
      cases inst with
      | call => cases hret
      | _ => rfl
    exact ⟨h.ret id inst hinst hret, (hstill hinst (cost_bestThrough_step hcall)).2⟩
  | step hinst hcall hsucc _ ih =>
    have hthrough : cost (bestThrough m s.functionShortestPath _) ≤ _ := cost_bestThrough_step hcall
    exact ⟨cost_le_through (hstill hinst hthrough).1 hthrough hsucc ih.1, (hstill hinst hthrough).2⟩
  | external hinst hf hreturns hsucc _ ih =>
    have hthrough := cost_bestThrough_le (h.call hfits hinst) hf (h.external _ hreturns)
    exact ⟨cost_le_through (hstill hinst hthrough).1 hthrough hsucc ih.1, (hstill hinst hthrough).2⟩
  | through hinst hf _ hsucc _ ihcallee ih =>
    -- the callee's summary is the distance of its first instruction
    have hsummary := ihcallee.1
    rw [← ihcallee.2 rfl] at hsummary
    have hthrough := cost_bestThrough_le (h.call hfits hinst) hf hsummary
    exact ⟨cost_le_through (hstill hinst hthrough).1 hthrough hsucc ih.1, (hstill hinst hthrough).2⟩

end

/-- What the first loop leaves. -/
structure Returns.Shortest (m : Module) (s : Returns) : Prop where
  distance : ∀ id, IsDistance (ReturnPath m id) (s.minDistToReturn id)
  function : ∀ f, IsDistance (ReturnsAt m f) (s.functionShortestPath f)
  call : ∀ id inst, m.inst id = some inst → ∀ f ∈ m.callTargets inst, 1 + s.functionShortestPath f < 2 ^ 32

theorem exists_computeReturns (hsize : m.instructions.length < 2 ^ 32)
    (hfits : Always (returnStep m) (Returns.Fits m) m.instructions (returnStart m)) :
    ∃ fuel s, computeReturns m fuel = some s ∧ s.Shortest m := by
  obtain ⟨fuel, s, hloop, hsound, hbelow, hend⟩ := (improves_returnStep hsize).exists_doWhile (.start m) hfits
  refine ⟨fuel, s, hloop, fun id => ?_, fun f => ?_, fun id inst => hsound.call hbelow⟩
  · exact isDistance_iff.mpr ⟨hsound.path id, fun n hpath => (hsound.settled hbelow hsize hend hpath).1⟩
  · refine isDistance_iff.mpr ⟨hsound.function f, fun n hreturns => ?_⟩
    obtain ⟨hexternal, rfl⟩ | hpath := hreturns
    · exact hsound.external f hexternal
    · obtain ⟨hdistance, hfunction⟩ := hsound.settled hbelow hsize hend hpath
      rw [← hfunction rfl] at hdistance
      exact hdistance

/-! ### Distances to an instruction that is not covered -/

section
variable {uncovered : InstId → Bool} {s : Returns} {dist : InstId → Nat}

structure Sound (m : Module) (uncovered : InstId → Bool) (dist : InstId → Nat) : Prop where
  path : ∀ id, dist id ≠ 0 → UncoveredPath m uncovered id (dist id)
  here : ∀ id inst, m.inst id = some inst → uncovered id = true → cost (dist id) ≤ (1 : Nat)
  bounded : Bounded (2 ^ 32) (m.instructions.map Prod.fst) dist

/-- The best way into a callee, or through the instruction and on. -/
def bestUncovered (m : Module) (s : Returns) (dist : InstId → Nat) (id : InstId) (inst : Instruction) : Nat :=
  bestOf (fun succ => plus (bestThrough m s.functionShortestPath inst) (dist succ))
    (bestOf (fun f => plus 1 (dist (begin f))) (dist id) (m.callTargets inst)) (m.getSuccs id)

theorem Sound.begin_eq_zero (h : Sound m uncovered dist) (hdecl : m.isDeclaration f = true) : dist (begin f) = 0 := by
  by_contra hne
  obtain ⟨inst, hinst⟩ := (h.path _ hne).exists_inst
  rw [not_isDeclaration hinst] at hdecl
  cases hdecl

theorem uncoveredStep_eq (h : Sound m uncovered dist) (s : Returns) (hsize : m.instructions.length < 2 ^ 32) (id : InstId)
    (inst : Instruction) : uncoveredStep m s.functionShortestPath dist (id, inst) =
      if bestUncovered m s dist id inst ≠ dist id then (Function.update dist id (bestUncovered m s dist id inst), true)
      else (dist, false) := by
  have hinto : bestInto m dist (dist id) inst = bestOf (fun f => plus 1 (dist (begin f))) (dist id) (m.callTargets inst) :=
    bestInto_eq (add_lt_of_bounded hsize h.bounded (by decide)) fun f => h.begin_eq_zero
  have hover : (if bestThrough m s.functionShortestPath inst ≠ 0 then
      bestOver dist (bestThrough m s.functionShortestPath inst) (bestInto m dist (dist id) inst) (m.getSuccs id)
      else bestInto m dist (dist id) inst) = bestUncovered m s dist id inst := by
    rw [hinto, bestUncovered]
    split
    case isTrue hthrough =>
      exact bestOver_eq hthrough (add_lt_of_bounded hsize h.bounded (bestThrough_lt m _ inst))
    case isFalse hthrough =>
      rw [not_not.mp hthrough]
      generalize bestOf _ _ _ = best
      induction m.getSuccs id with
      | nil => rfl
      | cons succ succs ih => exact ih
  rw [uncoveredStep, hover]

theorem cost_bestUncovered_le (m : Module) (s : Returns) (dist : InstId → Nat) (id : InstId) (inst : Instruction) :
    cost (bestUncovered m s dist id inst) ≤ cost (dist id) := (cost_bestOf_le _ _ _).trans (cost_bestOf_le _ _ _)

/-- Where the best way leads. -/
theorem bestUncovered_cases (m : Module) (s : Returns) (dist : InstId → Nat) (id : InstId) (inst : Instruction) :
    bestUncovered m s dist id inst = dist id ∨
      (∃ f ∈ m.callTargets inst, dist (begin f) ≠ 0 ∧ bestUncovered m s dist id inst = 1 + dist (begin f)) ∨
      ∃ succ ∈ m.getSuccs id, bestThrough m s.functionShortestPath inst ≠ 0 ∧ dist succ ≠ 0 ∧
        bestUncovered m s dist id inst = bestThrough m s.functionShortestPath inst + dist succ := by
  unfold bestUncovered
  rcases bestOf_plus_cases (bestThrough m s.functionShortestPath inst) dist
    (bestOf (fun f => plus 1 (dist (begin f))) (dist id) (m.callTargets inst)) (m.getSuccs id) with hinto | hsucc
  · rw [hinto]
    rcases bestOf_cases (fun f => plus 1 (dist (begin f))) (dist id) (m.callTargets inst) with hsame | ⟨f, hf, hbest, hplus⟩
    · exact .inl hsame
    · have hdist : dist (begin f) ≠ 0 := fun h => hplus (plus_eq_zero.mpr (.inr h))
      exact .inr (.inl ⟨f, hf, hdist, hbest.trans (plus_of_ne one_ne_zero hdist)⟩)
  · exact .inr (.inr hsucc)

theorem Sound.best (h : Sound m uncovered dist) (hs : s.Shortest m) (hinst : m.inst id = some inst)
    (hne : bestUncovered m s dist id inst ≠ 0) : UncoveredPath m uncovered id (bestUncovered m s dist id inst) := by
  rcases bestUncovered_cases m s dist id inst with hsame | ⟨f, hf, hdist, hbest⟩ | ⟨succ, hsucc, hthrough, hdist, hbest⟩
  · rw [hsame] at hne ⊢
    exact h.path id hne
  · rw [hbest]
    exact .into hinst hf (h.path _ hdist)
  · rw [hbest]
    rcases bestThrough_cases (hs.call id inst hinst) hthrough with ⟨hcall, hone⟩ | ⟨f, hf, hfsp, hsum⟩
    · rw [hone]
      exact .step hinst hcall hsucc (h.path succ hdist)
    · rw [hsum]
      exact .through hinst hf ((isDistance_iff.mp (hs.function f)).1 hfsp) hsucc (h.path succ hdist)

theorem Sound.start (m : Module) (uncovered : InstId → Bool) : Sound m uncovered (uncoveredStart m uncovered) where
  path id hne := by
    obtain ⟨inst, hinst, huncovered⟩ : ∃ inst, m.inst id = some inst ∧ uncovered id = true := by
      by_contra hnot
      refine hne ?_
      unfold uncoveredStart
      cases hinst : m.inst id with
      | none => rfl
      | some inst =>
        cases huncovered : uncovered id with
        | false => rfl
        | true => exact absurd ⟨inst, hinst, huncovered⟩ hnot
    rw [uncoveredStart, hinst, huncovered]
    exact .here hinst huncovered
  here id inst hinst huncovered := by
    rw [uncoveredStart, hinst, huncovered, cost_le_iff]
    exact ⟨one_ne_zero, le_rfl⟩
  bounded := by
    refine .of_le_one (by decide) (fun id => Bool.toNat_le _) fun id hne => ?_
    unfold uncoveredStart at hne
    cases hinst : m.inst id with
    | none =>
      rw [hinst] at hne
      exact absurd rfl hne
    | some inst => exact List.mem_map_of_mem (mem_instructions.mpr hinst)

theorem Sound.update (h : Sound m uncovered dist) (hs : s.Shortest m) (hinst : m.inst id = some inst) :
    Sound m uncovered (Function.update dist id (bestUncovered m s dist id inst)) where
  path id' hne := by
    rw [Function.update_apply] at hne ⊢
    by_cases hid : id' = id
    · subst hid
      rw [if_pos rfl] at hne ⊢
      exact h.best hs hinst hne
    · rw [if_neg hid] at hne ⊢
      exact h.path id' hne
  here id' inst' hinst' huncovered := by
    rw [Function.update_apply]
    split
    case isTrue hid =>
      subst hid
      exact (cost_bestUncovered_le m s dist id' inst).trans (h.here id' inst' hinst' huncovered)
    case isFalse => exact h.here id' inst' hinst' huncovered
  bounded := by
    refine h.bounded.update (List.mem_map_of_mem (mem_instructions.mpr hinst)) (cost_bestUncovered_le m s dist id inst) ?_
    rcases bestUncovered_cases m s dist id inst with hsame | ⟨f, -, -, hbest⟩ | ⟨succ, -, -, -, hbest⟩
    · exact .inl hsame
    · exact .inr ⟨1, begin f, by decide, hbest⟩
    · exact .inr ⟨_, succ, (bestThrough_lt m _ inst).le, hbest⟩

/-- Nothing is cut here: the distances are of 64 bits. -/
theorem improves_uncoveredStep (hs : s.Shortest m) (hsize : m.instructions.length < 2 ^ 32) (uncovered : InstId → Bool) :
    Improves (uncoveredStep m s.functionShortestPath) m.instructions (Sound m uncovered) (fun _ => True)
      (Distance.rank (m.instructions.map Prod.fst)) where
  keeps dist h _ node hnode _ := by
    rw [uncoveredStep_eq h s hsize]
    split
    · exact h.update hs (mem_instructions.mp hnode)
    · exact h
  unchanged dist node _ hfalse := by
    unfold uncoveredStep at hfalse ⊢
    dsimp only at hfalse ⊢
    generalize (if bestThrough m s.functionShortestPath node.2 ≠ 0 then _ else _) = best at hfalse ⊢
    split at hfalse
    case isTrue => cases hfalse
    case isFalse hno => rw [if_neg hno]
  lowers dist h _ node hnode _ htrue := by
    rw [uncoveredStep_eq h s hsize] at htrue ⊢
    split at htrue
    case isFalse => cases htrue
    case isTrue hne =>
      rw [if_pos hne]
      dsimp only
      refine rank_lt (fun id => ?_) (List.mem_map_of_mem hnode) (by rwa [Function.update_self])
      rw [Function.update_apply]
      split
      case isTrue hid => rw [hid]; exact cost_bestUncovered_le m s dist node.1 node.2
      case isFalse => exact le_rfl

theorem Sound.settled (h : Sound m uncovered dist) (hs : s.Shortest m) (hsize : m.instructions.length < 2 ^ 32)
    (hend : ∀ node ∈ m.instructions, (uncoveredStep m s.functionShortestPath dist node).2 = false)
    (hpath : UncoveredPath m uncovered id n) : cost (dist id) ≤ n := by
  have hstill : ∀ {id : InstId} {inst : Instruction}, m.inst id = some inst → bestUncovered m s dist id inst = dist id := by
    intro id inst hinst
    have hfalse := hend (id, inst) (mem_instructions.mpr hinst)
    rw [uncoveredStep_eq h s hsize] at hfalse
    by_contra hne
    rw [if_pos hne] at hfalse
    cases hfalse
  induction hpath with
  | here hinst huncovered => exact h.here _ _ hinst huncovered
  | into hinst hf _ ih =>
    rw [← hstill hinst]
    refine (cost_bestOf_le _ _ _).trans ((cost_bestOf_le_of_mem hf _).trans ?_)
    exact cost_plus_le (cost_le_iff.mpr ⟨one_ne_zero, le_rfl⟩) ih
  | step hinst hcall hsucc _ ih => exact cost_le_through (hstill hinst) (cost_bestThrough_step hcall) hsucc ih
  | through hinst hf callee hsucc _ ih =>
    have hcallee := (isDistance_iff.mp (hs.function _)).2 _ callee
    exact cost_le_through (hstill hinst) (cost_bestThrough_le (hs.call _ _ hinst) hf hcallee) hsucc ih

theorem exists_computeUncovered (hs : s.Shortest m) (hsize : m.instructions.length < 2 ^ 32) (uncovered : InstId → Bool) :
    ∃ fuel dist, computeUncovered m s.functionShortestPath uncovered fuel = some dist ∧
      ∀ id, IsDistance (UncoveredPath m uncovered id) (dist id) := by
  obtain ⟨fuel, dist, hloop, hsound, -, hend⟩ :=
    (improves_uncoveredStep hs hsize uncovered).exists_doWhile (.start m uncovered) fun _ _ _ => trivial
  refine ⟨fuel, dist, hloop, fun id => ?_⟩
  exact isDistance_iff.mpr ⟨hsound.path id, fun n hpath => hsound.settled hs hsize hend hpath⟩

end

/-- Two functions that call each other. The first one may also return. -/
def mutualCalls : Module where
  functions := [⟨[⟨[.other], [1, 2]⟩, ⟨[.call (.direct 1), .ret], []⟩, ⟨[.other, .other, .ret], []⟩], false⟩,
    ⟨[⟨[.call (.direct 0), .ret], []⟩], false⟩]
  escapingFunctions := []

example : (computeReachableUncovered mutualCalls (· = ⟨1, 0, 1⟩) 9 9).map (fun sm =>
    (mutualCalls.instructions.map fun node => sm.minDistToReturn node.1,
      mutualCalls.instructions.map fun node => sm.minDistToUncovered node.1)) =
    some ([1, 6, 1, 2, 3, 1, 8, 4], [1, 6, 0, 0, 0, 0, 7, 8]) := by decide

/-- The distances fulfil the equations of the paths. -/
structure Returns.Solves (m : Module) (s : Returns) : Prop where
  call : ∀ node ∈ m.instructions, ∀ f ∈ m.callTargets node.2, 1 + s.functionShortestPath f < 2 ^ 32
  declared : ∀ f, m.isDeclaration f = true → s.functionShortestPath f = (returnStart m).functionShortestPath f
  defined : ∀ f, m.isDeclaration f = false → s.functionShortestPath f = s.minDistToReturn (StatsTracker.begin f)
  outside : ∀ id, m.inst id = none → s.minDistToReturn id = 0
  distance : ∀ node ∈ m.instructions, s.minDistToReturn node.1 =
    bestOf (fun succ => plus (bestThrough m s.functionShortestPath node.2) (s.minDistToReturn succ)) node.2.isRet.toNat
      (m.getSuccs node.1)

section
variable {s : Returns}

/-- Each distance leads to smaller ones, so there is a path. -/
theorem Returns.Solves.path (h : s.Solves m) (hne : s.minDistToReturn id ≠ 0) : ReturnPath m id (s.minDistToReturn id) := by
  induction hd : s.minDistToReturn id using Nat.strong_induction_on generalizing id with
  | _ d ih =>
    subst hd
    obtain ⟨inst, hinst⟩ := Option.ne_none_iff_exists'.mp fun hnone => hne (h.outside id hnone)
    have hnode := mem_instructions.mpr hinst
    have hfits : ∀ f ∈ m.callTargets inst, 1 + s.functionShortestPath f < 2 ^ 32 := h.call _ hnode
    rcases bestOf_plus_cases (bestThrough m s.functionShortestPath inst) s.minDistToReturn inst.isRet.toNat (m.getSuccs id) with
      hret | ⟨succ, hsucc, hthrough, hdist, hbest⟩
    · rw [(h.distance _ hnode).trans hret] at hne ⊢
      cases hisRet : inst.isRet with
      | false =>
        rw [hisRet] at hne
        exact absurd rfl hne
      | true => exact .ret hinst hisRet
    · have hsum : s.minDistToReturn id = bestThrough m s.functionShortestPath inst + s.minDistToReturn succ :=
        (h.distance _ hnode).trans hbest
      have hrest : ReturnPath m succ (s.minDistToReturn succ) := ih _ (by omega) hdist rfl
      rw [hsum]
      rcases bestThrough_cases hfits hthrough with ⟨hcall, hone⟩ | ⟨f, hf, hfsp, hcall⟩
      · rw [hone]
        exact .step hinst hcall hsucc hrest
      · rw [hcall]
        refine .throughAt hinst hf ?_ hsucc hrest
        cases hdecl : m.isDeclaration f with
        | true =>
          rw [h.declared f hdecl] at hfsp ⊢
          exact (Returns.Sound.start m).function f hfsp
        | false =>
          rw [h.defined f hdecl] at hfsp hcall ⊢
          exact .inr (ih _ (by omega) hfsp rfl)

/-- No path is shorter. The induction is on the path. -/
theorem Returns.Solves.le (h : s.Solves m) (hpath : ReturnPath m id n) : cost (s.minDistToReturn id) ≤ n := by
  have hstill {id : InstId} {inst : Instruction} (hinst : m.inst id = some inst) := (h.distance _ (mem_instructions.mpr hinst)).symm
  induction hpath with
  | ret hinst hret =>
    rw [h.distance _ (mem_instructions.mpr hinst)]
    refine (cost_bestOf_le _ _ _).trans ?_
    rw [hret, cost_le_iff]
    exact ⟨one_ne_zero, le_rfl⟩
  | step hinst hcall hsucc _ ih => exact cost_le_through (hstill hinst) (cost_bestThrough_step hcall) hsucc ih
  | @external _ _ _ f _ hinst hf hreturns hsucc _ ih =>
    obtain ⟨fn, hfn, hdecl, hreturn⟩ := hreturns
    have hsummary := (Returns.Sound.start m).external f ⟨fn, hfn, hdecl, hreturn⟩
    rw [← h.declared f (by rw [Module.isDeclaration, hfn]; exact hdecl)] at hsummary
    exact cost_le_through (hstill hinst) (cost_bestThrough_le (h.call _ (mem_instructions.mpr hinst)) hf hsummary) hsucc ih
  | @through _ _ _ f _ _ hinst hf callee hsucc _ ihcallee ih =>
    obtain ⟨first, hfirst⟩ := callee.exists_inst
    rw [← h.defined f (not_isDeclaration hfirst)] at ihcallee
    exact cost_le_through (hstill hinst) (cost_bestThrough_le (h.call _ (mem_instructions.mpr hinst)) hf ihcallee) hsucc ih

theorem Returns.Solves.isDistance (h : s.Solves m) (id : InstId) : IsDistance (ReturnPath m id) (s.minDistToReturn id) :=
  isDistance_iff.mpr ⟨h.path, fun _ => h.le⟩

end

/-- Where all instructions are not covered, each of them is one. -/
theorem isDistance_uncovered (m : Module) (id : InstId) :
    IsDistance (UncoveredPath m (fun _ => true) id) (m.inst id).isSome.toNat := by
  refine isDistance_iff.mpr ⟨fun hne => ?_, fun n hpath => ?_⟩
  · cases hinst : m.inst id with
    | none =>
      rw [hinst] at hne
      exact absurd rfl hne
    | some inst => exact .here hinst rfl
  · obtain ⟨inst, hinst⟩ := hpath.exists_inst
    rw [hinst, cost_le_iff]
    refine ⟨one_ne_zero, ?_⟩
    cases hpath with
    | here => exact le_rfl
    | into | step => exact Nat.le_add_right 1 _
    | through => exact (Nat.le_add_right 1 _).trans (Nat.le_add_right _ _)

/-- The main function calls the third one. From there on each function calls the next one three times, and the last one has
    a short way to its return through a call of the second function, which the first sweep comes to at its end. -/
def tripling : Module where
  functions := [⟨[⟨[.call (.direct 2), .ret], []⟩], false⟩, ⟨[⟨[.ret], []⟩], false⟩] ++
    (List.range 18).map (fun k => ⟨[⟨List.replicate 3 (.call (.direct (k + 3))) ++ [.ret], []⟩], false⟩) ++
    [⟨[⟨[.other], [1, 2]⟩, ⟨List.replicate 8 .other ++ [.ret], []⟩, ⟨[.call (.direct 1), .ret], []⟩], false⟩]
  escapingFunctions := []

/-- The distance of the function that is `k` calls above the last one. -/
def tripledDist : Nat → Nat
  | 0 => 4
  | k + 1 => 3 * (1 + tripledDist k) + 1

/-- The distances of `tripling`. -/
def triplingReturns : Returns where
  minDistToReturn := dist
  functionShortestPath f := dist (begin f)
where
  dist (id : InstId) : Nat := (tripling.inst id).elim 0 fun _ =>
    if id.function = 0 then (1 - id.place) * (1 + tripledDist 18) + 1
    else if id.function = 1 then 1
    else if id.function < 20 then (3 - id.place) * (1 + tripledDist (19 - id.function)) + 1
    else if id.block = 0 then 4
    else if id.block = 1 then 9 - id.place
    else 3 - 2 * id.place

theorem triplingReturns_solves : triplingReturns.Solves tripling := by
  have hlength : tripling.functions.length = 21 := by decide
  have hbeyond : ∀ f, 21 ≤ f → tripling.functions[f]? = none := fun f hf =>
    List.getElem?_eq_none_iff.mpr (hlength.trans_le hf)
  have hall : ∀ f < 21, tripling.isDeclaration f = false := by decide
  constructor
  · decide +kernel
  · intro f hdecl
    have hf : 21 ≤ f := by
      by_contra hlt
      exact Bool.false_ne_true ((hall f (not_le.mp hlt)).symm.trans hdecl)
    have hinst : tripling.inst (begin f) = none := by
      simp only [Module.inst, Module.block, begin, hbeyond f hf, Option.bind_none]
    rw [returnStart_function, hbeyond f hf]
    change (tripling.inst (begin f)).elim 0 _ = 0
    rw [hinst]
    rfl
  · exact fun f _ => rfl
  · intro id hnone
    change (tripling.inst id).elim 0 _ = 0
    rw [hnone]
    rfl
  · decide +kernel

section
variable {sm : Statistics} {pc : InstId} {stack : List StackFrame} {acc : Nat} {thread : Thread} {threadList : List Thread}

/-- Where each frame continues, from the bottom on. -/
def continuations (m : Module) (pc : InstId) (stack : List StackFrame) : List InstId :=
  if stack = [] then [] else stack.tail.map (fun above => m.next above.caller) ++ [pc]

/-- `computeMinDistToUncovered` folded over frames. -/
def foldDist (sm : Statistics) (kiis : List InstId) (acc : Nat) : Nat :=
  kiis.foldl (fun acc kii => computeMinDistToUncovered sm kii acc) acc

/-- The distance of all frames of a thread. -/
def Thread.dist (m : Module) (sm : Statistics) (thread : Thread) : Nat :=
  foldDist sm (continuations m thread.pc thread.stack) 0

/-- For each frame, the distance of those below it. -/
def distsBelow (m : Module) (sm : Statistics) (pc : InstId) (stack : List StackFrame) (acc : Nat) : List Nat :=
  (List.range stack.length).map fun j => foldDist sm ((continuations m pc stack).take j) acc

/-- The frames of each thread have the distances of their own stack. -/
def OwnStacks (m : Module) (sm : Statistics) (threadList : List Thread) : Prop :=
  (computeState m sm threadList).map (fun thread => thread.stack.map StackFrame.minDistToUncoveredOnReturn) =
    threadList.map fun thread => distsBelow m sm thread.pc thread.stack 0

theorem continuations_cons (sf : StackFrame) : continuations m pc (sf :: stack) =
    (stack.head?.elim pc fun above => m.next above.caller) :: continuations m pc stack := by
  cases stack <;> rfl

theorem distsBelow_cons (sf : StackFrame) : distsBelow m sm pc (sf :: stack) acc =
    acc :: distsBelow m sm pc stack
      (computeMinDistToUncovered sm (stack.head?.elim pc fun above => m.next above.caller) acc) := by
  rw [distsBelow, List.length_cons, List.range_succ_eq_map, List.map_cons, List.map_map, continuations_cons]
  rfl

/-- The frames get the distances from `acc` on, as far as they fit. -/
theorem computeFrames_spec (m : Module) (sm : Statistics) (pc : InstId) (stack : List StackFrame) (acc : Nat) :
    (computeFrames m sm pc stack acc).1.map StackFrame.minDistToUncoveredOnReturn =
        (distsBelow m sm pc stack acc).map (· % 2 ^ 32) ∧
      (computeFrames m sm pc stack acc).2 = foldDist sm (continuations m pc stack) acc := by
  induction stack generalizing acc with
  | nil => exact ⟨rfl, rfl⟩
  | cons sf stack ih =>
    obtain ⟨hframes, hacc⟩ := ih (computeMinDistToUncovered sm (stack.head?.elim pc fun above => m.next above.caller) acc)
    rw [computeFrames, distsBelow_cons, continuations_cons]
    exact ⟨congrArg _ hframes, hacc⟩

/-- The frames get the distances of their own stacks when the distance before the threads is `acc`. -/
def OwnFrom (m : Module) (sm : Statistics) (acc : Nat) (threadList : List Thread) : Prop :=
  (computeThreads m sm threadList acc).map (fun thread => thread.stack.map StackFrame.minDistToUncoveredOnReturn) =
    threadList.map fun thread => distsBelow m sm thread.pc thread.stack 0

theorem ownFrom_cons : OwnFrom m sm acc (thread :: threadList) ↔
    (distsBelow m sm thread.pc thread.stack acc).map (· % 2 ^ 32) = distsBelow m sm thread.pc thread.stack 0 ∧
      OwnFrom m sm (foldDist sm (continuations m thread.pc thread.stack) acc) threadList := by
  obtain ⟨hframes, hacc⟩ := computeFrames_spec m sm thread.pc thread.stack acc
  rw [OwnFrom, computeThreads, List.map_cons, List.map_cons, List.cons_eq_cons, hframes, hacc]
  exact Iff.rfl

theorem ownFrom_of_empty (hempty : ∀ thread ∈ threadList, thread.stack = []) : OwnFrom m sm acc threadList := by
  induction threadList with
  | nil => rfl
  | cons thread threadList ih =>
    obtain ⟨hthread, hrest⟩ := List.forall_mem_cons.mp hempty
    rw [ownFrom_cons, hthread]
    exact ⟨rfl, ih hrest⟩

/-- A distance that does not vanish shows in the first frame that there is. -/
theorem stack_eq_nil_of_ownFrom (hacc : acc % 2 ^ 32 ≠ 0) (hown : OwnFrom m sm acc threadList) :
    ∀ thread ∈ threadList, thread.stack = [] := by
  induction threadList with
  | nil => exact fun _ h => nomatch h
  | cons thread threadList ih =>
    rw [ownFrom_cons] at hown
    cases hstack : thread.stack with
    | nil =>
      rw [hstack] at hown
      exact List.forall_mem_cons.mpr ⟨hstack, ih hown.2⟩
    | cons sf stack =>
      rw [hstack, distsBelow_cons, distsBelow_cons, List.map_cons, List.cons_eq_cons] at hown
      exact absurd hown.1.1 hacc

theorem map_mod_eq_self_iff {l : List Nat} : l.map (· % 2 ^ 32) = l ↔ ∀ d ∈ l, d < 2 ^ 32 := by
  induction l with
  | nil => simp
  | cons d l ih =>
    rw [List.map_cons, List.cons_eq_cons, ih, List.forall_mem_cons]
    refine and_congr_left fun _ => ⟨fun h => h ▸ Nat.mod_lt d (by decide), Nat.mod_eq_of_lt⟩

/-- The threads before a thread with frames have the distance 0, and the distances below the frames fit an `unsigned`. -/
def NothingCarried (m : Module) (sm : Statistics) (threadList : List Thread) : Prop :=
  threadList.Pairwise (fun thread later => later.stack ≠ [] → thread.dist m sm = 0) ∧
    ∀ thread ∈ threadList, ∀ d ∈ distsBelow m sm thread.pc thread.stack 0, d < 2 ^ 32

theorem nothingCarried_cons : NothingCarried m sm (thread :: threadList) ↔
    (∀ later ∈ threadList, later.stack ≠ [] → thread.dist m sm = 0) ∧
      (∀ d ∈ distsBelow m sm thread.pc thread.stack 0, d < 2 ^ 32) ∧ NothingCarried m sm threadList := by
  unfold NothingCarried
  rw [List.pairwise_cons, List.forall_mem_cons]
  tauto

theorem nothingCarried_of_empty (hempty : ∀ thread ∈ threadList, thread.stack = []) : NothingCarried m sm threadList := by
  refine ⟨List.pairwise_of_forall_mem_list fun _ _ later hmem hne => absurd (hempty later hmem) hne, fun later hmem d hd => ?_⟩
  rw [hempty later hmem] at hd
  cases hd

theorem ownFrom_zero_cons : OwnFrom m sm 0 (thread :: threadList) ↔
    (∀ d ∈ distsBelow m sm thread.pc thread.stack 0, d < 2 ^ 32) ∧ OwnFrom m sm (thread.dist m sm) threadList := by
  rw [ownFrom_cons, map_mod_eq_self_iff]
  exact Iff.rfl

theorem ownFrom_of_nothingCarried (h : NothingCarried m sm threadList) : OwnFrom m sm 0 threadList := by
  induction threadList with
  | nil => rfl
  | cons thread threadList ih =>
    obtain ⟨hlater, hown, hrest⟩ := nothingCarried_cons.mp h
    refine ownFrom_zero_cons.mpr ⟨hown, ?_⟩
    by_cases hzero : thread.dist m sm = 0
    · rw [hzero]
      exact ih hrest
    · exact ownFrom_of_empty fun later hmem => by_contra fun hne => hzero (hlater later hmem hne)

theorem nothingCarried_of_ownFrom (hfits : ∀ thread ∈ threadList, thread.dist m sm < 2 ^ 32) (h : OwnFrom m sm 0 threadList) :
    NothingCarried m sm threadList := by
  induction threadList with
  | nil => exact ⟨.nil, fun _ h => nomatch h⟩
  | cons thread threadList ih =>
    obtain ⟨hthread, hrest⟩ := List.forall_mem_cons.mp hfits
    obtain ⟨hown, hlater⟩ := ownFrom_zero_cons.mp h
    refine nothingCarried_cons.mpr ?_
    by_cases hzero : thread.dist m sm = 0
    · rw [hzero] at hlater
      exact ⟨fun _ _ _ => hzero, hown, ih hrest hlater⟩
    · have hempty := stack_eq_nil_of_ownFrom (by rwa [Nat.mod_eq_of_lt hthread]) hlater
      exact ⟨fun later hmem hne => absurd (hempty later hmem) hne, hown, nothingCarried_of_empty hempty⟩

/-- The frames depend on their own stacks when nothing is carried from thread to thread and the distances fit the frames;
    and as long as the distances of the threads fit, only then. -/
theorem ownStacks_iff (m : Module) (sm : Statistics) (threadList : List Thread) :
    (NothingCarried m sm threadList → OwnStacks m sm threadList) ∧
      ((∀ thread ∈ threadList, thread.dist m sm < 2 ^ 32) →
        (OwnStacks m sm threadList ↔ NothingCarried m sm threadList)) :=
  ⟨ownFrom_of_nothingCarried, fun hfits => ⟨nothingCarried_of_ownFrom hfits, ownFrom_of_nothingCarried⟩⟩

/-- The distances in `mutualCalls` when the return of the second function is not covered. -/
def mutualDistances : Statistics :=
  (computeReachableUncovered mutualCalls (· = ⟨1, 0, 1⟩) 9 9).getD ⟨fun _ => 0, fun _ => 0⟩

/-- A thread that is about to return from the first function for good. -/
def leaving : Thread := ⟨[⟨begin 0, 0⟩], ⟨0, 2, 1⟩⟩

/-- A thread in the first function, which the second one has called. -/
def calledBack : Thread := ⟨[⟨begin 0, 0⟩, ⟨⟨1, 0, 0⟩, 0⟩], ⟨0, 2, 0⟩⟩

theorem ownStacks_iff_calledBack :
    OwnStacks mutualCalls mutualDistances [leaving, calledBack] ∧ ¬OwnStacks mutualCalls mutualDistances [calledBack, calledBack] ∧
      (calledBack.dist mutualCalls mutualDistances, distsBelow mutualCalls mutualDistances calledBack.pc calledBack.stack 0) =
        (4, [0, 1]) := by
  refine ⟨(ownStacks_iff mutualCalls mutualDistances [leaving, calledBack]).1 ?_, fun hown => ?_, by decide +kernel⟩
  · unfold NothingCarried
    decide +kernel
  · have hcarried := ((ownStacks_iff mutualCalls mutualDistances [calledBack, calledBack]).2 (by decide +kernel)).mp hown
    revert hcarried
    unfold NothingCarried
    decide +kernel

/-- A function that returns at once. -/
def returnsAtOnce : Module := ⟨[⟨[⟨[.ret], []⟩], false⟩], []⟩

/-- A thread with one frame, at the first instruction. -/
def atStart : Thread := ⟨[⟨begin 0, 0⟩], begin 0⟩

theorem not_ownStacks_atStart : ¬∀ m uncovered fuel fuel' sm threadList,
    computeReachableUncovered m uncovered fuel fuel' = some sm → OwnStacks m sm threadList := by
  intro hall
  have hown := hall returnsAtOnce (fun _ => true) 2 2 _ [atStart, atStart] rfl
  revert hown
  unfold OwnStacks
  decide

end

end CapTaint.StatsTracker
