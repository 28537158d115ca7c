import Mathlib
import CapTaint.ExternalDispatcher

/-! # External calls reach their targets

The executor and the stub count words apart from each other. A stub is generated once for each instruction. -/

namespace CapTaint.ExternalDispatcher

variable {words words' : Words} {i index width : Nat} {c : Constant} {resolveSymbol : String → Bool}

/-! ### Words -/

/-- Widths of what can be passed. -/
def Passable (width : Nat) : Prop := width ∈ [1, 8, 16, 32, 64, 80]

theorem Passable.cases (h : Passable width) : 0 < width ∧ width ≤ 64 ∨ width = 80 := by
  simp only [Passable, List.mem_cons, List.not_mem_nil, or_false] at h
  omega

/-- The words before are left as they are. -/
theorem store_of_lt {value : BitVec width} (h : i < index) : store words index value i = words i := by
  unfold store
  split
  · exact Function.update_of_ne h.ne _ _
  · rw [Function.update_of_ne (by omega), Function.update_of_ne h.ne]

theorem load_store (hwidth : Passable width) (value : BitVec width) : load (store words index value) index width = value := by
  unfold load store
  rcases hwidth.cases with ⟨hpos, hle⟩ | rfl
  · rw [if_pos hle, Function.update_self, BitVec.setWidth_append, dif_pos hle]
    ext j hj
    have hbits : j < (width + 7) / 8 * 8 := by omega
    have hword : j < 64 := by omega
    simp [hj, hbits, hword]
  · rw [if_neg (by omega), Function.update_self, Function.update_of_ne (by omega), Function.update_self]
    ext j hj
    rw [BitVec.getElem_setWidth, BitVec.getLsbD_append]
    by_cases hlow : j < 64
    · simp [hlow, hj]
    · -- the rest of the value is at the start of the second word
      have hbits : j - 64 < 16 := by omega
      have hword : j - 64 < 64 := by omega
      have hsum : 64 + (j - 64) = j := by omega
      simp [hlow, hbits, hword, hsum, hj]

/-- A value is read from its own words only. -/
theorem load_congr (hwidth : Passable width) (h : ∀ i, index ≤ i → i < index + (width + 63) / 64 → words i = words' i) :
    load words index width = load words' index width := by
  unfold load
  rcases hwidth.cases with ⟨hpos, hle⟩ | rfl
  · rw [BitVec.setWidth_append, BitVec.setWidth_append, dif_pos hle, dif_pos hle, h index le_rfl (by omega)]
  · rw [h index le_rfl (by omega), h (index + 1) (by omega) (by omega)]

/-! ### Places -/

/-- The first words of things that have their sizes in words. -/
def slots : Nat → List Nat → List Nat
  | _, [] => []
  | index, size :: rest => index :: slots (index + size) rest

/-- The size of the last thing does not matter. -/
theorem slots_eq_iff (index : Nat) {sizes sizes' : List Nat} (h : sizes.length = sizes'.length) :
    slots index sizes = slots index sizes' ↔ sizes.dropLast = sizes'.dropLast := by
  induction sizes generalizing index sizes' with
  | nil =>
    obtain rfl := List.length_eq_zero_iff.mp h.symm
    exact iff_of_true rfl rfl
  | cons size sizes ih =>
    cases sizes' with
    | nil => cases h
    | cons size' sizes' =>
      have hlength : sizes.length = sizes'.length := Nat.succ.inj h
      cases sizes with
      | nil =>
        obtain rfl := List.length_eq_zero_iff.mp hlength.symm
        exact iff_of_true rfl rfl
      | cons next sizes =>
        cases sizes' with
        | nil => cases hlength
        | cons next' sizes' =>
          have hrest := ih (index + size) hlength
          simp only [slots, List.dropLast_cons_cons, List.cons.injEq, true_and] at hrest ⊢
          constructor
          · rintro ⟨hsize, htail⟩
            obtain rfl : size = size' := Nat.add_left_cancel hsize
            exact ⟨rfl, hrest.mp htail⟩
          · rintro ⟨rfl, hdrop⟩
            exact ⟨rfl, hrest.mpr hdrop⟩

/-- The words that the executor passes over. -/
def sizeOf (c : Constant) : Nat := (c.width + 63) / 64

/-- Values are stored one behind the other, and can be loaded from their places. -/
theorem storeArguments_spec (index : Nat) (words : Words) (args : List Constant) (hargs : ∀ c ∈ args, Passable c.width) :
    ∃ words', storeArguments index words args = some (words', slots index (args.map sizeOf)) ∧
      (∀ i < index, words' i = words i) ∧
      ∀ (j : Nat) c k, args[j]? = some c → (slots index (args.map sizeOf))[j]? = some k → load words' k c.width = c.value := by
  induction args generalizing index words with
  | nil => exact ⟨words, rfl, fun _ _ => rfl, fun j c k hc => by simp at hc⟩
  | cons c args ih =>
    have hc : Passable c.width := hargs c List.mem_cons_self
    have hstore : toMemory words index c = some (store words index c.value) := if_pos hc
    obtain ⟨words', heq, hkeep, hload⟩ := ih (index + sizeOf c) (store words index c.value)
      fun c' hc' => hargs c' (List.mem_cons_of_mem _ hc')
    refine ⟨words', ?_, fun i hi => ?_, fun j c' k hc' hk => ?_⟩
    · rw [sizeOf] at heq
      simp only [storeArguments, hstore, heq, Option.bind_eq_bind, Option.bind_some]
      rfl
    · exact (hkeep i (Nat.lt_add_right _ hi)).trans (store_of_lt hi)
    · cases j with
      | zero =>
        obtain rfl := Option.some.inj hc'
        obtain rfl := Option.some.inj hk
        have hself : load (store words index c.value) index c.width = c.value := load_store hc c.value
        exact (load_congr hc fun i _ hi => hkeep i hi).trans hself
      | succ j => exact hload j c' k hc' hk

/-! ### Types -/

/-- The type that the `i`th argument is passed as, and those behind it. -/
def passedTypes (target : FunctionType) : Nat → List Ty → List Ty
  | _, [] => []
  | i, arg :: rest => target.params[i]?.getD arg :: passedTypes target (i + 1) rest

theorem length_passedTypes (target : FunctionType) (i : Nat) (args : List Ty) : (passedTypes target i args).length = args.length := by
  induction args generalizing i with
  | nil => rfl
  | cons arg args ih => exact congrArg (· + 1) (ih (i + 1))

theorem loadsFrom_fst (target : FunctionType) (i index : Nat) (args : List Ty) :
    (loadsFrom target i index args).map Prod.fst = slots index ((passedTypes target i args).map wordsOf) := by
  induction args generalizing i index with
  | nil => rfl
  | cons arg args ih => exact congrArg (index :: ·) (ih ..)

theorem wordsOf_eq {ty : Ty} (h : Passable ty.typeSizeInBits) : wordsOf ty = (ty.typeSizeInBits + 63) / 64 := by
  cases ty with
  | int width =>
    have hpos : width ≠ 0 := by
      rintro rfl
      exact absurd h (by simp [Passable, Ty.typeSizeInBits])
    simp [wordsOf, Ty.primitiveSizeInBits, Ty.typeSizeInBits, hpos]
  | float => rfl
  | double => rfl
  | fp80 => rfl
  | pointer => rfl

/-- What LLVM promises of a call: the types are those of values that can be passed, and the instruction passes what the type
that it calls asks for. -/
structure Call.WellFormed (call : Call) : Prop where
  args : ∀ ty ∈ call.inst.args, Passable ty.typeSizeInBits
  params : ∀ ty ∈ call.target.type.params, Passable ty.typeSizeInBits
  values : call.values.map (·.width) = call.inst.args.map (·.typeSizeInBits)
  called : ∀ (i : Nat) ty param, call.inst.args[i]? = some ty → call.inst.calledType.params[i]? = some param → param = ty

theorem coerce_widths {target : FunctionType} {isSExt : List Bool} {values : List Constant} {args : List Ty}
    (h : values.map (·.width) = args.map (·.typeSizeInBits)) :
    (coerce target isSExt i values).map (·.width) = (passedTypes target i args).map (·.typeSizeInBits) := by
  induction values generalizing args i with
  | nil =>
    obtain rfl := List.map_eq_nil_iff.mp h.symm
    rfl
  | cons c values ih =>
    cases args with
    | nil => cases h
    | cons arg args =>
      obtain ⟨hc, hrest⟩ := List.cons.inj h
      refine List.cons_eq_cons.mpr ⟨?_, ih hrest⟩
      cases target.params[i]? with
      | none => exact hc
      | some param =>
        change (convert (isSExt.getD i false) param.typeSizeInBits c).width = param.typeSizeInBits
        rw [convert]
        split
        case isTrue heq => exact heq
        case isFalse => split <;> rfl

theorem passedTypes_called {target : FunctionType} {args : List Ty}
    (h : ∀ (j : Nat) ty param, args[j]? = some ty → target.params[i + j]? = some param → param = ty) : passedTypes target i args = args := by
  induction args generalizing i with
  | nil => rfl
  | cons arg args ih =>
    refine List.cons_eq_cons.mpr ⟨?_, ih fun j ty param hty hparam => h (j + 1) ty param hty ?_⟩
    · cases hparam : target.params[i]? with
      | none => rfl
      | some param => exact h 0 arg param rfl hparam
    · rwa [← Nat.add_assoc, Nat.add_right_comm]

/-- In a direct call each argument has the width of the type that it is passed as. -/
theorem Call.WellFormed.direct {call : Call} (h : call.WellFormed) (hdirect : call.direct = true) :
    call.arguments.map (·.width) = (passedTypes call.target.type 0 call.inst.args).map (·.typeSizeInBits) := by
  rw [Call.arguments]
  split
  case isTrue => exact coerce_widths h.values
  case isFalse hsame =>
    have htype : call.target.type = call.inst.calledType := by
      by_contra hne
      exact hsame ⟨hdirect, hne⟩
    rw [htype, passedTypes_called fun j ty param hty hparam => h.called j ty param hty (by rwa [Nat.zero_add] at hparam)]
    exact h.values

theorem passedTypes_passable {target : FunctionType} {args : List Ty} (hargs : ∀ ty ∈ args, Passable ty.typeSizeInBits)
    (hparams : ∀ ty ∈ target.params, Passable ty.typeSizeInBits) : ∀ ty ∈ passedTypes target i args, Passable ty.typeSizeInBits := by
  induction args generalizing i with
  | nil => exact fun _ hty => absurd hty List.not_mem_nil
  | cons arg args ih =>
    obtain ⟨harg, hrest⟩ := List.forall_mem_cons.mp hargs
    refine List.forall_mem_cons.mpr ⟨?_, ih hrest⟩
    cases hparam : target.params[i]? with
    | none => exact harg
    | some param => exact hparams param (List.mem_of_getElem? hparam)

theorem Call.WellFormed.passable {call : Call} (h : call.WellFormed) : ∀ c ∈ call.arguments, Passable c.width := by
  intro c hc
  by_cases hdirect : call.direct = true
  · have hwidth := List.mem_map_of_mem (f := (·.width)) hc
    rw [h.direct hdirect] at hwidth
    obtain ⟨ty, hty, heq⟩ := List.mem_map.mp hwidth
    exact heq ▸ passedTypes_passable h.args h.params ty hty
  · rw [Call.arguments, if_neg fun hcond => hdirect hcond.1] at hc
    have hwidth := List.mem_map_of_mem (f := (·.width)) hc
    rw [h.values] at hwidth
    obtain ⟨ty, hty, heq⟩ := List.mem_map.mp hwidth
    exact heq ▸ h.args ty hty

theorem Call.WellFormed.length_eq {call : Call} (h : call.WellFormed) :
    call.arguments.length = (passedTypes call.target.type 0 call.inst.args).length := by
  have hvalues : call.values.length = call.inst.args.length := by simpa using congrArg List.length h.values
  rw [length_passedTypes]
  by_cases hdirect : call.direct = true
  · have hlength := congrArg List.length (h.direct hdirect)
    rwa [List.length_map, List.length_map, length_passedTypes] at hlength
  · rwa [Call.arguments, if_neg fun hcond => hdirect hcond.1]

/-! ### Stubs -/

/-- The target of the first call of the instruction, which may be the call itself. -/
def firstTarget (earlier : List Call) (call : Call) : Function := ((earlier.find? (·.inst = call.inst)).getD call).target

theorem run_eq (calls : List Call) (i : Inst) :
    run resolveSymbol calls i = (calls.find? (·.inst = i)).map fun call => createDispatcher resolveSymbol call.target i := by
  induction calls using List.reverseRecOn with
  | nil => rfl
  | append_singleton calls call ih =>
    have hrun : run resolveSymbol (calls ++ [call]) =
        (executeCall resolveSymbol (run resolveSymbol calls) call.target call.inst).1 := by
      rw [run, List.foldl_append]
      rfl
    rw [hrun, executeCall, List.find?_append]
    cases hfound : run resolveSymbol calls call.inst with
    | some dispatcher =>
      change run resolveSymbol calls i = _
      by_cases hi : call.inst = i
      · subst hi
        rw [hfound] at ih
        obtain ⟨first, hfirst, -⟩ := Option.map_eq_some_iff.mp ih.symm
        rw [hfound, ih, hfirst, Option.some_or]
      · rw [ih, List.find?_singleton, if_neg (by simpa using hi), Option.or_none]
    | none =>
      change Function.update (run resolveSymbol calls) call.inst (some (createDispatcher resolveSymbol call.target call.inst)) i = _
      by_cases hi : call.inst = i
      · subst hi
        rw [hfound] at ih
        rw [Function.update_self, Option.map_eq_none_iff.mp ih.symm, Option.none_or, List.find?_singleton, if_pos (by simp)]
        rfl
      · rw [Function.update_of_ne (Ne.symm hi), ih, List.find?_singleton, if_neg (by simpa using hi), Option.or_none]

theorem executeCall_run (earlier : List Call) (call : Call) :
    (executeCall resolveSymbol (run resolveSymbol earlier) call.target call.inst).2 =
      createDispatcher resolveSymbol (firstTarget earlier call) call.inst := by
  rw [executeCall, run_eq, firstTarget]
  cases earlier.find? (·.inst = call.inst) <;> rfl

/-! ### Calls -/

/-- The stub calls the target, and loads the arguments from the words at which they are stored. Of the width that they have,
they are the same. -/
structure Passes (call : Call) (stub : Stub) (words : Words) (indices : List Nat) : Prop where
  target : stub.target = call.target
  places : stub.loads.map Prod.fst = indices
  values : ∀ (j : Nat) entry c, stub.loads[j]? = some entry → call.arguments[j]? = some c → entry.2.typeSizeInBits = c.width →
    (stub.arguments words)[j]? = some c

/-- The stub that is run passes the arguments, and what it stores as the result is read back. -/
def Reaches (resolveSymbol : String → Bool) (earlier : List Call) (call : Call) : Prop :=
  ∃ words indices, callExternalFunction call = some (words, indices) ∧
    (resolveSymbol call.target.name = true → ∃ stub,
      (executeCall resolveSymbol (run resolveSymbol earlier) call.target call.inst).2 = some stub ∧ Passes call stub words indices) ∧
    ∀ result : Constant, Passable result.width → fromMemory (Stub.storeResult words result) result.width = result

/-- The instruction has had no other target before, and, if the call is not direct, all arguments but the last take as many
words as the types that they are passed as. -/
def Agrees (resolveSymbol : String → Bool) (earlier : List Call) (call : Call) : Prop :=
  resolveSymbol call.target.name = true → firstTarget earlier call = call.target ∧ (call.direct = false →
    (call.arguments.map sizeOf).dropLast = ((passedTypes call.target.type 0 call.inst.args).map wordsOf).dropLast)

theorem Call.WellFormed.direct_sizes {call : Call} (h : call.WellFormed) (hdirect : call.direct = true) :
    call.arguments.map sizeOf = (passedTypes call.target.type 0 call.inst.args).map wordsOf := by
  calc call.arguments.map sizeOf
    _ = (call.arguments.map (·.width)).map fun width => (width + 63) / 64 := by rw [List.map_map]; rfl
    _ = (passedTypes call.target.type 0 call.inst.args).map fun ty => (ty.typeSizeInBits + 63) / 64 := by
      rw [h.direct hdirect, List.map_map]
      rfl
    _ = _ := List.map_congr_left fun ty hty => (wordsOf_eq (passedTypes_passable h.args h.params ty hty)).symm

theorem reaches_iff {earlier : List Call} {call : Call} (h : call.WellFormed) :
    Reaches resolveSymbol earlier call ↔ Agrees resolveSymbol earlier call := by
  obtain ⟨words, hstored, -, hload⟩ := storeArguments_spec 2 (fun _ => 0) call.arguments h.passable
  have hlength : ((passedTypes call.target.type 0 call.inst.args).map wordsOf).length = (call.arguments.map sizeOf).length := by
    rw [List.length_map, List.length_map, h.length_eq]
  have hplaces : (loadsFrom call.target.type 0 2 call.inst.args).map Prod.fst = slots 2 (call.arguments.map sizeOf) ↔
      ((passedTypes call.target.type 0 call.inst.args).map wordsOf).dropLast = (call.arguments.map sizeOf).dropLast := by
    rw [loadsFrom_fst, slots_eq_iff 2 hlength]
  constructor
  · rintro ⟨words', indices, hcall, hreaches, -⟩ hresolve
    obtain ⟨rfl, rfl⟩ := Prod.mk.inj (Option.some.inj (hcall.symm.trans hstored))
    obtain ⟨stub, hstub, htarget, hfst, -⟩ := hreaches hresolve
    rw [executeCall_run] at hstub
    obtain ⟨-, heq⟩ := Option.ite_none_right_eq_some.mp hstub
    obtain rfl := Option.some.inj heq
    have htarget : firstTarget earlier call = call.target := htarget
    refine ⟨htarget, fun _ => (hplaces.mp ?_).symm⟩
    rw [← htarget]
    exact hfst
  · intro hagrees
    refine ⟨words, _, hstored, fun hresolve => ?_, fun result hresult => ?_⟩
    · obtain ⟨htarget, hsizes⟩ := hagrees hresolve
      have hfst : (loadsFrom call.target.type 0 2 call.inst.args).map Prod.fst = slots 2 (call.arguments.map sizeOf) := by
        refine hplaces.mpr ?_
        cases hdirect : call.direct with
        | true => rw [h.direct_sizes hdirect]
        | false => exact (hsizes hdirect).symm
      refine ⟨⟨call.target, loadsFrom call.target.type 0 2 call.inst.args⟩, ?_, rfl, hfst, fun j entry c hentry hc hwidth => ?_⟩
      · rw [executeCall_run, htarget, createDispatcher, if_pos hresolve]
      · have hk : (slots 2 (call.arguments.map sizeOf))[j]? = some entry.1 := by
          rw [← hfst, List.getElem?_map, hentry, Option.map_some]
        have hvalue := hload j c entry.1 hc hk
        obtain ⟨width, value⟩ := c
        obtain rfl : entry.2.typeSizeInBits = width := hwidth
        rw [Stub.arguments, List.getElem?_map, hentry, Option.map_some]
        exact congrArg (fun value => some (Constant.mk _ value)) hvalue
    · exact congrArg (Constant.mk _) (load_store hresult result.value)

/-- In any sequence of calls, all of them reach their targets with their arguments just when no instruction changes its target
and the sizes agree. -/
theorem calls_reach_iff {calls : List Call} (h : ∀ call ∈ calls, call.WellFormed) :
    (∀ earlier call later, calls = earlier ++ call :: later → Reaches resolveSymbol earlier call) ↔
      ∀ earlier call later, calls = earlier ++ call :: later → Agrees resolveSymbol earlier call := by
  refine forall_congr' fun earlier => forall_congr' fun call => forall_congr' fun later => forall_congr' fun hcalls => ?_
  exact reaches_iff (h call (hcalls ▸ List.mem_append_right _ List.mem_cons_self))

/-- A call through a pointer to a function of one word. -/
def pointerCall (target : String) : Call where
  inst := ⟨0, [.int 64], ⟨[.int 64], none, false⟩, []⟩
  target := ⟨target, ⟨[.int 64], none, false⟩⟩
  direct := false
  values := [⟨64, 7⟩]

theorem pointerCall_wellFormed (target : String) : (pointerCall target).WellFormed where
  args := by simp [pointerCall, Passable, Ty.typeSizeInBits]
  params := by simp [pointerCall, Passable, Ty.typeSizeInBits]
  values := rfl
  called i ty param hty hparam := by
    rw [show (pointerCall target).inst.args = (pointerCall target).inst.calledType.params from rfl] at hty
    exact Option.some.inj (hparam.symm.trans hty)

theorem calls_reach_iff_pointerCall :
    (∀ earlier call later, [pointerCall "f", pointerCall "f"] = earlier ++ call :: later → Reaches (fun _ => true) earlier call) ↔
      ∀ earlier call later, [pointerCall "f", pointerCall "f"] = earlier ++ call :: later → Agrees (fun _ => true) earlier call :=
  calls_reach_iff (by simpa using pointerCall_wellFormed "f")

/-- The pointer has another value in the second call, which runs the stub of the first. -/
theorem not_reaches_pointerCall : ¬Reaches (fun _ => true) [pointerCall "f"] (pointerCall "g") := by
  rintro ⟨words, indices, -, hreaches, -⟩
  obtain ⟨stub, hstub, hpasses⟩ := hreaches rfl
  have hfirst : (executeCall (fun _ => true) (run (fun _ => true) [pointerCall "f"]) (pointerCall "g").target (pointerCall "g").inst).2 =
      some ⟨(pointerCall "f").target, [(2, .int 64)]⟩ := rfl
  obtain rfl := Option.some.inj (hstub.symm.trans hfirst)
  exact absurd hpasses.target (by decide)

end CapTaint.ExternalDispatcher
