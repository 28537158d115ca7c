import CapTaint.Lib.OptionLoop
import CapTaint.Theorems.Construct
import CapTaint.Theorems.CexCachingSolver
import CapTaint.Klee.STPSolver

/-! # The solver that asks STP

If STP is right about formulas, the solver is right about queries: the values that it reads from a model of STP are those of a
counterexample, with and without a process for each query, and the other answers follow. -/

namespace CapTaint.Klee

/-! ### STP -/

/-- The functions for terms are as documented, a model of STP satisfies the asserted formulas and refutes the query, and there is
    one if there can be. -/
structure Stp.Right (stp : Stp) : Prop where
  documented : @STP.Documented stp.toSTP
  division : stp.division.Exact
  refutes : ∀ fs q m, stp.vc_query fs q = some m → (∀ f ∈ fs, f m = some (.bool true)) ∧ q m = some (.bool false)
  finds : ∀ fs q m, stp.vc_query fs q = none → (∀ f ∈ fs, f m = some (.bool true)) → q m ≠ some (.bool false)

/-! ### Queries -/

/-- A query that STP can be asked. Where part of it depends on what only STP decides, a constraint that does not is false. -/
structure Query.Handled (optimizeDivides : Bool) (query : Query) : Prop extends query.WellFormed where
  supported : ∀ e ∈ query.expr :: query.constraints, e.Supported optimizeDivides
  guarded : ∀ v, (∀ e ∈ query.expr :: query.constraints, e.Regular v) ∨ ∃ c ∈ query.constraints, c.Regular v ∧ ¬c.Holds v

/-- An array whose bytes can be asked for. -/
structure Array.Readable (array : Array) : Prop where
  symbolic : array.isSymbolicArray = true
  domain : array.domain = 32
  range : array.range = 8
  size_le : array.size ≤ 2 ^ 32

mutual
theorem Expr.sound_congr {opt div : Bool} {v v' : Valuation} : (e : Expr) →
    (∀ array i, e.Reads v array i → array.initial v i = array.initial v' i) → e.Sound opt div v → e.Sound opt div v'
  | .constant _ _, _, _ => trivial
  | .notOptimized e, h, hs | .extract e _ _, h, hs | .zext e _, h, hs | .sext e _, h, hs | .not e, h, hs =>
    Expr.sound_congr e h hs
  | .read ul index, h, hs => by
    refine ⟨UpdateList.sound_congr ul _ (fun array i hr => h array i (.inr hr)) hs.1,
      Expr.sound_congr index (fun array i hr => h array i (.inl hr)) hs.2.1, fun hopt hconstant => ?_⟩
    rw [← Expr.value_congr index fun array i hr => h array i (.inl hr)]
    exact hs.2.2 hopt hconstant
  | .select c t f, h, hs => ⟨Expr.sound_congr c (fun array i hr => h array i (.inl hr)) hs.1,
    Expr.sound_congr t (fun array i hr => h array i (.inr (.inl hr))) hs.2.1,
    Expr.sound_congr f (fun array i hr => h array i (.inr (.inr hr))) hs.2.2⟩
  | .concat l r, h, hs | .cmp _ l r, h, hs => ⟨Expr.sound_congr l (fun array i hr => h array i (.inl hr)) hs.1,
    Expr.sound_congr r (fun array i hr => h array i (.inr hr)) hs.2⟩
  | .arith kind l r, h, hs => by
    refine ⟨Expr.sound_congr l (fun array i hr => h array i (.inl hr)) hs.1,
      Expr.sound_congr r (fun array i hr => h array i (.inr hr)) hs.2.1, fun hdiv hkind => ?_⟩
    rw [← Expr.value_congr r fun array i hr => h array i (.inr hr)]
    exact hs.2.2 hdiv hkind

theorem UpdateList.sound_congr {opt div : Bool} {v v' : Valuation} : (ul : UpdateList) → (index : Nat) →
    (∀ array i, ul.Reads v array i index → array.initial v i = array.initial v' i) → ul.Sound opt div v → ul.Sound opt div v'
  | .root _, _, _, _ => trivial
  | .extend next updateIndex stored, index, h, hs =>
    ⟨UpdateList.sound_congr next index (fun array i hr => h array i (.inr (.inr hr))) hs.1,
      Expr.sound_congr updateIndex (fun array i hr => h array i (.inl hr)) hs.2.1,
      Expr.sound_congr stored (fun array i hr => h array i (.inr (.inl hr))) hs.2.2⟩
end

namespace STPSolverImpl
open STPBuilder Term

variable {stp : Stp} {cfg : Config} {query : Query} {objects : List Array} {st st' : State} {m : Valuation}

/-! ### Formulas -/

theorem construct_bool {e : Expr} (hstp : stp.Right) (he : e.Typed 1) (hsupported : e.Supported cfg.optimizeDivides)
    (hregular : e.Regular m) : construct stp cfg e m = some (.bool (e.value m = 1)) :=
  @constructTerm_bool _ _ _ stp.toSTP hstp.documented cfg.useConstructHash hstp.division e he hsupported hregular

/-- In a model that refutes the formulas of a query, the query is refuted. -/
theorem refutes_of_model (hstp : stp.Right) (hquery : query.Handled cfg.optimizeDivides)
    (hconstraints : ∀ f ∈ query.constraints.map (construct stp cfg), f m = some (.bool true))
    (hexpr : construct stp cfg query.expr m = some (.bool false)) : query.Refutes m := by
  have hholds {c : Expr} (hc : c ∈ query.constraints) (hregular : c.Regular m) : c.Holds m := by
    have hterm := construct_bool hstp (hquery.constraints c hc) (hquery.supported c (List.mem_cons_of_mem _ hc)) hregular
    rw [hconstraints _ (List.mem_map_of_mem hc)] at hterm
    have htrue : decide (c.value m = 1) = true := (STPExpr.bool.inj (Option.some.inj hterm)).symm
    have hvalue : c.value m = 1 := of_decide_eq_true htrue
    exact hvalue
  rcases hquery.guarded m with hall | ⟨c, hc, hregular, hfalse⟩
  · refine ⟨fun c hc => hholds hc (hall c (List.mem_cons_of_mem _ hc)), ?_⟩
    have hterm := construct_bool hstp hquery.expr (hquery.supported _ List.mem_cons_self) (hall _ List.mem_cons_self)
    rw [hexpr] at hterm
    have hfalse : decide (query.expr.value m = 1) = false := (STPExpr.bool.inj (Option.some.inj hterm)).symm
    have hvalue : ¬query.expr.value m = 1 := of_decide_eq_false hfalse
    exact hvalue
  · exact absurd (hholds hc hregular) hfalse

theorem model_of_refutes (hstp : stp.Right) (hquery : query.Handled cfg.optimizeDivides) (hm : query.Refutes m) :
    (∀ f ∈ query.constraints.map (construct stp cfg), f m = some (.bool true)) ∧
      construct stp cfg query.expr m = some (.bool false) := by
  have hall : ∀ e ∈ query.expr :: query.constraints, e.Regular m := by
    rcases hquery.guarded m with hall | ⟨c, hc, -, hfalse⟩
    · exact hall
    · exact absurd (hm.satisfies c hc) hfalse
  constructor
  · intro f hf
    obtain ⟨c, hc, rfl⟩ := List.mem_map.mp hf
    have hmem := List.mem_cons_of_mem query.expr hc
    rw [construct_bool hstp (hquery.constraints c hc) (hquery.supported c hmem) (hall c hmem)]
    exact congrArg (fun b => some (STPExpr.bool b)) (decide_eq_true (show c.value m = 1 from hm.satisfies c hc))
  · rw [construct_bool hstp hquery.expr (hquery.supported _ List.mem_cons_self) (hall _ List.mem_cons_self)]
    exact congrArg (fun b => some (STPExpr.bool b)) (decide_eq_false (show ¬query.expr.value m = 1 from hm.expr))

/-! ### Values -/

/-- The elements as the arrays of STP hold them. -/
def stored (m : Valuation) : Valuation := fun array i => m array i % 2 ^ array.range

theorem initial_stored (m : Valuation) (array : Array) (i : Nat) : array.initial (stored m) i = array.initial m i := by
  unfold Array.initial stored
  rw [Nat.mod_mod]

theorem value_stored (m : Valuation) (e : Expr) : e.value (stored m) = e.value m :=
  e.value_congr fun array i _ => initial_stored m array i

theorem refutes_stored (hm : query.Refutes m) : query.Refutes (stored m) where
  satisfies c hc := (value_stored m c).trans (hm.satisfies c hc)
  expr := by
    rw [Expr.Holds, value_stored]
    exact hm.expr

theorem getInitialRead_eq [STP] [STP.Documented] {array : Array} (harray : array.Readable) {i : Nat} (hi : i < array.size) :
    getInitialRead m array i = some (.bv (ofInt 8 (m array i % 2 ^ 8 : Nat))) := by
  have hlt : i < 2 ^ 32 := hi.trans_le harray.size_le
  have hconstant : ¬array.isConstantArray = true := by
    rw [Array.isConstantArray, harray.symbolic]
    exact Bool.false_ne_true
  rw [getInitialRead, getInitialArray, if_neg hconstant, bvConst32_eq hlt hlt]
  simp only [Option.bind_eq_bind, Option.bind_some, STP.Documented.readExpr, STP.readArray, STPExpr.asBv, width_ofInt,
    harray.domain, if_true, value_ofNat hlt, harray.range]

theorem getCounterExample_eq (hstp : stp.Right) {array : Array} (harray : array.Readable) :
    getCounterExample stp m array = some ((List.range array.size).map (stored m array)) := by
  have hbyte (i : Nat) (hi : i < array.size) : (do
      let counter ← @getInitialRead stp.toSTP m array i
      return (← counter.asBv).value % 256 : Option Nat) = some (stored m array i) := by
    have hlt : m array i % 2 ^ 8 < 2 ^ 8 := Nat.mod_lt _ (Nat.two_pow_pos 8)
    rw [@getInitialRead_eq _ stp.toSTP hstp.documented _ harray _ hi, stored, harray.range]
    show some ((ofInt 8 (m array i % 2 ^ 8 : Nat)).value % 256) = _
    rw [value_ofNat hlt]
    exact congrArg some (Nat.mod_eq_of_lt hlt)
  exact OptionLoop.mapM_eq_some fun i hi => hbyte i (List.mem_range.mp hi)

theorem getCounterExamples_eq (hstp : stp.Right) (hobjects : ∀ array ∈ objects, array.Readable) :
    objects.mapM (getCounterExample stp m) = some (bytesOf (stored m) objects) :=
  OptionLoop.mapM_eq_some fun array harray => getCounterExample_eq hstp (hobjects array harray)

/-- The shared memory is read as it was written. -/
theorem readMemory_bytesOf (v : Valuation) (objects : List Array) : readMemory objects (bytesOf v objects).flatten = bytesOf v objects := by
  induction objects with
  | nil => rfl
  | cons array objects ih =>
    have hlength : ((List.range array.size).map (v array)).length = array.size := by rw [List.length_map, List.length_range]
    show ((((List.range array.size).map (v array)) ++ (bytesOf v objects).flatten).take array.size ::
      readMemory objects ((((List.range array.size).map (v array)) ++ (bytesOf v objects).flatten).drop array.size)) = _
    rw [List.take_left' hlength, List.drop_left' hlength, ih]
    rfl

/-! ### Initial values -/

/-- What STP answers about the formulas of a query is right about the query. -/
theorem vc_query_right (hstp : stp.Right) (hquery : query.Handled cfg.optimizeDivides) :
    match stp.vc_query (query.constraints.map (construct stp cfg)) (construct stp cfg query.expr) with
    | none => query.Valid
    | some m => query.Refutes m := by
  split
  case h_1 hnone =>
    refine Query.valid_iff.mpr fun v hv => ?_
    obtain ⟨hconstraints, hexpr⟩ := model_of_refutes hstp hquery hv
    exact hstp.finds _ _ v hnone hconstraints hexpr
  case h_2 m hm =>
    obtain ⟨hconstraints, hexpr⟩ := hstp.refutes _ _ m hm
    exact refutes_of_model hstp hquery hconstraints hexpr

theorem runAndGetCex_right (hstp : stp.Right) (hquery : query.Handled cfg.optimizeDivides)
    (hobjects : ∀ array ∈ objects, array.Readable) :
    ∃ status values, runAndGetCex stp (query.constraints.map (construct stp cfg)) (construct stp cfg query.expr) objects =
      some (status, values) ∧ query.HasInitialValues objects values := by
  have hright := vc_query_right hstp hquery
  unfold runAndGetCex
  cases hm : stp.vc_query (query.constraints.map (construct stp cfg)) (construct stp cfg query.expr) with
  | none =>
    rw [hm] at hright
    exact ⟨_, _, rfl, hright⟩
  | some m =>
    rw [hm] at hright
    refine ⟨.SUCCESS_SOLVABLE, some (bytesOf (stored m) objects), ?_, stored m, refutes_stored hright, rfl⟩
    simp only [getCounterExamples_eq hstp hobjects]
    rfl

/-- A process of its own finds the same, if it comes to its end. -/
theorem runAndGetCexForked_right (hstp : stp.Right) (hquery : query.Handled cfg.optimizeDivides)
    (hobjects : ∀ array ∈ objects, array.Readable) {fate : Fate} {status : SolverRunStatus} {values : Option (List (List Nat))}
    (h : runAndGetCexForked stp cfg fate (query.constraints.map (construct stp cfg)) (construct stp cfg query.expr) objects =
      some (status, values)) (hsuccess : SUCCESS status = true) : query.HasInitialValues objects values := by
  have hfailed {code : SolverRunStatus} (hcode : SUCCESS code = false) (h : failed cfg code = some (status, values)) : False := by
    unfold failed at h
    split at h
    case isTrue =>
      obtain ⟨rfl, rfl⟩ := Prod.mk.inj (Option.some.inj h)
      exact Bool.false_ne_true (hcode.symm.trans hsuccess)
    case isFalse => cases h
  have hright := vc_query_right hstp hquery
  unfold runAndGetCexForked at h
  split at h
  case isTrue => cases h
  case isFalse =>
    cases fate with
    | forkFailed => exact (hfailed rfl h).elim
    | waitFailed => exact (hfailed rfl h).elim
    | interrupted => exact (hfailed rfl h).elim
    | unexpectedExitCode => exact (hfailed rfl h).elim
    | timedOut =>
      obtain ⟨rfl, rfl⟩ := Prod.mk.inj (Option.some.inj h)
      exact absurd hsuccess (by decide)
    | exited =>
      cases hm : stp.vc_query (query.constraints.map (construct stp cfg)) (construct stp cfg query.expr) with
      | none =>
        rw [hm] at hright h
        obtain ⟨rfl, rfl⟩ := Prod.mk.inj (Option.some.inj h)
        exact hright
      | some m =>
        rw [hm] at hright h
        simp only [getCounterExamples_eq hstp hobjects, readMemory_bytesOf, Option.ite_none_left_eq_some] at h
        obtain ⟨rfl, rfl⟩ := Prod.mk.inj (Option.some.inj h.2)
        exact ⟨stored m, refutes_stored hright, rfl⟩

/-- Whatever becomes of the process, the solver goes on, as long as failures are ignored and the bytes fit the shared memory. -/
theorem runAndGetCexForked_returns (hstp : stp.Right) (hignore : cfg.ignoreSolverFailures = true)
    (hobjects : ∀ array ∈ objects, array.Readable) (hsize : (objects.map (·.size)).sum < 2 ^ 20) (fate : Fate)
    (constraints : List Formula) (q : Formula) :
    ∃ r, runAndGetCexForked stp cfg fate constraints q objects = some r := by
  unfold runAndGetCexForked failed
  rw [if_neg (by omega), hignore]
  cases fate with
  | exited =>
    cases stp.vc_query constraints q with
    | none => exact ⟨_, rfl⟩
    | some m =>
      simp only [getCounterExamples_eq hstp hobjects, if_neg (not_le.mpr hsize)]
      exact ⟨_, rfl⟩
  | forkFailed | waitFailed | interrupted | timedOut | unexpectedExitCode => exact ⟨_, rfl⟩

theorem computeInitialValues_right (hstp : stp.Right) (hquery : query.Handled cfg.optimizeDivides)
    (hobjects : ∀ array ∈ objects, array.Readable) {values : Option (List (List Nat))}
    (h : computeInitialValues stp cfg query objects st = some (some values, st')) : query.HasInitialValues objects values := by
  unfold computeInitialValues at h
  split at h
  case isTrue =>
    obtain ⟨⟨status, found⟩, hrun, h⟩ := Option.bind_eq_some_iff.mp h
    have hresult := congrArg Prod.fst (Option.some.inj h)
    dsimp only at hresult
    split at hresult
    case isTrue hsuccess =>
      obtain rfl := Option.some.inj hresult
      exact runAndGetCexForked_right hstp hquery hobjects hrun hsuccess
    case isFalse => cases hresult
  case isFalse =>
    obtain ⟨status, found, hrun, hright⟩ := runAndGetCex_right hstp hquery hobjects
    dsimp only at h
    rw [hrun] at h
    obtain rfl : found = values := Option.some.inj (congrArg Prod.fst (Option.some.inj h))
    exact hright

/-- Without processes there is always an answer. -/
theorem computeInitialValues_given (hstp : stp.Right) (hfork : cfg.useForkedSTP = false) (hquery : query.Handled cfg.optimizeDivides)
    (hobjects : ∀ array ∈ objects, array.Readable) (st : State) :
    ∃ values st', computeInitialValues stp cfg query objects st = some (some values, st') := by
  obtain ⟨status, values, hrun, -⟩ := runAndGetCex_right hstp hquery hobjects
  refine ⟨values, { st with runStatusCode := status }, ?_⟩
  rw [computeInitialValues, hfork, hrun]
  rfl

/-! ### The other answers -/

theorem computeTruth_right (hstp : stp.Right) (hquery : query.Handled cfg.optimizeDivides) {isValid : Bool}
    (h : computeTruth stp cfg query st = some (some isValid, st')) : isValid = true ↔ query.Valid := by
  obtain ⟨⟨result, st₁⟩, hvalues, h⟩ := Option.bind_eq_some_iff.mp h
  have hresult := congrArg Prod.fst (Option.some.inj h)
  obtain ⟨values, rfl, hvalid⟩ := Option.map_eq_some_iff.mp hresult
  have hright := computeInitialValues_right hstp hquery (by simp) hvalues
  subst hvalid
  cases values with
  | none => exact iff_of_true rfl hright
  | some values =>
    obtain ⟨v, hv, -⟩ := hright
    exact iff_of_false Bool.false_ne_true fun hvalid => Query.valid_iff.mp hvalid v hv

theorem computeTruth_given (hstp : stp.Right) (hfork : cfg.useForkedSTP = false) (hquery : query.Handled cfg.optimizeDivides)
    (st : State) : ∃ isValid st', computeTruth stp cfg query st = some (some isValid, st') := by
  obtain ⟨values, st', hvalues⟩ := computeInitialValues_given hstp hfork hquery (List.forall_mem_nil _) st
  refine ⟨values.isNone, st', ?_⟩
  rw [computeTruth, hvalues]
  rfl

theorem computeValidity_right (hstp : stp.Right) (opt : Bool) (hquery : query.Handled cfg.optimizeDivides)
    (hnegated : ∀ n, query.expr.createIsZero opt = .ok n → (query.withExpr n).Handled cfg.optimizeDivides) {validity : Validity}
    (h : computeValidity stp cfg opt query st = some (some validity, st')) : query.HasValidity validity := by
  obtain ⟨n, hzero, hnegate, -, hholds⟩ := Query.negateExpr_spec opt hquery.toWellFormed
  obtain ⟨⟨isValid, st₁⟩, htruth, h⟩ := Option.bind_eq_some_iff.mp h
  cases isValid with
  | none => cases congrArg Prod.fst (Option.some.inj h)
  | some isValid =>
    have hvalid := computeTruth_right hstp hquery htruth
    cases isValid with
    | true =>
      obtain rfl : .True = validity := Option.some.inj (congrArg Prod.fst (Option.some.inj h))
      exact hvalid.mp rfl
    | false =>
      have hnot : ¬query.Valid := fun hv => Bool.false_ne_true (hvalid.mpr hv)
      obtain ⟨negated, hsome, h⟩ := Option.bind_eq_some_iff.mp h
      rw [hnegate] at hsome
      obtain rfl := Option.some.inj hsome
      obtain ⟨⟨isRefuted, st₂⟩, htruth₂, h⟩ := Option.bind_eq_some_iff.mp h
      have hresult := congrArg Prod.fst (Option.some.inj h)
      obtain ⟨isRefuted, rfl, hvalidity⟩ := Option.map_eq_some_iff.mp hresult
      have hrefuted := (computeTruth_right hstp (hnegated n hzero) htruth₂).trans (Query.valid_withExpr_iff hholds)
      subst hvalidity
      cases isRefuted with
      | true => exact hrefuted.mp rfl
      | false => exact ⟨hnot, fun hr => Bool.false_ne_true (hrefuted.mpr hr)⟩

theorem computeValidity_given (hstp : stp.Right) (hfork : cfg.useForkedSTP = false) (opt : Bool)
    (hquery : query.Handled cfg.optimizeDivides)
    (hnegated : ∀ n, query.expr.createIsZero opt = .ok n → (query.withExpr n).Handled cfg.optimizeDivides) (st : State) :
    ∃ validity st', computeValidity stp cfg opt query st = some (some validity, st') := by
  obtain ⟨n, hzero, hnegate, -⟩ := Query.negateExpr_spec opt hquery.toWellFormed
  obtain ⟨isValid, st₁, htruth⟩ := computeTruth_given hstp hfork hquery st
  rw [computeValidity, htruth]
  cases isValid with
  | true => exact ⟨_, _, rfl⟩
  | false =>
    obtain ⟨isRefuted, st₂, htruth₂⟩ := computeTruth_given hstp hfork (hnegated n hzero) st₁
    refine ⟨if isRefuted then .False else .Unknown, st₂, ?_⟩
    simp only [Option.bind_eq_bind, Option.bind_some, hnegate, Except.toOption, htruth₂]
    rfl

/-- A query for the value of an expression of any width. -/
structure Valued (optimizeDivides opt : Bool) (query : Query) : Prop where
  asked : query.withFalse.Handled optimizeDivides
  satisfiable : query.Satisfiable
  typed : query.expr.WellTyped
  plain : query.expr.Plain
  divisors : ∀ v, query.Satisfies v → query.expr.Sound opt true v
  objects : ∀ array ∈ findSymbolicObjects [query.expr], array.Readable

/-- The expression evaluates to its value in a model of the constraints, although other arrays have no bytes. -/
theorem evaluate_bytesOf {opt : Bool} (useVisitorHash : Bool) (hquery : Valued cfg.optimizeDivides opt query) {v : Valuation}
    (hv : query.Satisfies v) :
    (Assignment.ofValues (findSymbolicObjects [query.expr]) (bytesOf v (findSymbolicObjects [query.expr]))).evaluate opt
      useVisitorHash query.expr = .ok (.constant query.expr.getWidth (query.expr.bits v query.expr.getWidth)) := by
  have hsymbolic : ∀ array ∈ findSymbolicObjects [query.expr], array.isSymbolicArray = true := fun array =>
    isSymbolicArray_of_mem
  have hwell := Assignment.wellFormed_ofValues v hsymbolic
  have hreads (array : Array) (i : Nat) (hr : query.expr.Reads v array i) : array.initial v i = array.initial
      (Assignment.ofValues (findSymbolicObjects [query.expr]) (bytesOf v (findSymbolicObjects [query.expr]))).byteOf i := by
    by_cases hsymbolic : array.isSymbolicArray = true
    · exact (Assignment.initial_ofValues v (mem_findSymbolicObjects hsymbolic List.mem_cons_self hr) i).symm
    · have hconstant : array.isConstantArray = true := by
        rw [Array.isConstantArray, Bool.eq_false_of_not_eq_true hsymbolic]
        rfl
      rw [Array.initial, Array.initial, if_pos hconstant, if_pos hconstant]
  rw [Assignment.evaluate_spec hwell (.self hquery.typed) hquery.plain (Expr.sound_congr _ hreads (hquery.divisors v hv)),
    Expr.bits, Expr.bits, Expr.value_congr _ hreads]

theorem computeValue_right (hstp : stp.Right) (opt useVisitorHash : Bool) (hquery : Valued cfg.optimizeDivides opt query) {value : Expr}
    (h : computeValue stp cfg opt useVisitorHash query st = some (some value, st')) :
    ∃ v, query.Satisfies v ∧ value = .constant query.expr.getWidth (query.expr.bits v query.expr.getWidth) := by
  obtain ⟨⟨result, st₁⟩, hvalues, h⟩ := Option.bind_eq_some_iff.mp h
  cases result with
  | none => cases congrArg Prod.fst (Option.some.inj h)
  | some values =>
    have hright := computeInitialValues_right hstp hquery.asked hquery.objects hvalues
    cases values with
    | none => cases h
    | some values =>
      obtain ⟨v, hv, rfl⟩ := hright
      have hsatisfies : query.Satisfies v := hv.satisfies
      simp only [evaluate_bytesOf useVisitorHash hquery hsatisfies] at h
      exact ⟨v, hsatisfies, (Option.some.inj (congrArg Prod.fst (Option.some.inj h))).symm⟩

theorem computeValue_given (hstp : stp.Right) (hfork : cfg.useForkedSTP = false) (opt useVisitorHash : Bool)
    (hquery : Valued cfg.optimizeDivides opt query) (st : State) :
    ∃ value st', computeValue stp cfg opt useVisitorHash query st = some (some value, st') := by
  obtain ⟨values, st', hvalues⟩ := computeInitialValues_given hstp hfork hquery.asked hquery.objects st
  have hright := computeInitialValues_right hstp hquery.asked hquery.objects hvalues
  cases values with
  | none =>
    -- the constraints are satisfiable, so that false does not follow
    obtain ⟨v, hv⟩ := hquery.satisfiable
    exact absurd (hright v hv) (show ¬(0 : Nat) = 1 by decide)
  | some values =>
    obtain ⟨v, hv, rfl⟩ := hright
    have hsatisfies : query.Satisfies v := hv.satisfies
    refine ⟨.constant query.expr.getWidth (query.expr.bits v query.expr.getWidth), st', ?_⟩
    rw [computeValue, hvalues]
    simp only [Option.bind_eq_bind, Option.bind_some, evaluate_bytesOf useVisitorHash hquery hsatisfies]
    rfl

/-! ### Runs -/

open CexCachingSolver (Request Answer)

/-- A request that the solver can be asked. -/
def Proper (cfg : Config) (opt : Bool) : Request → Prop
  | .validity query => query.Handled cfg.optimizeDivides ∧
    ∀ n, query.expr.createIsZero opt = .ok n → (query.withExpr n).Handled cfg.optimizeDivides
  | .truth query => query.Handled cfg.optimizeDivides
  | .value query => Valued cfg.optimizeDivides opt query
  | .initialValues query objects => query.Handled cfg.optimizeDivides ∧ ∀ array ∈ objects, array.Readable

/-- The answer of a solver without success. -/
def Failed : Answer → Prop
  | .validity _ result => result = none
  | .truth _ result => result = none
  | .value _ result => result = none
  | .initialValues _ _ result => result = none

theorem step_right (hstp : stp.Right) (opt useVisitorHash : Bool) {request : Request} (hrequest : Proper cfg opt request)
    {answer : Answer} (h : step stp cfg opt useVisitorHash st request = some (answer, st')) :
    answer.request = request ∧ (Failed answer ∨ answer.Right) := by
  cases request with
  | validity query =>
    obtain ⟨⟨result, st₁⟩, hresult, h⟩ := Option.bind_eq_some_iff.mp h
    obtain ⟨rfl, rfl⟩ := Prod.mk.inj (Option.some.inj h)
    refine ⟨rfl, ?_⟩
    cases result with
    | none => exact .inl rfl
    | some validity => exact .inr ⟨validity, rfl, computeValidity_right hstp opt hrequest.1 hrequest.2 hresult⟩
  | truth query =>
    obtain ⟨⟨result, st₁⟩, hresult, h⟩ := Option.bind_eq_some_iff.mp h
    obtain ⟨rfl, rfl⟩ := Prod.mk.inj (Option.some.inj h)
    refine ⟨rfl, ?_⟩
    cases result with
    | none => exact .inl rfl
    | some isValid => exact .inr ⟨isValid, rfl, computeTruth_right hstp hrequest hresult⟩
  | value query =>
    obtain ⟨⟨result, st₁⟩, hresult, h⟩ := Option.bind_eq_some_iff.mp h
    obtain ⟨rfl, rfl⟩ := Prod.mk.inj (Option.some.inj h)
    refine ⟨rfl, ?_⟩
    cases result with
    | none => exact .inl rfl
    | some value =>
      obtain ⟨v, hv, rfl⟩ := computeValue_right hstp opt useVisitorHash hrequest hresult
      exact .inr ⟨_, _, v, rfl, hv, .self hrequest.typed, rfl⟩
  | initialValues query objects =>
    obtain ⟨⟨result, st₁⟩, hresult, h⟩ := Option.bind_eq_some_iff.mp h
    obtain ⟨rfl, rfl⟩ := Prod.mk.inj (Option.some.inj h)
    refine ⟨rfl, ?_⟩
    cases result with
    | none => exact .inl rfl
    | some values => exact .inr ⟨values, rfl, computeInitialValues_right hstp hrequest.1 hrequest.2 hresult⟩

theorem step_given (hstp : stp.Right) (hfork : cfg.useForkedSTP = false) (opt useVisitorHash : Bool) {request : Request}
    (hrequest : Proper cfg opt request) (st : State) :
    ∃ answer st', step stp cfg opt useVisitorHash st request = some (answer, st') ∧ ¬Failed answer := by
  cases request with
  | validity query =>
    obtain ⟨validity, st', h⟩ := computeValidity_given hstp hfork opt hrequest.1 hrequest.2 st
    exact ⟨.validity query (some validity), st', by rw [step, h]; rfl, Option.some_ne_none _⟩
  | truth query =>
    obtain ⟨isValid, st', h⟩ := computeTruth_given hstp hfork hrequest st
    exact ⟨.truth query (some isValid), st', by rw [step, h]; rfl, Option.some_ne_none _⟩
  | value query =>
    obtain ⟨value, st', h⟩ := computeValue_given hstp hfork opt useVisitorHash hrequest st
    exact ⟨.value query (some value), st', by rw [step, h]; rfl, Option.some_ne_none _⟩
  | initialValues query objects =>
    obtain ⟨values, st', h⟩ := computeInitialValues_given hstp hfork hrequest.1 hrequest.2 st
    exact ⟨.initialValues query objects (some values), st', by rw [step, h]; rfl, Option.some_ne_none _⟩

theorem run_right (hstp : stp.Right) (opt useVisitorHash : Bool) (requests : List Request)
    (hrequests : ∀ request ∈ requests, Proper cfg opt request) : ∀ (st : State) (answers : List Answer),
    run stp cfg opt useVisitorHash st requests = some (answers, st') →
      answers.map Answer.request = requests ∧ ∀ answer ∈ answers, Failed answer ∨ answer.Right := by
  induction requests with
  | nil =>
    intro st answers h
    obtain ⟨rfl, rfl⟩ := Prod.mk.inj (Option.some.inj h)
    exact ⟨rfl, by simp⟩
  | cons request requests ih =>
    intro st answers h
    obtain ⟨hrequest, hrest⟩ := List.forall_mem_cons.mp hrequests
    obtain ⟨⟨answer, st₁⟩, hstep, h⟩ := Option.bind_eq_some_iff.mp h
    obtain ⟨⟨answers₁, st₂⟩, hrun, h⟩ := Option.bind_eq_some_iff.mp h
    obtain ⟨rfl, rfl⟩ := Prod.mk.inj (Option.some.inj h)
    obtain ⟨hanswer, hright⟩ := step_right hstp opt useVisitorHash hrequest hstep
    obtain ⟨hanswers, hrights⟩ := ih hrest st₁ answers₁ hrun
    exact ⟨by rw [List.map_cons, hanswer, hanswers], List.forall_mem_cons.mpr ⟨hright, hrights⟩⟩

theorem run_given (hstp : stp.Right) (hfork : cfg.useForkedSTP = false) (opt useVisitorHash : Bool) (requests : List Request)
    (hrequests : ∀ request ∈ requests, Proper cfg opt request) : ∀ st : State,
    ∃ answers st', run stp cfg opt useVisitorHash st requests = some (answers, st') ∧ ∀ answer ∈ answers, ¬Failed answer := by
  induction requests with
  | nil => exact fun st => ⟨[], st, rfl, by simp⟩
  | cons request requests ih =>
    intro st
    obtain ⟨hrequest, hrest⟩ := List.forall_mem_cons.mp hrequests
    obtain ⟨answer, st₁, hstep, hanswer⟩ := step_given hstp hfork opt useVisitorHash hrequest st
    obtain ⟨answers, st₂, hrun, hanswers⟩ := ih hrest st₁
    refine ⟨answer :: answers, st₂, ?_, List.forall_mem_cons.mpr ⟨hanswer, hanswers⟩⟩
    rw [run, hstep]
    simp only [Option.bind_eq_bind, Option.bind_some, hrun]
    rfl

open Classical in
/-- STP that finds a model whenever there is one, whether or not a program can. -/
noncomputable def exactStp : Stp where
  toSTP := STP.values
  division kind _ x y := kind.eval x y
  vc_query fs q :=
    if h : ∃ m, (∀ f ∈ fs, f m = some (.bool true)) ∧ q m = some (.bool false) then some h.choose else none

theorem exactStp_right : exactStp.Right where
  documented := STP.values_documented
  division _ _ _ _ _ _ := rfl
  refutes fs q m h := by
    simp only [exactStp] at h
    split at h
    case isTrue hex => exact Option.some.inj h ▸ hex.choose_spec
    case isFalse => cases h
  finds fs q m h hfs hq := by
    simp only [exactStp] at h
    split at h
    case isTrue => cases h
    case isFalse hnone => exact hnone ⟨m, hfs, hq⟩

theorem isSix_handled : CexCachingSolver.isSix.Handled true := by
  refine ⟨CexCachingSolver.isSix_asked.toWellFormed, ?_, fun v => .inl ?_⟩
  · simp [CexCachingSolver.isSix, CexCachingSolver.firstByte, Expr.Supported, UpdateList.Supported]
  · simp [CexCachingSolver.isSix, CexCachingSolver.firstByte, Expr.Regular, UpdateList.Regular, UpdateList.Inside, Expr.value]

/-- A process for each query, and failures are ignored. -/
def forkedCfg : Config := ⟨true, true, true, true⟩

/-- The four bytes that `isSix` reads. -/
def fourBytes : Array := ⟨0, 4, 32, 8, []⟩

theorem fourBytes_readable : ∀ array ∈ [fourBytes], array.Readable :=
  List.forall_mem_singleton.mpr ⟨rfl, rfl, rfl, by decide⟩

/-- The first process is stopped, the second one comes to its end. -/
theorem run_forked_six : ∃ answers st', run exactStp forkedCfg false true ⟨.FAILURE, [.timedOut, .exited]⟩
    [.truth CexCachingSolver.isSix, .initialValues CexCachingSolver.isSix [fourBytes]] = some (answers, st') := by
  obtain ⟨r, hr⟩ : ∃ r, runAndGetCexForked exactStp forkedCfg .exited
      (CexCachingSolver.isSix.constraints.map (construct exactStp forkedCfg))
      (construct exactStp forkedCfg CexCachingSolver.isSix.expr) [fourBytes] = some r :=
    runAndGetCexForked_returns exactStp_right rfl fourBytes_readable (by decide) _ _ _
  have htruth : computeTruth exactStp forkedCfg CexCachingSolver.isSix ⟨.FAILURE, [.timedOut, .exited]⟩ =
      some (none, ⟨.TIMEOUT, [.exited]⟩) := rfl
  have hvalues : computeInitialValues exactStp forkedCfg CexCachingSolver.isSix [fourBytes] ⟨.TIMEOUT, [.exited]⟩ =
      some (if SUCCESS r.1 then some r.2 else none, ⟨r.1, []⟩) := by
    show (runAndGetCexForked exactStp forkedCfg .exited _ _ [fourBytes] >>= _) = _
    rw [hr]
    rfl
  refine ⟨[.truth CexCachingSolver.isSix none,
    .initialValues CexCachingSolver.isSix [fourBytes] (if SUCCESS r.1 then some r.2 else none)], ⟨r.1, []⟩, ?_⟩
  simp only [run, step, htruth, hvalues, Option.bind_eq_bind, Option.bind_some, Option.pure_def]

end STPSolverImpl
end CapTaint.Klee
