import CapTaint.Klee.SolverChain
import CapTaint.Theorems.CachingSolver
import CapTaint.Theorems.ServedQueries

/-! # The chain of solvers

Each wrapper answers the queries that the wrapped solver can be asked, and asks only such queries. So does the chain, in any
combination of its options. -/

namespace CapTaint.Klee

/-! ### Solvers that answer -/

/-- A call keeps what its solver relies on. An answer is right, and there is one if the solver does not fail. -/
structure Answered {σ α : Type} (I : σ → Prop) (given : Prop) (right : α → Prop) (result : Option α × σ) : Prop where
  kept : I result.2
  right : ∀ a, result.1 = some a → right a
  given : given → result.1 ≠ none

/-- The solver answers the queries that the chain can be asked. -/
structure SolverImpl.Serves {σ : Type} (impl : SolverImpl σ) (cfg : CexCachingSolver.Config) (optimizeDivides : Bool) (I : σ → Prop)
    (given : Prop) :
    Prop where
  truth : ∀ query s, query.Served cfg optimizeDivides → I s →
    Answered I given (fun isValid => isValid = true ↔ query.Valid) (impl.computeTruth query s)
  validity : ∀ query s, query.Served cfg optimizeDivides → I s → Answered I given query.HasValidity (impl.computeValidity query s)
  value : ∀ query s, query.Evaluable cfg optimizeDivides → I s →
    Answered I given (fun value => ∃ v, query.Satisfies v ∧ value = .constant query.expr.getWidth (query.expr.bits v query.expr.getWidth))
      (impl.computeValue query s)
  initialValues : ∀ query objects s, query.Served cfg optimizeDivides → (∀ array ∈ objects, array.Readable) → I s →
    Answered I given (query.HasInitialValues objects) (impl.computeInitialValues query objects s)

/-- The state of a process that only ends if the solver may fail. -/
def Alive {σ : Type} (I : σ → Prop) (given : Prop) : Option σ → Prop
  | none => ¬given
  | some s => I s

section
variable {σ α : Type} {I : σ → Prop} {given : Prop} {right : α → Prop} {s : σ}

theorem guarded_none {call : σ → Option (Option α × σ)} {s : σ} (h : call s = none) : guarded call (some s) = (none, none) := by
  rw [guarded, h]

theorem guarded_some {call : σ → Option (Option α × σ)} {s : σ} {result : Option α × σ} (h : call s = some result) :
    guarded call (some s) = (result.1, some result.2) := by
  rw [guarded, h]

theorem Answered.of_call {call : σ → Option (Option α × σ)} {s : Option σ} (hs : Alive I given s)
    (hended : ∀ s, I s → call s = none → ¬given)
    (hanswered : ∀ s result, I s → call s = some result → Answered I given right result) :
    Answered (Alive I given) given right (guarded call s) := by
  have hdead (hnot : ¬given) : Answered (Alive I given) given right (none, none) :=
    ⟨hnot, fun _ h => (by cases h), fun hgiven => absurd hgiven hnot⟩
  cases s with
  | none => exact hdead hs
  | some s =>
    cases hresult : call s with
    | none =>
      rw [guarded_none hresult]
      exact hdead (hended s hs hresult)
    | some result =>
      obtain ⟨hkept, hright, hgiven⟩ := hanswered s result hs hresult
      rw [guarded_some hresult]
      exact ⟨hkept, hright, hgiven⟩

/-- A call that does not abort. -/
def Completes (I : σ → Prop) (given : Prop) (right : α → Prop) (result : Except Abort (Option α × σ)) : Prop :=
  ∃ answer, result = .ok answer ∧ Answered I given right answer

theorem Completes.answer (hs : I s) {a : α} (ha : right a) : Completes I given right (.ok (some a, s)) := by
  refine ⟨_, rfl, hs, fun a' h => ?_, fun _ h => (by cases h)⟩
  obtain rfl := Option.some.inj h
  exact ha

theorem Completes.failure (hs : I s) (hgiven : ¬given) : Completes I given right (.ok (none, s)) :=
  ⟨_, rfl, hs, fun _ h => (by cases h), fun h => absurd h hgiven⟩

theorem Answered.of_ok {call : σ → Except Abort (Option α × σ)} {s : Option σ} (hs : Alive I given s)
    (hcall : ∀ s, I s → Completes I given right (call s)) :
    Answered (Alive I given) given right (guarded (fun s => (call s).toOption) s) := by
  refine .of_call hs (fun s hs hnone => ?_) fun s result hs hsome => ?_
  · obtain ⟨result, hresult, -⟩ := hcall s hs
    rw [hresult] at hnone
    cases hnone
  · obtain ⟨result', hresult, hanswered⟩ := hcall s hs
    rw [hresult] at hsome
    obtain rfl := Option.some.inj hsome
    exact hanswered

/-- A call that is passed on. -/
theorem Answered.of_total {call : σ → Option α × σ} {s : Option σ} (hs : Alive I given s)
    (hcall : ∀ s, I s → Answered I given right (call s)) :
    Answered (Alive I given) given right (guarded (fun s => some (call s)) s) := by
  refine .of_call hs (fun _ _ hnone => (by cases hnone)) fun s result hs hsome => ?_
  obtain rfl := Option.some.inj hsome
  exact hcall s hs

end

/-! ### The wrappers -/

section
variable {σ : Type} {solver : SolverImpl σ} {cfg : CexCachingSolver.Config} {optimizeDivides : Bool} {I : σ → Prop} {given : Prop}
    {query : Query}

namespace IndependentSolver

theorem impl_serves (h : solver.Serves cfg optimizeDivides I given) :
    (impl solver).Serves cfg optimizeDivides (Alive I given) given where
  truth query s hquery hs := .of_ok hs fun s hs => by
    obtain ⟨q, hq, hserved, hvalid, -⟩ := hquery.required
    refine ⟨solver.computeTruth q s, by simp only [computeTruth, hq, bind, Except.bind]; rfl, ?_⟩
    obtain ⟨hkept, hright, hgiven⟩ := h.truth q s hserved hs
    exact ⟨hkept, fun a ha => (hright a ha).trans hvalid, hgiven⟩
  validity query s hquery hs := .of_ok hs fun s hs => by
    obtain ⟨q, hq, hserved, -, hvalidity⟩ := hquery.required
    refine ⟨solver.computeValidity q s, by simp only [computeValidity, hq, bind, Except.bind]; rfl, ?_⟩
    obtain ⟨hkept, hright, hgiven⟩ := h.validity q s hserved hs
    exact ⟨hkept, fun a ha => (hvalidity a).mp (hright a ha), hgiven⟩
  value query s hquery hs := .of_ok hs fun s hs => by
    obtain ⟨q, hq, hevaluable, hexpr, hcontinues⟩ := hquery.required
    refine ⟨solver.computeValue q s, by simp only [computeValue, hq, bind, Except.bind]; rfl, ?_⟩
    obtain ⟨hkept, hright, hgiven⟩ := h.value q s hevaluable hs
    refine ⟨hkept, fun a ha => ?_, hgiven⟩
    obtain ⟨v, hv, rfl⟩ := hright a ha
    obtain ⟨v', hv', hvalue⟩ := hcontinues v hv
    refine ⟨v', hv', ?_⟩
    rw [hexpr, Expr.bits, Expr.bits, hvalue]
  initialValues query objects _ hquery hobjects hs := .of_total hs fun s hs => h.initialValues query objects s hquery hobjects hs

end IndependentSolver

namespace CachingSolver

variable {opt : Bool} {less : Expr → Expr → Bool} {st st' : State σ}

/-- The cache tells the truth and the wrapped solver has what it relies on. -/
def Kept (I : σ → Prop) (st : State σ) : Prop := Inv st ∧ I st.solver

theorem cacheInsert_solver {result : PartialValidity} (h : cacheInsert opt less query result st = .ok st') : st'.solver = st.solver := by
  obtain ⟨⟨c, negationUsed⟩, -, h⟩ := Result.bind_eq_ok.mp h
  obtain ⟨pv, -, h⟩ := Result.bind_eq_ok.mp h
  dsimp only at h
  split at h
  case isTrue => exact Except.ok.inj h ▸ rfl
  case isFalse => exact Except.ok.inj h ▸ rfl

theorem completes_insert {α : Type} {right : α → Prop} {result : PartialValidity} {answer : α} (hquery : query.WellFormed)
    (hst : Kept I st) (hknown : result.Known query) (hright : right answer) :
    Completes (Kept I) given right (do return (some answer, ← cacheInsert opt less query result st)) := by
  obtain ⟨st', hst', hinv'⟩ := cacheInsert_spec opt less hquery hst.1 hknown
  rw [hst']
  refine .answer ⟨hinv', ?_⟩ hright
  rw [cacheInsert_solver hst']
  exact hst.2

section
variable (h : solver.Serves cfg optimizeDivides I given) (hquery : query.Served cfg optimizeDivides)
include h hquery

theorem askTruth_answered (hst : Kept I st) :
    Answered (Kept I) given (fun isValid => isValid = true ↔ query.Valid) (askTruth solver query st) := by
  obtain ⟨hkept, hright, hgiven⟩ := h.truth query st.solver hquery hst.2
  exact ⟨⟨hst.1, hkept⟩, hright, hgiven⟩

theorem askValidity_answered (hst : Kept I st) : Answered (Kept I) given query.HasValidity (askValidity solver query st) := by
  obtain ⟨hkept, hright, hgiven⟩ := h.validity query st.solver hquery hst.2
  exact ⟨⟨hst.1, hkept⟩, hright, hgiven⟩

theorem queryTruth_completes (hst : Kept I st) {cacheHit : Bool} (hmay : cacheHit = true → ¬query.Refuted) :
    Completes (Kept I) given (fun isValid => isValid = true ↔ query.Valid) (queryTruth opt less solver query cacheHit st) := by
  have hanswered := askTruth_answered h hquery hst
  unfold queryTruth
  generalize askTruth solver query st = result at hanswered
  obtain ⟨answer, st'⟩ := result
  cases answer with
  | none => exact .failure hanswered.kept fun hgiven => hanswered.given hgiven rfl
  | some isValid =>
    have hiff := hanswered.right isValid rfl
    refine completes_insert hquery.toWellFormed hanswered.kept ?_ hiff
    cases isValid with
    | true => exact hiff.mp rfl
    | false =>
      have hnot : ¬query.Valid := fun h => Bool.false_ne_true (hiff.mpr h)
      cases cacheHit with
      | true => exact ⟨hnot, hmay rfl⟩
      | false => exact hnot

theorem computeTruth_completes (hst : Kept I st) :
    Completes (Kept I) given (fun isValid => isValid = true ↔ query.Valid) (computeTruth opt less solver query st) := by
  obtain ⟨cached, hcached, hknown⟩ := cacheLookup_spec opt less hquery.toWellFormed hst.1
  unfold computeTruth
  rw [hcached]
  cases cached with
  | none => exact queryTruth_completes h hquery hst fun h => (by cases h)
  | some pv =>
    have hpv := hknown pv rfl
    cases pv with
    | mayBeTrue => exact queryTruth_completes h hquery hst fun _ => hpv
    | mustBeTrue => exact .answer hst (iff_of_true rfl hpv)
    | mustBeFalse => exact .answer hst (iff_of_false Bool.false_ne_true (not_valid_of_refuted hquery.satisfiable hpv))
    | mayBeFalse => exact .answer hst (iff_of_false Bool.false_ne_true hpv)
    | trueOrFalse => exact .answer hst (iff_of_false Bool.false_ne_true hpv.1)
    | none => exact hpv.elim

end

theorem refine_completes {asked : Query} {must : PartialValidity} {result : Validity} (h : solver.Serves cfg optimizeDivides I given)
    (hquery : query.WellFormed) (hasked : asked.Served cfg optimizeDivides) (hst : Kept I st)
    (htrue : asked.Valid → must.Known query ∧ query.HasValidity result)
    (hfalse : ¬asked.Valid → ¬query.Valid ∧ ¬query.Refuted) :
    Completes (Kept I) given query.HasValidity (refine opt less solver query asked must result st) := by
  have hanswered := askTruth_answered h hasked hst
  unfold refine
  generalize askTruth solver asked st = response at hanswered
  obtain ⟨answer, st'⟩ := response
  cases answer with
  | none => exact .failure hanswered.kept fun hgiven => hanswered.given hgiven rfl
  | some isValid =>
    have hiff := hanswered.right isValid rfl
    cases isValid with
    | true =>
      obtain ⟨hmust, hvalidity⟩ := htrue (hiff.mp rfl)
      exact completes_insert hquery hanswered.kept hmust hvalidity
    | false =>
      have hboth := hfalse fun h => Bool.false_ne_true (hiff.mpr h)
      exact completes_insert hquery hanswered.kept hboth hboth

theorem computeValidity_completes (h : solver.Serves cfg optimizeDivides I given) (hquery : query.Served cfg optimizeDivides)
    (hst : Kept I st) : Completes (Kept I) given query.HasValidity (computeValidity cfg.constArrayOpt less solver query st) := by
  obtain ⟨cached, hcached, hknown⟩ := cacheLookup_spec cfg.constArrayOpt less hquery.toWellFormed hst.1
  unfold computeValidity
  rw [hcached]
  cases cached with
  | none =>
    have hanswered := askValidity_answered h hquery hst
    simp only [bind, Except.bind]
    generalize askValidity solver query st = response at hanswered
    obtain ⟨answer, st'⟩ := response
    cases answer with
    | none => exact .failure hanswered.kept fun hgiven => hanswered.given hgiven rfl
    | some result =>
      have hvalidity := hanswered.right result rfl
      refine completes_insert hquery.toWellFormed hanswered.kept ?_ hvalidity
      cases result with
      | True => exact hvalidity
      | False => exact hvalidity
      | Unknown => exact hvalidity
  | some pv =>
    have hpv := hknown pv rfl
    simp only [bind, Except.bind]
    cases pv with
    | mustBeTrue => exact Completes.answer (a := Validity.True) hst hpv
    | mustBeFalse => exact Completes.answer (a := Validity.False) hst hpv
    | trueOrFalse => exact Completes.answer (a := Validity.Unknown) hst hpv
    | mayBeTrue => exact refine_completes h hquery.toWellFormed hquery hst (fun h => ⟨h, h⟩) fun h => ⟨h, hpv⟩
    | mayBeFalse =>
      obtain ⟨n, hn, hneg, -, hholds⟩ := Query.negateExpr_spec cfg.constArrayOpt hquery.toWellFormed
      rw [hneg]
      refine refine_completes h hquery.toWellFormed (hquery.negate hn) hst (fun h => ?_) fun h => ?_
      · exact ⟨(Query.valid_withExpr_iff hholds).mp h, (Query.valid_withExpr_iff hholds).mp h⟩
      · exact ⟨hpv, fun hrefuted => h ((Query.valid_withExpr_iff hholds).mpr hrefuted)⟩
    | none => exact hpv.elim

theorem computeValue_answered (h : solver.Serves cfg optimizeDivides I given) (hquery : query.Evaluable cfg optimizeDivides)
    (hst : Kept I st) : Answered (Kept I) given
      (fun value => ∃ v, query.Satisfies v ∧ value = .constant query.expr.getWidth (query.expr.bits v query.expr.getWidth))
      (computeValue solver query st) := by
  obtain ⟨hkept, hright, hgiven⟩ := h.value query st.solver hquery hst.2
  exact ⟨⟨hst.1, hkept⟩, hright, hgiven⟩

theorem computeInitialValues_answered {objects : List Array} (h : solver.Serves cfg optimizeDivides I given)
    (hquery : query.Served cfg optimizeDivides) (hobjects : ∀ array ∈ objects, array.Readable) (hst : Kept I st) :
    Answered (Kept I) given (query.HasInitialValues objects) (computeInitialValues solver query objects st) := by
  obtain ⟨hkept, hright, hgiven⟩ := h.initialValues query objects st.solver hquery hobjects hst.2
  exact ⟨⟨hst.1, hkept⟩, hright, hgiven⟩

theorem impl_serves (h : solver.Serves cfg optimizeDivides I given) :
    (impl solver cfg.constArrayOpt less).Serves cfg optimizeDivides (Alive (Kept I) given) given where
  truth _ _ hquery hs := .of_ok hs fun _ hst => computeTruth_completes h hquery hst
  validity _ _ hquery hs := .of_ok hs fun _ hst => computeValidity_completes h hquery hst
  value _ _ hquery hs := .of_total hs fun _ hst => computeValue_answered h hquery hst
  initialValues _ _ _ hquery hobjects hs := .of_total hs fun _ hst => computeInitialValues_answered h hquery hobjects hst

end CachingSolver

namespace CexCachingSolver

variable {st st' : State σ} {key : KeyType} {found : Option (Option Assignment)}

/-- The cache tells the truth and the wrapped solver has what it relies on. -/
def Kept (I : σ → Prop) (st : State σ) : Prop := Inv st ∧ I st.solver

/-- A key has constraints and the negated expression. -/
theorem mem_lookupAssignment (h : lookupAssignment cfg query st = .ok (key, found)) {e : Expr} (he : e ∈ key) :
    e ∈ query.constraints ∨ query.expr.createIsZero cfg.constArrayOpt = .ok e := by
  obtain ⟨n, hn, h⟩ := Result.bind_eq_ok.mp h
  dsimp only at h
  split at h
  case isTrue =>
    obtain ⟨rfl, -⟩ := Prod.mk.inj (Except.ok.inj h)
    exact .inl (mem_ofConstraints.mp he)
  case isFalse =>
    obtain ⟨found', -, h⟩ := Result.bind_eq_ok.mp h
    obtain ⟨rfl, -⟩ := Prod.mk.inj (Except.ok.inj h)
    split at he
    case isTrue => exact .inl (mem_ofConstraints.mp he)
    case isFalse =>
      rcases mem_insertOrdered.mp he with rfl | hold
      exacts [.inr hn, .inl (mem_ofConstraints.mp hold)]

/-- The objects whose values are asked for. -/
theorem readable_of_lookup (hquery : query.Served cfg optimizeDivides) (h : lookupAssignment cfg query st = .ok (key, found)) :
    ∀ array ∈ findSymbolicObjects key, array.Readable := by
  refine readable_findSymbolicObjects fun e he => ?_
  rcases mem_lookupAssignment h he with hc | hn
  · exact hquery.arrays e (List.mem_cons_of_mem _ hc)
  · exact (hquery.negate hn).arrays e List.mem_cons_self

section
variable (h : solver.Serves cfg optimizeDivides I given)
include h

theorem getAssignment_completes (hquery : query.Served cfg optimizeDivides) (hst : Kept I st) :
    Completes (Kept I) given (Result query) (getAssignment cfg solver query st) := by
  obtain ⟨key, found, hlookup, hfound, hkey⟩ := lookupAssignment_spec hst.1 hquery.toAsked
  have hobjects := readable_of_lookup hquery hlookup
  unfold getAssignment
  simp only [hlookup, bind, Except.bind]
  cases found with
  | some result => exact .answer hst (hfound result rfl)
  | none =>
    replace hkey := hkey rfl
    have hanswered := h.initialValues query _ st.solver hquery hobjects hst.2
    dsimp only
    generalize solver.computeInitialValues query (findSymbolicObjects key) st.solver = response at hanswered
    obtain ⟨answer, s⟩ := response
    cases answer with
    | none => exact .failure ⟨⟨hst.1.cache, hst.1.table⟩, hanswered.kept⟩ fun hgiven => hanswered.given hgiven rfl
    | some values =>
      have hright := hanswered.right values rfl
      cases values with
      | none =>
        have hentry : Entry key none := hkey.result.mpr hright
        exact Completes.answer (a := (none : Option Assignment)) ⟨⟨hst.1.insert hentry, hst.1.table⟩, hanswered.kept⟩ hright
      | some values =>
        obtain ⟨v, hv, rfl⟩ := hright
        have hentry := hkey.entry_ofValues hv
        refine Completes.answer (a := some _) ⟨⟨hst.1.insert hentry, fun a ha => ?_⟩, hanswered.kept⟩ (hkey.result.mp hentry)
        rcases mem_insertOrdered.mp ha with rfl | hold
        · exact hentry.1
        · exact hst.1.table a hold

theorem computeInitialValues_completes (hquery : query.Served cfg optimizeDivides) (objects : List Array) (hst : Kept I st) :
    Completes (Kept I) given (query.HasInitialValues objects) (computeInitialValues cfg solver query objects st) := by
  obtain ⟨⟨answer, st'⟩, hget, hanswered⟩ := getAssignment_completes h hquery hst
  unfold computeInitialValues
  simp only [hget, bind, Except.bind]
  cases answer with
  | none => exact .failure hanswered.kept fun hgiven => hanswered.given hgiven rfl
  | some result =>
    refine .answer hanswered.kept ?_
    have hresult := hanswered.right result rfl
    cases result with
    | none => exact hresult
    | some a => exact ⟨a.byteOf, hresult.2, List.map_congr_left fun os _ => Assignment.valuesOf_eq hresult.1 os⟩

theorem computeTruth_completes (hexperimental : given → cfg.experimental = false) (hquery : query.Served cfg optimizeDivides)
    (hst : Kept I st) : Completes (Kept I) given (fun isValid => isValid = true ↔ query.Valid) (computeTruth cfg solver query st) := by
  obtain ⟨⟨answer, st'⟩, hget, hanswered⟩ := getAssignment_completes h hquery hst
  have hasked : Completes (Kept I) given (fun isValid => isValid = true ↔ query.Valid) (.ok (answer.map Option.isNone, st')) := by
    cases answer with
    | none => exact .failure hanswered.kept fun hgiven => hanswered.given hgiven rfl
    | some result => exact .answer hanswered.kept (hanswered.right result rfl).isNone_iff
  unfold computeTruth
  simp only [hget, bind, Except.bind]
  cases hoption : cfg.experimental with
  | false =>
    rcases answer with _ | result
    · exact hasked
    · exact hasked
  | true =>
    obtain ⟨known, hknown⟩ := knownFalse_spec hst.1 hquery.toAsked
    simp only [if_true, hknown]
    cases known with
    | false =>
      rcases answer with _ | result
      · exact hasked
      · exact hasked
    | true => exact .failure hst fun hgiven => Bool.false_ne_true ((hexperimental hgiven).symm.trans hoption)

theorem computeValue_completes (hquery : query.Evaluable cfg optimizeDivides) (hst : Kept I st) : Completes (Kept I) given
    (fun value => ∃ v, query.Satisfies v ∧ value = .constant query.expr.getWidth (query.expr.bits v query.expr.getWidth))
    (computeValue cfg solver query st) := by
  have hvalued : Valued cfg query := ⟨hquery.asked.toAsked, hquery.typed, hquery.plain, hquery.divisors⟩
  obtain ⟨⟨answer, st'⟩, hget, hanswered⟩ := getAssignment_completes h hquery.asked hst
  unfold computeValue
  simp only [hget, bind, Except.bind]
  cases answer with
  | none => exact .failure hanswered.kept fun hgiven => hanswered.given hgiven rfl
  | some result =>
    obtain ⟨a, w, rfl, -, hsat, htyped, hevaluate⟩ := evaluateExpr_spec hvalued (hanswered.right result rfl)
    obtain rfl : query.expr.getWidth = w := htyped.2
    simp only [hevaluate]
    exact .answer hanswered.kept ⟨a.byteOf, hsat, rfl⟩

theorem computeValidity_completes (hquery : query.Served cfg optimizeDivides) (hst : Kept I st) :
    Completes (Kept I) given query.HasValidity (computeValidity cfg solver query st) := by
  have hvalued : Valued cfg query :=
    ⟨hquery.withFalse.toAsked, hquery.expr.1, hquery.plain, fun v hv => hquery.divisors v hv _ List.mem_cons_self⟩
  obtain ⟨⟨answer, st₁⟩, hget, hanswered⟩ := getAssignment_completes h hquery.withFalse hst
  unfold computeValidity
  simp only [hget, bind, Except.bind]
  cases answer with
  | none => exact .failure hanswered.kept fun hgiven => hanswered.given hgiven rfl
  | some result =>
    obtain ⟨a, w, rfl, ha, hsat, htyped, hevaluate⟩ := evaluateExpr_spec hvalued (hanswered.right result rfl)
    obtain rfl : 1 = w := hquery.expr.2.symm.trans htyped.2
    simp only [hevaluate]
    by_cases htrue : query.expr.Holds a.byteOf
    · -- a true assignment exists, so that the query is true or unknown
      have hbits : Expr.constant 1 (query.expr.bits a.byteOf 1) = boolean true := by
        rw [(Expr.holds_iff_bits hquery.expr).mp htrue]
        rfl
      rw [if_pos hbits]
      obtain ⟨⟨answer, st₂⟩, hget, hanswered⟩ := getAssignment_completes h hquery hanswered.kept
      simp only [hget]
      cases answer with
      | none => exact .failure hanswered.kept fun hgiven => hanswered.given hgiven rfl
      | some result =>
        refine .answer hanswered.kept ?_
        have hiff := (hanswered.right result rfl).isNone_iff
        split
        case isTrue hnone => exact hiff.mp hnone
        case isFalse hsome => exact ⟨fun hvalid => hsome (hiff.mpr hvalid), fun hrefuted => hrefuted _ hsat htrue⟩
    · have hbits : Expr.constant 1 (query.expr.bits a.byteOf 1) ≠ boolean true := fun h => by
        refine htrue ((Expr.holds_iff_bits hquery.expr).mpr ?_)
        simpa [boolean] using h
      rw [if_neg hbits]
      obtain ⟨n, hn, hnegate, -, hholds⟩ := hquery.toAsked.negateExpr
      obtain ⟨⟨answer, st₂⟩, hget, hanswered⟩ := getAssignment_completes h (hquery.negate hn) hanswered.kept
      simp only [hnegate, hget]
      cases answer with
      | none => exact .failure hanswered.kept fun hgiven => hanswered.given hgiven rfl
      | some result =>
        refine .answer hanswered.kept ?_
        have hiff := (hanswered.right result rfl).isNone_iff.trans (Query.valid_withExpr_iff hholds)
        split
        case isTrue hnone => exact hiff.mp hnone
        case isFalse hsome => exact ⟨fun hvalid => htrue (hvalid _ hsat), fun hrefuted => hsome (hiff.mpr hrefuted)⟩

theorem impl_serves (hexperimental : given → cfg.experimental = false) :
    (impl cfg solver).Serves cfg optimizeDivides (Alive (Kept I) given) given where
  truth _ _ hquery hs := .of_ok hs fun _ hst => computeTruth_completes h hexperimental hquery hst
  validity _ _ hquery hs := .of_ok hs fun _ hst => computeValidity_completes h hquery hst
  value _ _ hquery hs := .of_ok hs fun _ hst => computeValue_completes h hquery hst
  initialValues _ objects _ hquery _ hs := .of_ok hs fun _ hst => computeInitialValues_completes h hquery objects hst

end

end CexCachingSolver

namespace STPSolverImpl

variable {stp : Stp} {stpCfg : STPSolverImpl.Config}

theorem valued_of_evaluable (h : query.Evaluable cfg stpCfg.optimizeDivides) : Valued stpCfg.optimizeDivides cfg.constArrayOpt query where
  asked := h.asked.toHandled
  satisfiable := h.asked.satisfiable
  typed := h.typed
  plain := h.plain
  divisors := h.divisors
  objects := readable_findSymbolicObjects (List.forall_mem_singleton.mpr h.arrays)

/-- STP is asked without processes of their own, or it may fail. -/
theorem impl_serves (hstp : stp.Right) (hfork : given → stpCfg.useForkedSTP = false) :
    (impl stp stpCfg cfg.constArrayOpt cfg.useVisitorHash).Serves cfg stpCfg.optimizeDivides (Alive (fun _ => True) given) given where
  truth query _ hquery hs := by
    refine .of_call hs (fun s _ hnone hgiven => ?_) fun s (answer, s') _ hsome => ⟨trivial, fun isValid h => ?_, fun hgiven h => ?_⟩
    · obtain ⟨isValid, s', hgive⟩ := computeTruth_given hstp (hfork hgiven) hquery.toHandled s
      cases hnone.symm.trans hgive
    · obtain rfl : answer = some isValid := h
      exact computeTruth_right hstp hquery.toHandled hsome
    · obtain rfl : answer = none := h
      obtain ⟨isValid, s', hgive⟩ := computeTruth_given hstp (hfork hgiven) hquery.toHandled s
      cases hsome.symm.trans hgive
  validity query _ hquery hs := by
    have hnegated : ∀ n, query.expr.createIsZero cfg.constArrayOpt = .ok n → (query.withExpr n).Handled stpCfg.optimizeDivides :=
      fun n hn => (hquery.negate hn).toHandled
    refine .of_call hs (fun s _ hnone hgiven => ?_) fun s (answer, s') _ hsome => ⟨trivial, fun validity h => ?_, fun hgiven h => ?_⟩
    · obtain ⟨validity, s', hgive⟩ := computeValidity_given hstp (hfork hgiven) cfg.constArrayOpt hquery.toHandled hnegated s
      cases hnone.symm.trans hgive
    · obtain rfl : answer = some validity := h
      exact computeValidity_right hstp cfg.constArrayOpt hquery.toHandled hnegated hsome
    · obtain rfl : answer = none := h
      obtain ⟨validity, s', hgive⟩ := computeValidity_given hstp (hfork hgiven) cfg.constArrayOpt hquery.toHandled hnegated s
      cases hsome.symm.trans hgive
  value query _ hquery hs := by
    have hvalued := valued_of_evaluable hquery
    refine .of_call hs (fun s _ hnone hgiven => ?_) fun s (answer, s') _ hsome => ⟨trivial, fun value h => ?_, fun hgiven h => ?_⟩
    · obtain ⟨value, s', hgive⟩ := computeValue_given hstp (hfork hgiven) cfg.constArrayOpt cfg.useVisitorHash hvalued s
      cases hnone.symm.trans hgive
    · obtain rfl : answer = some value := h
      exact computeValue_right hstp cfg.constArrayOpt cfg.useVisitorHash hvalued hsome
    · obtain rfl : answer = none := h
      obtain ⟨value, s', hgive⟩ := computeValue_given hstp (hfork hgiven) cfg.constArrayOpt cfg.useVisitorHash hvalued s
      cases hsome.symm.trans hgive
  initialValues query objects _ hquery hobjects hs := by
    refine .of_call hs (fun s _ hnone hgiven => ?_) fun s (answer, s') _ hsome => ⟨trivial, fun values h => ?_, fun hgiven h => ?_⟩
    · obtain ⟨values, s', hgive⟩ := computeInitialValues_given hstp (hfork hgiven) hquery.toHandled hobjects s
      cases hnone.symm.trans hgive
    · obtain rfl : answer = some values := h
      exact computeInitialValues_right hstp hquery.toHandled hobjects hsome
    · obtain rfl : answer = none := h
      obtain ⟨values, s', hgive⟩ := computeInitialValues_given hstp (hfork hgiven) hquery.toHandled hobjects s
      cases hsome.symm.trans hgive

end STPSolverImpl

end

/-! ### The chain -/

open CexCachingSolver (Request Answer)
open STPSolverImpl (Failed)

section
variable {cfg : CexCachingSolver.Config} {optimizeDivides : Bool} {given : Prop} {solver : Solver}

/-- The solver answers from its first state on. -/
def Solver.Serves (solver : Solver) (cfg : CexCachingSolver.Config) (optimizeDivides : Bool) (given : Prop) : Prop :=
  ∃ I, solver.impl.Serves cfg optimizeDivides I given ∧ I solver.state

/-- Whatever the options, the chain answers if its core solver does. -/
theorem constructSolverChain_serves (options : ChainOptions) (hexperimental : given → cfg.experimental = false)
    (h : solver.Serves cfg optimizeDivides given) : (constructSolverChain options cfg solver).Serves cfg optimizeDivides given := by
  have hcex {solver : Solver} (h : solver.Serves cfg optimizeDivides given) :
      (createCexCachingSolver cfg solver).Serves cfg optimizeDivides given := by
    obtain ⟨I, hserves, hstate⟩ := h
    exact ⟨_, CexCachingSolver.impl_serves hserves hexperimental,
      ⟨fun _ h => absurd h List.not_mem_nil, fun _ h => absurd h List.not_mem_nil⟩, hstate⟩
  have hcache {solver : Solver} (h : solver.Serves cfg optimizeDivides given) :
      (createCachingSolver cfg.constArrayOpt cfg.less solver).Serves cfg optimizeDivides given := by
    obtain ⟨I, hserves, hstate⟩ := h
    exact ⟨_, CachingSolver.impl_serves hserves, fun _ h => absurd h List.not_mem_nil, hstate⟩
  have hindependent {solver : Solver} (h : solver.Serves cfg optimizeDivides given) :
      (createIndependentSolver solver).Serves cfg optimizeDivides given := by
    obtain ⟨I, hserves, hstate⟩ := h
    exact ⟨_, IndependentSolver.impl_serves hserves, hstate⟩
  have hif {b : Bool} {s s' : Solver} (hs : s.Serves cfg optimizeDivides given) (hs' : s'.Serves cfg optimizeDivides given) :
      (if b then s else s').Serves cfg optimizeDivides given := by
    split
    exacts [hs, hs']
  have h₁ := hif (b := options.useCexCache) (hcex h) h
  have h₂ := hif (b := options.useCache) (hcache h₁) h₁
  exact hif (hindependent h₂) h₂

/-- A request that the chain can be sent. -/
def Served (cfg : CexCachingSolver.Config) (optimizeDivides : Bool) : Request → Prop
  | .validity query => query.Served cfg optimizeDivides
  | .truth query => query.Served cfg optimizeDivides
  | .value query => query.Evaluable cfg optimizeDivides
  | .initialValues query objects => query.Served cfg optimizeDivides ∧ ∀ array ∈ objects, array.Readable

theorem SolverImpl.answer_right {σ : Type} {impl : SolverImpl σ} {I : σ → Prop} (h : impl.Serves cfg optimizeDivides I given)
    {request : Request} (hrequest : Served cfg optimizeDivides request) {s : σ} (hs : I s) :
    (impl.answer request s).1.request = request ∧ I (impl.answer request s).2 ∧
      (Failed (impl.answer request s).1 ∨ (impl.answer request s).1.Right) ∧ (given → (impl.answer request s).1.Right) := by
  cases request with
  | validity query =>
    obtain ⟨hkept, hright, hgiven⟩ := h.validity query s hrequest hs
    refine ⟨rfl, hkept, ?_⟩
    cases hanswer : (impl.computeValidity query s).1 with
    | none => exact ⟨.inl hanswer, fun hg => absurd hanswer (hgiven hg)⟩
    | some result =>
      have hanswered : Answer.Right (.validity query (impl.computeValidity query s).1) := ⟨result, hanswer, hright result hanswer⟩
      exact ⟨.inr hanswered, fun _ => hanswered⟩
  | truth query =>
    obtain ⟨hkept, hright, hgiven⟩ := h.truth query s hrequest hs
    refine ⟨rfl, hkept, ?_⟩
    cases hanswer : (impl.computeTruth query s).1 with
    | none => exact ⟨.inl hanswer, fun hg => absurd hanswer (hgiven hg)⟩
    | some result =>
      have hanswered : Answer.Right (.truth query (impl.computeTruth query s).1) := ⟨result, hanswer, hright result hanswer⟩
      exact ⟨.inr hanswered, fun _ => hanswered⟩
  | value query =>
    have hrequest : query.Evaluable cfg optimizeDivides := hrequest
    obtain ⟨hkept, hright, hgiven⟩ := h.value query s hrequest hs
    refine ⟨rfl, hkept, ?_⟩
    cases hanswer : (impl.computeValue query s).1 with
    | none => exact ⟨.inl hanswer, fun hg => absurd hanswer (hgiven hg)⟩
    | some result =>
      obtain ⟨v, hv, rfl⟩ := hright result hanswer
      have hanswered : Answer.Right (.value query (impl.computeValue query s).1) :=
        ⟨query.expr.getWidth, _, v, hanswer, hv, .self hrequest.typed, rfl⟩
      exact ⟨.inr hanswered, fun _ => hanswered⟩
  | initialValues query objects =>
    obtain ⟨hkept, hright, hgiven⟩ := h.initialValues query objects s hrequest.1 hrequest.2 hs
    refine ⟨rfl, hkept, ?_⟩
    cases hanswer : (impl.computeInitialValues query objects s).1 with
    | none => exact ⟨.inl hanswer, fun hg => absurd hanswer (hgiven hg)⟩
    | some result =>
      have hanswered : Answer.Right (.initialValues query objects (impl.computeInitialValues query objects s).1) :=
        ⟨result, hanswer, hright result hanswer⟩
      exact ⟨.inr hanswered, fun _ => hanswered⟩

theorem SolverImpl.answers_right {σ : Type} {impl : SolverImpl σ} {I : σ → Prop} (h : impl.Serves cfg optimizeDivides I given)
    (requests : List Request) (hrequests : ∀ request ∈ requests, Served cfg optimizeDivides request) : ∀ s, I s →
    (impl.answers requests s).map Answer.request = requests ∧
      (∀ answer ∈ impl.answers requests s, Failed answer ∨ answer.Right) ∧
      (given → ∀ answer ∈ impl.answers requests s, answer.Right) := by
  induction requests with
  | nil => exact fun s _ => ⟨rfl, List.forall_mem_nil _, fun _ => List.forall_mem_nil _⟩
  | cons request requests ih =>
    intro s hs
    obtain ⟨hrequest, hrequests⟩ := List.forall_mem_cons.mp hrequests
    obtain ⟨hsame, hkept, hright, hgiven⟩ := SolverImpl.answer_right h hrequest hs
    obtain ⟨hmap, hrights, hgivens⟩ := ih hrequests _ hkept
    exact ⟨congrArg₂ List.cons hsame hmap, List.forall_mem_cons.mpr ⟨hright, hrights⟩,
      fun hg => List.forall_mem_cons.mpr ⟨hgiven hg, hgivens hg⟩⟩

end

/-! ### A byte that is five -/

open CexCachingSolver (isSix isSix_asked firstByte)

/-- Without the experimental shortcut. -/
def plainCfg : CexCachingSolver.Config := ⟨false, true, true, false, fun _ _ => false, fun _ _ => false⟩

theorem isSix_served : isSix.Served plainCfg true where
  constraints := isSix_asked.constraints
  expr := isSix_asked.expr
  inRange := isSix_asked.inRange
  divisors := isSix_asked.divisors
  satisfiable := isSix_asked.satisfiable
  supported := STPSolverImpl.isSix_handled.supported
  guarded := STPSolverImpl.isSix_handled.guarded
  plain := by simp [isSix, firstByte, Expr.Plain, UpdateList.Plain]
  arrays := by
    have hbytes : Array.OfBytes ⟨0, 4, 32, 8, []⟩ := ⟨rfl, rfl, by decide⟩
    simp [isSix, firstByte, Expr.Over, UpdateList.Over, hbytes]

end CapTaint.Klee
