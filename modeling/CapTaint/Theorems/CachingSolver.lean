import CapTaint.Theorems.Negation
import CapTaint.Klee.CachingSolver

/-! # The cache of partial validities

What `CachingSolver` answers from its cache is what the wrapped solver would have to answer, whatever the history. -/

namespace CapTaint.Klee

/-- The answers of a solver to queries with satisfiable constraints are right. -/
structure SolverImpl.Decides {σ : Type} (impl : SolverImpl σ) : Prop where
  truth : ∀ (query : Query) (s : σ) (isValid : Bool), query.WellFormed → query.Satisfiable →
    (impl.computeTruth query s).1 = some isValid → (isValid = true ↔ query.Valid)
  validity : ∀ (query : Query) (s : σ) (result : Validity), query.WellFormed → query.Satisfiable →
    (impl.computeValidity query s).1 = some result → query.HasValidity result

/-- The solver does not fail. -/
structure SolverImpl.Answers {σ : Type} (impl : SolverImpl σ) : Prop where
  truth : ∀ query s, (impl.computeTruth query s).1 ≠ none
  validity : ∀ query s, (impl.computeValidity query s).1 ≠ none

/-- What a partial validity says about a query. -/
def PartialValidity.Known (query : Query) : PartialValidity → Prop
  | .mustBeTrue => query.Valid
  | .mustBeFalse => query.Refuted
  | .mayBeTrue => ¬query.Refuted
  | .mayBeFalse => ¬query.Valid
  | .trueOrFalse => ¬query.Valid ∧ ¬query.Refuted
  | .none => False

theorem negatePartialValidity_spec {query : Query} {n : Expr} {pv : PartialValidity}
    (h : ∀ v, n.Holds v ↔ ¬query.expr.Holds v) (hpv : pv ≠ .none) :
    ∃ pv', negatePartialValidity pv = .ok pv' ∧ (pv'.Known (query.withExpr n) ↔ pv.Known query) := by
  cases pv with
  | none => exact absurd rfl hpv
  | mustBeTrue => exact ⟨_, rfl, Query.refuted_withExpr_iff h⟩
  | mustBeFalse => exact ⟨_, rfl, Query.valid_withExpr_iff h⟩
  | mayBeTrue => exact ⟨_, rfl, not_congr (Query.valid_withExpr_iff h)⟩
  | mayBeFalse => exact ⟨_, rfl, not_congr (Query.refuted_withExpr_iff h)⟩
  | trueOrFalse =>
    refine ⟨_, rfl, ?_⟩
    rw [PartialValidity.Known, PartialValidity.Known, Query.valid_withExpr_iff h, Query.refuted_withExpr_iff h, and_comm]

namespace CachingSolver
variable {σ : Type} {opt : Bool} {less : Expr → Expr → Bool} {impl : SolverImpl σ} {query : Query} {st : State σ}

/-- Every entry of the cache is true of its query. -/
def Inv (st : State σ) : Prop := ∀ entry ∈ st.cache, entry.2.Known ⟨entry.1.constraints, entry.1.query⟩

theorem Inv.lookup (hinv : Inv st) {ce : CacheEntry} {pv : PartialValidity} (h : st.cache.lookup ce = some pv) :
    pv.Known ⟨ce.constraints, ce.query⟩ := by
  obtain ⟨l₁, l₂, hcache, -⟩ := List.lookup_eq_some_iff.mp h
  exact hinv (ce, pv) (by rw [hcache]; simp)

theorem PartialValidity.Known.ne_none {pv : PartialValidity} (h : pv.Known query) : pv ≠ .none := by
  rintro rfl
  exact h

/-! ### The operations on the cache -/

/-- `c` is the expression of the query, or its negation if `negationUsed`. -/
def Canonical (query : Query) (c : Expr) (negationUsed : Bool) : Prop :=
  (negationUsed = false ∧ c = query.expr) ∨ (negationUsed = true ∧ ∀ v, c.Holds v ↔ ¬query.expr.Holds v)

theorem canonicalizeQuery_spec (opt : Bool) (less : Expr → Expr → Bool) (hquery : query.WellFormed) :
    ∃ c negationUsed, canonicalizeQuery opt less query.expr = .ok (c, negationUsed) ∧ Canonical query c negationUsed := by
  obtain ⟨n, hn, -, hholds⟩ := Expr.createIsZero_negates opt hquery.expr
  unfold canonicalizeQuery
  rw [hn]
  by_cases hless : less query.expr n = true
  · exact ⟨query.expr, false, if_pos hless, .inl ⟨rfl, rfl⟩⟩
  · exact ⟨n, true, if_neg hless, .inr ⟨rfl, hholds⟩⟩

theorem Canonical.symm {c : Expr} {negationUsed : Bool} (h : Canonical query c negationUsed) :
    Canonical (query.withExpr c) query.expr negationUsed := by
  rcases h with ⟨rfl, rfl⟩ | ⟨rfl, hholds⟩
  · exact .inl ⟨rfl, rfl⟩
  · exact .inr ⟨rfl, fun v => ((not_congr (hholds v)).trans not_not).symm⟩

theorem orient_spec {c : Expr} {negationUsed : Bool} {pv : PartialValidity} (h : Canonical query c negationUsed)
    (hknown : pv.Known query) : ∃ pv', orient negationUsed pv = .ok pv' ∧ pv'.Known (query.withExpr c) := by
  rcases h with ⟨rfl, rfl⟩ | ⟨rfl, hholds⟩
  · exact ⟨pv, rfl, hknown⟩
  · obtain ⟨pv', hpv', hiff⟩ := negatePartialValidity_spec hholds (PartialValidity.Known.ne_none hknown)
    exact ⟨pv', hpv', hiff.mpr hknown⟩

theorem cacheLookup_spec (opt : Bool) (less : Expr → Expr → Bool) (hquery : query.WellFormed) (hinv : Inv st) :
    ∃ cached, cacheLookup opt less query st = .ok cached ∧ ∀ pv, cached = some pv → pv.Known query := by
  obtain ⟨c, negationUsed, hc, hcanonical⟩ := canonicalizeQuery_spec opt less hquery
  unfold cacheLookup
  rw [hc]
  cases hlookup : st.cache.lookup ⟨query.constraints, c⟩ with
  | none => exact ⟨none, by simp [bind, Except.bind, hlookup, pure, Except.pure], nofun⟩
  | some pv =>
    obtain ⟨pv', hpv', hknown⟩ := orient_spec hcanonical.symm (hinv.lookup hlookup)
    refine ⟨some pv', by simp [bind, Except.bind, hlookup, hpv', pure, Except.pure], fun pv'' h => ?_⟩
    obtain rfl := Option.some.inj h
    exact hknown

theorem cacheInsert_spec (opt : Bool) (less : Expr → Expr → Bool) {result : PartialValidity} (hquery : query.WellFormed)
    (hinv : Inv st) (hknown : result.Known query) : ∃ st', cacheInsert opt less query result st = .ok st' ∧ Inv st' := by
  obtain ⟨c, negationUsed, hc, hcanonical⟩ := canonicalizeQuery_spec opt less hquery
  obtain ⟨pv, hpv, hcached⟩ := orient_spec hcanonical hknown
  unfold cacheInsert
  rw [hc]
  by_cases hpresent : (st.cache.lookup ⟨query.constraints, c⟩).isSome = true
  · exact ⟨st, by simp [bind, Except.bind, hpv, hpresent, pure, Except.pure], hinv⟩
  · refine ⟨{ st with cache := (⟨query.constraints, c⟩, pv) :: st.cache }, ?_, ?_⟩
    · simp [bind, Except.bind, hpv, hpresent, pure, Except.pure]
    · intro entry hentry
      rcases List.mem_cons.mp hentry with rfl | hold
      · exact hcached
      · exact hinv entry hold

/-! ### The answers -/

theorem askTruth_spec (impl : SolverImpl σ) (query : Query) (st : State σ) (hinv : Inv st) :
    ∃ answer st', askTruth impl query st = (answer, st') ∧ (impl.computeTruth query st.solver).1 = answer ∧ Inv st' :=
  ⟨_, _, rfl, rfl, hinv⟩

theorem askValidity_spec (impl : SolverImpl σ) (query : Query) (st : State σ) (hinv : Inv st) :
    ∃ answer st', askValidity impl query st = (answer, st') ∧ (impl.computeValidity query st.solver).1 = answer ∧ Inv st' :=
  ⟨_, _, rfl, rfl, hinv⟩

theorem not_valid_of_refuted (hsat : query.Satisfiable) (h : query.Refuted) : ¬query.Valid := by
  obtain ⟨v, hv⟩ := hsat
  exact fun hvalid => h v hv (hvalid v hv)

/-- What a step leaves: an answer that is right, and a cache that is true. Only the wrapped solver makes it fail. -/
def Good {α : Type} (impl : SolverImpl σ) (right : α → Prop) (result : Except Abort (Option α × State σ)) : Prop :=
  ∃ answer st', result = .ok (answer, st') ∧ Inv st' ∧ (∀ a, answer = some a → right a) ∧
    (impl.Answers → answer ≠ none)

theorem Good.inserted {α : Type} {right : α → Prop} {result : PartialValidity} {answer : α} (hquery : query.WellFormed)
    (hinv : Inv st) (hknown : result.Known query) (hright : right answer) :
    Good impl right (do return (some answer, ← cacheInsert opt less query result st)) := by
  obtain ⟨st', hst', hinv'⟩ := cacheInsert_spec opt less hquery hinv hknown
  refine ⟨some answer, st', by rw [hst']; rfl, hinv', fun a ha => ?_, fun _ => nofun⟩
  obtain rfl := Option.some.inj ha
  exact hright

theorem refine_spec {asked : Query} {must : PartialValidity} {result : Validity} (himpl : impl.Decides)
    (hquery : query.WellFormed) (hinv : Inv st) (hasked : asked.WellFormed) (hsat : asked.Satisfiable)
    (htrue : asked.Valid → must.Known query ∧ query.HasValidity result)
    (hfalse : ¬asked.Valid → ¬query.Valid ∧ ¬query.Refuted) :
    Good impl query.HasValidity (refine opt less impl query asked must result st) := by
  obtain ⟨answer, st', hask, hanswer, hinv'⟩ := askTruth_spec impl asked st hinv
  unfold refine
  rw [hask]
  cases answer with
  | none => exact ⟨none, st', rfl, hinv', nofun, fun h => absurd hanswer (h.truth asked st.solver)⟩
  | some isValid =>
    have hiff := himpl.truth asked st.solver isValid hasked hsat hanswer
    cases isValid with
    | true =>
      obtain ⟨hmust, hvalidity⟩ := htrue (hiff.mp rfl)
      exact Good.inserted hquery hinv' hmust hvalidity
    | false =>
      have hboth := hfalse fun h => Bool.false_ne_true (hiff.mpr h)
      exact Good.inserted hquery hinv' hboth hboth

theorem computeValidity_spec (opt : Bool) (less : Expr → Expr → Bool) (himpl : impl.Decides) (hquery : query.WellFormed)
    (hsat : query.Satisfiable)
    (hinv : Inv st) : Good impl query.HasValidity (computeValidity opt less impl query st) := by
  obtain ⟨cached, hcached, hknown⟩ := cacheLookup_spec opt less hquery hinv
  unfold computeValidity
  rw [hcached]
  have hanswer : ∀ result, query.HasValidity result → Good impl query.HasValidity (.ok (some result, st)) :=
    fun result h => ⟨some result, st, rfl, hinv, fun a ha => Option.some.inj ha ▸ h, fun _ => nofun⟩
  cases cached with
  | none =>
    obtain ⟨answer, st', hask, hanswer', hinv'⟩ := askValidity_spec impl query st hinv
    simp only [bind, Except.bind, hask]
    cases answer with
    | none => exact ⟨none, st', rfl, hinv', nofun, fun h => absurd hanswer' (h.validity query st.solver)⟩
    | some result =>
      have hvalidity := himpl.validity query st.solver result hquery hsat hanswer'
      refine Good.inserted hquery hinv' ?_ hvalidity
      cases result with
      | True => exact hvalidity
      | False => exact hvalidity
      | Unknown => exact hvalidity
  | some pv =>
    have hpv := hknown pv rfl
    simp only [bind, Except.bind]
    cases pv with
    | mustBeTrue => exact hanswer .True hpv
    | mustBeFalse => exact hanswer .False hpv
    | trueOrFalse => exact hanswer .Unknown hpv
    | mayBeTrue => exact refine_spec himpl hquery hinv hquery hsat (fun h => ⟨h, h⟩) fun h => ⟨h, hpv⟩
    | mayBeFalse =>
      obtain ⟨n, -, hneg, hwf, hholds⟩ := Query.negateExpr_spec opt hquery
      rw [hneg]
      refine refine_spec himpl hquery hinv hwf hsat (fun h => ?_) fun h => ?_
      · exact ⟨(Query.valid_withExpr_iff hholds).mp h, (Query.valid_withExpr_iff hholds).mp h⟩
      · exact ⟨hpv, fun hrefuted => h ((Query.valid_withExpr_iff hholds).mpr hrefuted)⟩
    | none => exact hpv.elim

theorem queryTruth_spec (opt : Bool) (less : Expr → Expr → Bool) (himpl : impl.Decides) (hquery : query.WellFormed)
    (hsat : query.Satisfiable) (hinv : Inv st) {cacheHit : Bool} (hmay : cacheHit = true → ¬query.Refuted) :
    Good impl (fun isValid => isValid = true ↔ query.Valid) (queryTruth opt less impl query cacheHit st) := by
  obtain ⟨answer, st', hask, hanswer, hinv'⟩ := askTruth_spec impl query st hinv
  unfold queryTruth
  rw [hask]
  cases answer with
  | none => exact ⟨none, st', rfl, hinv', nofun, fun h => absurd hanswer (h.truth query st.solver)⟩
  | some isValid =>
    have hiff := himpl.truth query st.solver isValid hquery hsat hanswer
    refine Good.inserted hquery hinv' ?_ hiff
    cases isValid with
    | true => exact hiff.mp rfl
    | false =>
      have hnot : ¬query.Valid := fun h => Bool.false_ne_true (hiff.mpr h)
      cases cacheHit with
      | true => exact ⟨hnot, hmay rfl⟩
      | false => exact hnot

theorem computeTruth_spec (opt : Bool) (less : Expr → Expr → Bool) (himpl : impl.Decides) (hquery : query.WellFormed)
    (hsat : query.Satisfiable) (hinv : Inv st) :
    Good impl (fun isValid => isValid = true ↔ query.Valid) (computeTruth opt less impl query st) := by
  obtain ⟨cached, hcached, hknown⟩ := cacheLookup_spec opt less hquery hinv
  unfold computeTruth
  rw [hcached]
  have hanswer : ∀ isValid, (isValid = true ↔ query.Valid) →
      Good impl (fun isValid => isValid = true ↔ query.Valid) (.ok (some isValid, st)) :=
    fun isValid h => ⟨some isValid, st, rfl, hinv, fun a ha => Option.some.inj ha ▸ h, fun _ => nofun⟩
  cases cached with
  | none => exact queryTruth_spec opt less himpl hquery hsat hinv nofun
  | some pv =>
    have hpv := hknown pv rfl
    cases pv with
    | mayBeTrue => exact queryTruth_spec opt less himpl hquery hsat hinv fun _ => hpv
    | mustBeTrue => exact hanswer true (iff_of_true rfl hpv)
    | mustBeFalse => exact hanswer false (iff_of_false Bool.false_ne_true (not_valid_of_refuted hsat hpv))
    | mayBeFalse => exact hanswer false (iff_of_false Bool.false_ne_true hpv)
    | trueOrFalse => exact hanswer false (iff_of_false Bool.false_ne_true hpv.1)
    | none => exact hpv.elim

/-! ### Histories -/

/-- The answer that the semantics of the query prescribes. -/
def Answer.Right : Answer → Prop
  | .validity query result => ∀ validity, result = some validity → query.HasValidity validity
  | .truth query result => ∀ isValid, result = some isValid → (isValid = true ↔ query.Valid)

def Answer.Given : Answer → Prop
  | .validity _ result => result ≠ none
  | .truth _ result => result ≠ none

theorem step_spec (opt : Bool) (less : Expr → Expr → Bool) (himpl : impl.Decides) {request : Request} (hquery : request.query.WellFormed)
    (hsat : request.query.Satisfiable) (hinv : Inv st) :
    ∃ answer st', step opt less impl st request = .ok (answer, st') ∧ Inv st' ∧ answer.request = request ∧
      answer.Right ∧ (impl.Answers → answer.Given) := by
  cases request with
  | validity query =>
    have hquery' : query.WellFormed := hquery
    obtain ⟨result, st', hresult, hinv', hright, hgiven⟩ := computeValidity_spec opt less himpl hquery' hsat hinv
    exact ⟨.validity query result, st', by rw [step, hresult]; rfl, hinv', rfl, hright, hgiven⟩
  | truth query =>
    have hquery' : query.WellFormed := hquery
    obtain ⟨result, st', hresult, hinv', hright, hgiven⟩ := computeTruth_spec opt less himpl hquery' hsat hinv
    exact ⟨.truth query result, st', by rw [step, hresult]; rfl, hinv', rfl, hright, hgiven⟩

theorem run_spec (himpl : impl.Decides) (requests : List Request) :
    ∀ st : State σ, Inv st → (∀ request ∈ requests, request.query.WellFormed ∧ request.query.Satisfiable) →
      ∃ answers st', run opt less impl st requests = .ok (answers, st') ∧ answers.map Answer.request = requests ∧
        ∀ answer ∈ answers, answer.Right ∧ (impl.Answers → answer.Given) := by
  induction requests with
  | nil => exact fun st _ _ => ⟨[], st, rfl, rfl, nofun⟩
  | cons request requests ih =>
    intro st hinv hrequests
    obtain ⟨hquery, hsat⟩ := hrequests request List.mem_cons_self
    obtain ⟨answer, st', hstep, hinv', hrequest, hright⟩ := step_spec opt less himpl hquery hsat hinv
    obtain ⟨answers, st'', hrun, hmap, hall⟩ := ih st' hinv' fun r hr => hrequests r (List.mem_cons_of_mem _ hr)
    refine ⟨answer :: answers, st'', ?_, ?_, ?_⟩
    · rw [run, hstep]
      simp [bind, Except.bind, hrun, pure, Except.pure]
    · rw [List.map_cons, hrequest, hmap]
    · intro a ha
      rcases List.mem_cons.mp ha with rfl | hold
      · exact hright
      · exact hall a hold

/-- For every history of queries and every solver that decides what it is asked, each answer is the one that the
    semantics prescribes, and there is one unless the wrapped solver fails. -/
theorem cachingSolver_transparent (opt : Bool) (less : Expr → Expr → Bool) (impl : SolverImpl σ) (himpl : impl.Decides)
    (s : σ) (requests : List Request)
    (hrequests : ∀ request ∈ requests, request.query.WellFormed ∧ request.query.Satisfiable) :
    ∃ answers st, run opt less impl (initial s) requests = .ok (answers, st) ∧ answers.map Answer.request = requests ∧
      ∀ answer ∈ answers, answer.Right ∧ (impl.Answers → answer.Given) :=
  run_spec himpl requests (initial s) nofun hrequests

open Classical in
/-- The solver that decides every query, whether or not a program can. -/
noncomputable def exactSolver : SolverImpl Unit where
  computeTruth query s := (some (decide query.Valid), s)
  computeValidity query s := (some (if query.Valid then .True else if query.Refuted then .False else .Unknown), s)
  computeValue _ s := (none, s)
  computeInitialValues _ _ s := (none, s)

theorem exactSolver_decides : exactSolver.Decides where
  truth query s isValid _ _ h := by
    classical
    obtain rfl := Option.some.inj h
    exact decide_eq_true_iff
  validity query s result _ _ h := by
    obtain rfl := Option.some.inj h
    by_cases hvalid : query.Valid
    · rw [if_pos hvalid]
      exact hvalid
    · rw [if_neg hvalid]
      by_cases hrefuted : query.Refuted
      · rw [if_pos hrefuted]
        exact hrefuted
      · rw [if_neg hrefuted]
        exact ⟨hvalid, hrefuted⟩

/-- Whether the first byte of an array of four is above 7, without constraints. -/
def byteQuery : Query := ⟨[], .cmp .ult (.constant 8 7) (.read (.root ⟨0, 4, 32, 8, []⟩) (.constant 32 0))⟩

theorem byteQuery_wellFormed : byteQuery.WellFormed where
  constraints := nofun
  expr := ⟨⟨Nat.succ_pos 7, ⟨⟨by decide, by decide, nofun⟩, Nat.succ_pos 31, rfl⟩, rfl⟩, rfl⟩

/-- The negation is an equality, whose kind comes before that of the query in `Expr::compare`. -/
theorem cachingSolver_transparent_bytes :
    ∃ answers st, run false (fun _ _ => false) exactSolver (initial ()) [.truth byteQuery, .validity byteQuery] =
      .ok (answers, st) ∧ answers.map Answer.request = [.truth byteQuery, .validity byteQuery] ∧
      ∀ answer ∈ answers, answer.Right ∧ (exactSolver.Answers → answer.Given) := by
  refine cachingSolver_transparent false (fun _ _ => false) exactSolver exactSolver_decides () _ ?_
  intro request hrequest
  have hquery : request.query = byteQuery := by
    rcases List.mem_cons.mp hrequest with rfl | hrest
    · rfl
    · obtain rfl := List.mem_singleton.mp hrest
      rfl
  rw [hquery]
  exact ⟨byteQuery_wellFormed, fun _ _ => 0, nofun⟩

end CachingSolver

end CapTaint.Klee
