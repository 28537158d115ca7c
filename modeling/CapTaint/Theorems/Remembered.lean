import CapTaint.Lib.OptionLoop
import CapTaint.Theorems.CachingSolver

/-! # What the cache remembers

An entry is never replaced: `cacheInsert` leaves what is there. A query whose exact validity is stored is answered
without the wrapped solver from then on; one that is stored with a weaker result is asked again each time. -/

namespace CapTaint.Klee.CachingSolver

variable {σ : Type} {opt : Bool} {less : Expr → Expr → Bool} {impl : SolverImpl σ} {query query' : Query}
  {st st' : State σ} {ce : CacheEntry} {pv : PartialValidity}

/-- The entry of the query in the cache. -/
def HasEntry (opt : Bool) (less : Expr → Expr → Bool) (query : Query) (ce : CacheEntry) : Prop :=
  ∃ negationUsed, canonicalizeQuery opt less query.expr = .ok (ce.query, negationUsed) ∧ ce.constraints = query.constraints

/-- The two queries have the same canonical form. -/
def SameCanonical (opt : Bool) (less : Expr → Expr → Bool) (query query' : Query) : Prop :=
  ∃ ce, HasEntry opt less query ce ∧ HasEntry opt less query' ce

/-- A result that is not exact. -/
def PartialValidity.isMay : PartialValidity → Bool
  | .mayBeTrue | .mayBeFalse => true
  | _ => false

def PartialValidity.isExact : PartialValidity → Bool
  | .mustBeTrue | .mustBeFalse | .trueOrFalse => true
  | _ => false

/-- The cache holds a weaker result for the query. -/
def HoldsMay (opt : Bool) (less : Expr → Expr → Bool) (query : Query) (st : State σ) : Prop :=
  ∃ ce pv, HasEntry opt less query ce ∧ st.cache.lookup ce = some pv ∧ PartialValidity.isMay pv = true

/-- An answer without a call of the wrapped solver. -/
def NoCall {α : Type} (st : State σ) (result : Except Abort (Option α × State σ)) : Prop :=
  ∃ answer st', result = .ok (some answer, st') ∧ st'.calls = st.calls

/-! ### Entries stay -/

theorem HasEntry.unique {ce' : CacheEntry} (h : HasEntry opt less query ce) (h' : HasEntry opt less query ce') :
    ce = ce' := by
  obtain ⟨neg, hc, hconstraints⟩ := h
  obtain ⟨neg', hc', hconstraints'⟩ := h'
  obtain ⟨hquery, -⟩ := Prod.mk.inj (Except.ok.inj (hc.symm.trans hc'))
  cases ce
  cases ce'
  simp_all

/-- The steps of the solver add entries and calls. -/
structure Grows (st st' : State σ) : Prop where
  cache : ∀ ce pv, st.cache.lookup ce = some pv → st'.cache.lookup ce = some pv

theorem Grows.refl (st : State σ) : Grows st st := ⟨fun _ _ h => h⟩

theorem Grows.trans {st'' : State σ} (h : Grows st st') (h' : Grows st' st'') : Grows st st'' :=
  ⟨fun ce pv hlookup => h'.cache ce pv (h.cache ce pv hlookup)⟩

theorem lookup_cons_of_isNone {cache : List (CacheEntry × PartialValidity)} {new : CacheEntry} {result : PartialValidity}
    (hnew : (cache.lookup new).isSome = false) (h : cache.lookup ce = some pv) :
    List.lookup ce ((new, result) :: cache) = some pv := by
  have hne : ce ≠ new := by
    rintro rfl
    rw [h] at hnew
    cases hnew
  rw [List.lookup_cons, beq_eq_false_iff_ne.mpr hne]
  exact h

/-- What `cacheInsert` does: the entry of the query is there afterwards, as it was or with the new result. -/
theorem cacheInsert_cases {result : PartialValidity} (h : cacheInsert opt less query result st = .ok st') :
    ∃ ce pv negationUsed, HasEntry opt less query ce ∧ orient negationUsed result = .ok pv ∧ Grows st st' ∧
      st'.calls = st.calls ∧ st'.cache.lookup ce = some ((st.cache.lookup ce).getD pv) := by
  unfold cacheInsert at h
  obtain ⟨⟨c, neg⟩, hc, h⟩ := Result.bind_eq_ok.mp h
  obtain ⟨pv, hpv, h⟩ := Result.bind_eq_ok.mp h
  refine ⟨⟨query.constraints, c⟩, pv, neg, ⟨neg, hc, rfl⟩, hpv, ?_⟩
  dsimp only at h
  split at h
  case isTrue hpresent =>
    obtain rfl := Except.ok.inj h
    obtain ⟨old, hold⟩ := Option.isSome_iff_exists.mp hpresent
    exact ⟨.refl st, rfl, by rw [hold]; rfl⟩
  case isFalse habsent =>
    obtain rfl := Except.ok.inj h
    have hnone : (st.cache.lookup ⟨query.constraints, c⟩).isSome = false := Bool.not_eq_true _ ▸ habsent
    refine ⟨⟨fun ce pv hold => lookup_cons_of_isNone hnone hold⟩, rfl, ?_⟩
    rw [Option.not_isSome_iff_eq_none.mp habsent, List.lookup_cons_self]
    rfl

theorem cacheLookup_cases {cached : Option PartialValidity} (h : cacheLookup opt less query st = .ok cached) :
    ∃ ce negationUsed, HasEntry opt less query ce ∧
      ((st.cache.lookup ce = none ∧ cached = none) ∨
        ∃ pv pv', st.cache.lookup ce = some pv ∧ orient negationUsed pv = .ok pv' ∧ cached = some pv') := by
  unfold cacheLookup at h
  obtain ⟨⟨c, neg⟩, hc, h⟩ := Result.bind_eq_ok.mp h
  refine ⟨⟨query.constraints, c⟩, neg, ⟨neg, hc, rfl⟩, ?_⟩
  dsimp only at h
  split at h
  case h_1 pv hlookup =>
    obtain ⟨pv', hpv, h⟩ := Result.bind_eq_ok.mp h
    exact .inr ⟨pv, pv', hlookup, hpv, (Except.ok.inj h).symm⟩
  case h_2 hlookup => exact .inl ⟨hlookup, (Except.ok.inj h).symm⟩

theorem orient_exact {negationUsed : Bool} {pv' : PartialValidity} (h : orient negationUsed pv = .ok pv') :
    PartialValidity.isExact pv' = PartialValidity.isExact pv ∧ PartialValidity.isMay pv' = PartialValidity.isMay pv := by
  cases negationUsed with
  | false =>
    obtain rfl := Except.ok.inj h
    exact ⟨rfl, rfl⟩
  | true => cases pv <;> cases h <;> exact ⟨rfl, rfl⟩

/-! ### Requests -/

/-- A step that called the wrapped solver. -/
structure Asked (st st' : State σ) : Prop extends Grows st st' where
  calls : st'.calls ≠ st.calls

theorem askTruth_asked {asked : Query} {answer : Option Bool} (h : askTruth impl asked st = (answer, st')) :
    Asked st st' ∧ st'.cache = st.cache := by
  obtain ⟨-, rfl⟩ := Prod.mk.inj h
  exact ⟨⟨⟨fun _ _ hlookup => hlookup⟩, by simp⟩, rfl⟩

theorem askValidity_asked {answer : Option Validity} (h : askValidity impl query st = (answer, st')) :
    Asked st st' ∧ st'.cache = st.cache := by
  obtain ⟨-, rfl⟩ := Prod.mk.inj h
  exact ⟨⟨⟨fun _ _ hlookup => hlookup⟩, by simp⟩, rfl⟩

theorem Asked.inserted {st'' : State σ} {result : PartialValidity} (h : Asked st st')
    (hinsert : cacheInsert opt less query result st' = .ok st'') : Asked st st'' := by
  obtain ⟨-, -, -, -, -, hgrows, hcalls, -⟩ := cacheInsert_cases hinsert
  exact ⟨h.toGrows.trans hgrows, hcalls ▸ h.calls⟩

theorem refine_asked {asked : Query} {must : PartialValidity} {result : Validity} {answer : Option Validity}
    (h : refine opt less impl query asked must result st = .ok (answer, st')) : Asked st st' := by
  unfold refine at h
  split at h
  case h_1 st₁ hask =>
    obtain ⟨-, rfl⟩ := Prod.mk.inj (Except.ok.inj h)
    exact (askTruth_asked hask).1
  case h_2 st₁ hask | h_3 st₁ hask =>
    obtain ⟨st₂, hinsert, h⟩ := Result.bind_eq_ok.mp h
    obtain ⟨-, rfl⟩ := Prod.mk.inj (Except.ok.inj h)
    exact (askTruth_asked hask).1.inserted hinsert

/-- What `computeValidity` does: the cache has the exact validity, or a weaker one, which stays, or none. -/
theorem computeValidity_cases {answer : Option Validity} (h : computeValidity opt less impl query st = .ok (answer, st')) :
    ∃ ce, HasEntry opt less query ce ∧
      ((∃ pv, st.cache.lookup ce = some pv ∧ PartialValidity.isExact pv = true ∧ st' = st) ∨
       (∃ pv, st.cache.lookup ce = some pv ∧ PartialValidity.isMay pv = true ∧ Asked st st') ∨
       (st.cache.lookup ce = none ∧ Asked st st' ∧
        (answer ≠ none → ∃ pv, st'.cache.lookup ce = some pv ∧ PartialValidity.isExact pv = true))) := by
  unfold computeValidity at h
  obtain ⟨cached, hcached, h⟩ := Result.bind_eq_ok.mp h
  obtain ⟨ce, neg, hentry, ⟨hnone, rfl⟩ | ⟨pv, pv', hlookup, hpv, rfl⟩⟩ := cacheLookup_cases hcached
  · refine ⟨ce, hentry, .inr (.inr ⟨hnone, ?_⟩)⟩
    dsimp only at h
    split at h
    case h_1 st₁ hask =>
      obtain ⟨rfl, rfl⟩ := Prod.mk.inj (Except.ok.inj h)
      exact ⟨(askValidity_asked hask).1, fun hne => absurd rfl hne⟩
    case h_2 result st₁ hask =>
      obtain ⟨st₂, hinsert, h⟩ := Result.bind_eq_ok.mp h
      obtain ⟨-, rfl⟩ := Prod.mk.inj (Except.ok.inj h)
      obtain ⟨hasked, hcache⟩ := askValidity_asked hask
      refine ⟨hasked.inserted hinsert, fun _ => ?_⟩
      obtain ⟨ce', pv, neg', hentry', horient, -, -, hlookup⟩ := cacheInsert_cases hinsert
      obtain rfl := hentry.unique hentry'
      rw [hcache, hnone] at hlookup
      refine ⟨pv, hlookup, (orient_exact horient).1.trans ?_⟩
      cases result <;> rfl
  · refine ⟨ce, hentry, ?_⟩
    obtain ⟨hexact, hmay⟩ := orient_exact hpv
    cases pv' with
    | mustBeTrue | mustBeFalse | trueOrFalse =>
      obtain ⟨-, rfl⟩ := Prod.mk.inj (Except.ok.inj h)
      exact .inl ⟨pv, hlookup, hexact.symm, rfl⟩
    | mayBeTrue => exact .inr (.inl ⟨pv, hlookup, hmay.symm, refine_asked h⟩)
    | mayBeFalse =>
      obtain ⟨negated, -, h⟩ := Result.bind_eq_ok.mp h
      exact .inr (.inl ⟨pv, hlookup, hmay.symm, refine_asked h⟩)
    | none => cases h

theorem queryTruth_grows {cacheHit : Bool} {answer : Option Bool}
    (h : queryTruth opt less impl query cacheHit st = .ok (answer, st')) : Grows st st' := by
  unfold queryTruth at h
  split at h
  case h_1 st₁ hask =>
    obtain ⟨-, rfl⟩ := Prod.mk.inj (Except.ok.inj h)
    exact (askTruth_asked hask).1.toGrows
  case h_2 isValid st₁ hask =>
    obtain ⟨st₂, hinsert, h⟩ := Result.bind_eq_ok.mp h
    obtain ⟨-, rfl⟩ := Prod.mk.inj (Except.ok.inj h)
    exact ((askTruth_asked hask).1.inserted hinsert).toGrows

theorem computeTruth_grows {answer : Option Bool} (h : computeTruth opt less impl query st = .ok (answer, st')) :
    Grows st st' := by
  unfold computeTruth at h
  obtain ⟨cached, -, h⟩ := Result.bind_eq_ok.mp h
  split at h
  case h_1 => exact queryTruth_grows h
  case h_2 => exact queryTruth_grows h
  case h_3 =>
    obtain ⟨-, rfl⟩ := Prod.mk.inj (Except.ok.inj h)
    exact .refl st

theorem step_grows {request : Request} {answer : Answer} (h : step opt less impl st request = .ok (answer, st')) :
    Grows st st' := by
  cases request with
  | validity query =>
    obtain ⟨⟨result, st₁⟩, hcompute, h⟩ := Result.bind_eq_ok.mp h
    obtain ⟨-, rfl⟩ := Prod.mk.inj (Except.ok.inj h)
    obtain ⟨ce, -, ⟨-, -, -, rfl⟩ | ⟨-, -, -, hasked⟩ | ⟨-, hasked, -⟩⟩ := computeValidity_cases hcompute
    · exact .refl _
    · exact hasked.toGrows
    · exact hasked.toGrows
  | truth query =>
    obtain ⟨⟨result, st₁⟩, hcompute, h⟩ := Result.bind_eq_ok.mp h
    obtain ⟨-, rfl⟩ := Prod.mk.inj (Except.ok.inj h)
    exact computeTruth_grows hcompute

theorem run_grows (requests : List Request) : ∀ {st : State σ} {answers : List Answer},
    run opt less impl st requests = .ok (answers, st') → Grows st st' := by
  induction requests with
  | nil =>
    intro st answers h
    obtain ⟨-, rfl⟩ := Prod.mk.inj (Except.ok.inj h)
    exact .refl st
  | cons request requests ih =>
    intro st answers h
    obtain ⟨⟨answer, st₁⟩, hstep, h⟩ := Result.bind_eq_ok.mp h
    obtain ⟨⟨rest, st₂⟩, hrun, h⟩ := Result.bind_eq_ok.mp h
    obtain ⟨-, rfl⟩ := Prod.mk.inj (Except.ok.inj h)
    exact (step_grows hstep).trans (ih hrun)

/-! ### Remembering -/

theorem exact_orient (h : PartialValidity.isExact pv = true) (negationUsed : Bool) :
    ∃ pv', orient negationUsed pv = .ok pv' ∧ PartialValidity.isExact pv' = true := by
  cases negationUsed with
  | false => exact ⟨pv, rfl, h⟩
  | true => cases pv <;> first | exact ⟨_, rfl, rfl⟩ | cases h

/-- With an exact entry both functions answer from the cache. -/
theorem exact_noCall (hentry : HasEntry opt less query ce) (hlookup : st.cache.lookup ce = some pv)
    (hexact : PartialValidity.isExact pv = true) :
    NoCall st (computeValidity opt less impl query st) ∧ NoCall st (computeTruth opt less impl query st) := by
  obtain ⟨neg, hc, hconstraints⟩ := hentry
  obtain ⟨pv', hpv', hexact'⟩ := exact_orient hexact neg
  have hcached : cacheLookup opt less query st = .ok (some pv') := by
    unfold cacheLookup
    obtain ⟨constraints, c⟩ := ce
    obtain rfl : constraints = query.constraints := hconstraints
    simp only [hc, bind, Except.bind, hlookup, hpv', pure, Except.pure]
  unfold computeValidity computeTruth
  rw [hcached]
  cases pv' with
  | mustBeTrue => exact ⟨⟨.True, st, rfl, rfl⟩, true, st, rfl, rfl⟩
  | mustBeFalse => exact ⟨⟨.False, st, rfl, rfl⟩, false, st, rfl, rfl⟩
  | trueOrFalse => exact ⟨⟨.Unknown, st, rfl, rfl⟩, false, st, rfl, rfl⟩
  | _ => cases hexact'

theorem not_exact_of_may (h : PartialValidity.isMay pv = true) : PartialValidity.isExact pv = false := by
  cases pv with
  | mayBeTrue | mayBeFalse => rfl
  | _ => cases h

/-- With a weaker entry `computeValidity` calls the wrapped solver. -/
theorem may_call (hentry : HasEntry opt less query ce) (hlookup : st.cache.lookup ce = some pv)
    (hmay : PartialValidity.isMay pv = true) : ¬NoCall st (computeValidity opt less impl query st) := by
  rintro ⟨answer, st', hcompute, hcalls⟩
  obtain ⟨ce', hentry', hcases⟩ := computeValidity_cases hcompute
  obtain rfl := hentry.unique hentry'
  rcases hcases with ⟨pv', hpv', hexact, -⟩ | ⟨pv', -, -, hasked⟩ | ⟨hnone, -, -⟩
  · obtain rfl := Option.some.inj (hlookup.symm.trans hpv')
    rw [not_exact_of_may hmay] at hexact
    cases hexact
  · exact hasked.calls hcalls
  · rw [hlookup] at hnone
    cases hnone

/-- Once `computeValidity` has answered, every later request for a query of the same canonical form is answered without
    the wrapped solver, if and only if the cache held no weaker result for it before. -/
theorem cachingSolver_remembers_iff (opt : Bool) (less : Expr → Expr → Bool) (impl : SolverImpl σ) (query : Query)
    (st st₁ : State σ) (result : Validity)
    (hcompute : computeValidity opt less impl query st = .ok (some result, st₁)) :
    (∀ requests answers st₂, run opt less impl st₁ requests = .ok (answers, st₂) →
      ∀ query', SameCanonical opt less query query' →
        NoCall st₂ (computeValidity opt less impl query' st₂) ∧ NoCall st₂ (computeTruth opt less impl query' st₂)) ↔
      ¬HoldsMay opt less query st := by
  obtain ⟨ce, hentry, hcases⟩ := computeValidity_cases hcompute
  constructor
  · rintro hremembers ⟨ce', pv, hentry', hlookup, hmay⟩
    obtain rfl := hentry.unique hentry'
    -- the entry that was there stays, and the same query is asked again at once
    have hstays : st₁.cache.lookup ce = some pv := by
      rcases hcases with ⟨-, -, -, rfl⟩ | ⟨-, -, -, hasked⟩ | ⟨-, hasked, -⟩
      · exact hlookup
      · exact hasked.cache ce pv hlookup
      · exact hasked.cache ce pv hlookup
    exact may_call hentry hstays hmay (hremembers [] [] st₁ rfl query ⟨ce, hentry, hentry⟩).1
  · intro hnotMay requests answers st₂ hrun query' hsame
    obtain ⟨ce', hentry₁, hentry₂⟩ := hsame
    obtain rfl := hentry.unique hentry₁
    obtain ⟨pv, hlookup, hexact⟩ : ∃ pv, st₁.cache.lookup ce = some pv ∧ PartialValidity.isExact pv = true := by
      rcases hcases with ⟨pv, hlookup, hexact, rfl⟩ | ⟨pv, hlookup, hmay, -⟩ | ⟨-, -, hstored⟩
      · exact ⟨pv, hlookup, hexact⟩
      · exact absurd ⟨ce, pv, hentry, hlookup, hmay⟩ hnotMay
      · exact hstored nofun
    exact exact_noCall hentry₂ ((run_grows requests hrun).cache ce pv hlookup) hexact

/-- A solver that finds both assignments, which is right for a byte without constraints. -/
def bothSolver : SolverImpl Unit where
  computeTruth _ s := (some false, s)
  computeValidity _ s := (some .Unknown, s)
  computeValue _ s := (none, s)
  computeInitialValues _ _ s := (none, s)

/-- What a new solver keeps after its first request. -/
def afterFirst : State Unit := ⟨[(⟨[], .cmp .eq (.constant 1 0) byteQuery.expr⟩, .trueOrFalse)], (), [.validity byteQuery]⟩

/-- The cache of a new solver is empty, and holds the exact validity after the first request. -/
theorem cachingSolver_remembers_first :
    NoCall afterFirst (computeValidity false (fun _ _ => false) bothSolver byteQuery afterFirst) ∧
      NoCall afterFirst (computeTruth false (fun _ _ => false) bothSolver byteQuery afterFirst) := by
  have hentry : HasEntry false (fun _ _ => false) byteQuery ⟨[], .cmp .eq (.constant 1 0) byteQuery.expr⟩ :=
    ⟨true, rfl, rfl⟩
  refine (cachingSolver_remembers_iff false (fun _ _ => false) bothSolver byteQuery (initial ()) afterFirst .Unknown rfl).mpr
    ?_ [] [] afterFirst rfl byteQuery ⟨_, hentry, hentry⟩
  rintro ⟨ce, pv, -, hlookup, -⟩
  cases hlookup

/-- `computeTruth` leaves `MayBeFalse` in the cache. The exact validity that `computeValidity` finds next is not stored,
    and the same request calls the wrapped solver again. -/
theorem cachingSolver_forgets :
    ∃ st₁ st₂ st₃, run false (fun _ _ => false) bothSolver (initial ()) [.truth byteQuery] =
        .ok ([.truth byteQuery (some false)], st₁) ∧
      computeValidity false (fun _ _ => false) bothSolver byteQuery st₁ = .ok (some .Unknown, st₂) ∧
      computeValidity false (fun _ _ => false) bothSolver byteQuery st₂ = .ok (some .Unknown, st₃) ∧
      st₃.calls ≠ st₂.calls :=
  ⟨_, _, _, rfl, rfl, rfl, by decide⟩

end CapTaint.Klee.CachingSolver
