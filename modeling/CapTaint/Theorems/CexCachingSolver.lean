import CapTaint.Theorems.Evaluator
import CapTaint.Theorems.Negation
import CapTaint.Theorems.Reads
import CapTaint.Klee.CexCachingSolver

/-! # The cache of counterexamples

Whatever the history, an assignment in the cache satisfies its key and a missing one stands for an unsatisfiable key. The
answers follow. There is none when the experimental shortcut finds that the query is false. -/

namespace CapTaint.Klee

/-- The bytes of the objects under a valuation. -/
def bytesOf (v : Valuation) (objects : List Array) : List (List Nat) :=
  objects.map fun array => (List.range array.size).map (v array)

/-- A counterexample of the query. -/
structure Query.Refutes (query : Query) (v : Valuation) : Prop where
  satisfies : query.Satisfies v
  expr : ¬query.expr.Holds v

/-- What the initial values say about a query. -/
def Query.HasInitialValues (query : Query) (objects : List Array) : Option (List (List Nat)) → Prop
  | none => query.Valid
  | some values => ∃ v, query.Refutes v ∧ values = bytesOf v objects

/-- The solver finds counterexamples, and it does not fail. -/
def SolverImpl.FindsValues {σ : Type} (impl : SolverImpl σ) : Prop :=
  ∀ (query : Query) (objects : List Array) (s : σ), query.WellFormed → query.Satisfiable →
    ∃ result, (impl.computeInitialValues query objects s).1 = some result ∧ query.HasInitialValues objects result

theorem Query.valid_iff {query : Query} : query.Valid ↔ ∀ v, ¬query.Refutes v :=
  ⟨fun h v hr => hr.expr (h v hr.satisfies), fun h v hs => by_contra fun he => h v ⟨hs, he⟩⟩

/-! ### Assignments from values -/

namespace Assignment

section
variable {object array : Array} {bytes : List Nat} {bindings : List (Array × List Nat)} {binding : Array × List Nat}

theorem mem_insertBinding (h : binding ∈ insertBinding object bytes bindings) :
    binding = (object, bytes) ∨ binding ∈ bindings := by
  induction bindings with
  | nil => exact .inl (List.mem_singleton.mp h)
  | cons b bs ih =>
    unfold insertBinding at h
    split at h
    case isTrue => exact .inr h
    case isFalse =>
      split at h
      case isTrue => exact (List.mem_cons.mp h)
      case isFalse =>
        rcases List.mem_cons.mp h with rfl | hrest
        · exact .inr List.mem_cons_self
        · exact (ih hrest).imp_right (List.mem_cons_of_mem b)

theorem insertBinding_keys : array = object ∨ array ∈ bindings.map Prod.fst →
    array ∈ (insertBinding object bytes bindings).map Prod.fst := by
  induction bindings with
  | nil =>
    rintro (rfl | h)
    · exact List.mem_singleton_self _
    · cases h
  | cons b bs ih =>
    intro h
    unfold insertBinding
    rw [List.map_cons, List.mem_cons] at h
    split
    case isTrue heq =>
      rw [List.map_cons, List.mem_cons]
      rcases h with rfl | h
      · exact .inl heq
      · exact h
    case isFalse =>
      split
      case isTrue => simpa only [List.map_cons, List.mem_cons] using h
      case isFalse =>
        rw [List.map_cons, List.mem_cons]
        rcases h with hobject | rfl | h
        · exact .inr (ih (.inl hobject))
        · exact .inl rfl
        · exact .inr (ih (.inr h))

end

variable {v : Valuation} {objects : List Array} {array : Array}

theorem mem_foldl_insertBinding {f : Array → List Nat} (objects : List Array) (bindings : List (Array × List Nat)) :
    (∀ binding ∈ (objects.map fun array => (array, f array)).foldl (fun bs b => insertBinding b.1 b.2 bs) bindings,
      binding ∈ bindings ∨ (binding.1 ∈ objects ∧ binding.2 = f binding.1)) ∧
    ∀ array, array ∈ objects ∨ array ∈ bindings.map Prod.fst →
      array ∈ ((objects.map fun array => (array, f array)).foldl (fun bs b => insertBinding b.1 b.2 bs) bindings).map Prod.fst := by
  induction objects generalizing bindings with
  | nil => exact ⟨fun _ h => .inl h, fun _ h => h.resolve_left nofun⟩
  | cons object objects ih =>
    obtain ⟨hmem, hkeys⟩ := ih (insertBinding object (f object) bindings)
    refine ⟨fun binding h => ?_, fun array h => hkeys array ?_⟩
    · rcases hmem binding h with hold | ⟨hobject, hbytes⟩
      · rcases mem_insertBinding hold with rfl | hold
        · exact .inr ⟨List.mem_cons_self, rfl⟩
        · exact .inl hold
      · exact .inr ⟨List.mem_cons_of_mem _ hobject, hbytes⟩
    · rcases h with hobject | hold
      · rcases List.mem_cons.mp hobject with rfl | hobject
        · exact .inr (insertBinding_keys (.inl rfl))
        · exact .inl hobject
      · exact .inr (insertBinding_keys (.inr hold))

theorem ofValues_bytesOf (v : Valuation) (objects : List Array) : ofValues objects (bytesOf v objects) =
    ⟨(objects.map fun array => (array, (List.range array.size).map (v array))).foldl
      (fun bs b => insertBinding b.1 b.2 bs) []⟩ := by
  have hzip : ∀ objects : List Array, objects.zip (bytesOf v objects) =
      objects.map fun array => (array, (List.range array.size).map (v array)) := by
    intro objects
    induction objects with
    | nil => rfl
    | cons object objects ih => exact congrArg _ ih
  rw [ofValues, hzip]

theorem wellFormed_ofValues (v : Valuation) (hobjects : ∀ array ∈ objects, array.isSymbolicArray = true) :
    (ofValues objects (bytesOf v objects)).WellFormed := by
  intro binding hbinding
  rw [ofValues_bytesOf] at hbinding
  obtain ⟨hobject, hbytes⟩ := ((mem_foldl_insertBinding objects []).1 binding hbinding).resolve_left nofun
  refine ⟨hobjects _ hobject, ?_⟩
  rw [hbytes, List.length_map, List.length_range]

/-- The objects have the elements that they have under `v`. -/
theorem initial_ofValues (v : Valuation) (harray : array ∈ objects) (i : Nat) :
    array.initial (ofValues objects (bytesOf v objects)).byteOf i = array.initial v i := by
  unfold Array.initial
  split
  case isTrue => rfl
  case isFalse =>
    split
    case isFalse => rfl
    case isTrue hi =>
      rw [ofValues_bytesOf]
      obtain ⟨hmem, hkeys⟩ := mem_foldl_insertBinding (f := fun array => (List.range array.size).map (v array)) objects []
      generalize List.foldl _ _ _ = bindings at hmem hkeys
      have hbyte : (Assignment.mk bindings).byteOf array i = v array i := by
        unfold Assignment.byteOf
        cases hlookup : bindings.lookup array with
        | none =>
          obtain ⟨binding, hbinding, rfl⟩ := List.mem_map.mp (hkeys array (.inl harray))
          simpa using List.lookup_eq_none_iff.mp hlookup binding hbinding
        | some bytes =>
          obtain ⟨l₁, l₂, hbindings, -⟩ := List.lookup_eq_some_iff.mp hlookup
          obtain ⟨-, hbytes⟩ := (hmem (array, bytes) (by rw [hbindings]; simp)).resolve_left nofun
          have hbytes : bytes = (List.range array.size).map (v array) := hbytes
          simp [hbytes, hi]
      rw [hbyte]

/-- The missing bytes of an object are zero. -/
theorem valuesOf_eq {a : Assignment} (ha : a.WellFormed) (os : Array) :
    CexCachingSolver.valuesOf a os = (List.range os.size).map (a.byteOf os) := by
  unfold CexCachingSolver.valuesOf Assignment.byteOf
  cases hlookup : a.bindings.lookup os with
  | none => exact List.ext_getElem (by simp) fun i _ _ => by simp
  | some bytes =>
    obtain ⟨l₁, l₂, hbindings, -⟩ := List.lookup_eq_some_iff.mp hlookup
    obtain ⟨-, hlength⟩ := ha (os, bytes) (by rw [hbindings]; simp)
    refine List.ext_getElem (by simpa using hlength) fun i hi _ => ?_
    have hi : i < bytes.length := hi
    simp [hi]

end Assignment

/-! ### Queries with values -/

/-- No divisor is zero under the assignments that satisfy the constraints and, with the option, every read of a constant
    array is inside the array. -/
structure Query.Defined (opt : Bool) (query : Query) : Prop where
  inRange : ∀ v, ∀ e ∈ query.expr :: query.constraints, e.Sound opt false v
  divisors : ∀ v, query.Satisfies v → ∀ e ∈ query.expr :: query.constraints, e.Sound opt true v

namespace CexCachingSolver

variable {σ : Type} {cfg : Config} {impl : SolverImpl σ} {query : Query} {st st' : State σ} {key : KeyType} {v : Valuation}

/-- A query that the cache can be asked. -/
structure Asked (cfg : Config) (query : Query) : Prop extends query.WellFormed, query.Defined cfg.constArrayOpt where
  satisfiable : query.Satisfiable

/-- Another expression for the same constraints. -/
theorem Asked.withExpr (h : Asked cfg query) {e : Expr} (he : e.Typed 1)
    (hinRange : ∀ v, e.Sound cfg.constArrayOpt false v)
    (hdivisors : ∀ v, query.Satisfies v → e.Sound cfg.constArrayOpt true v) : Asked cfg (query.withExpr e) where
  constraints := h.constraints
  expr := he
  inRange v := List.forall_mem_cons.mpr ⟨hinRange v, (List.forall_mem_cons.mp (h.inRange v)).2⟩
  divisors v hv := List.forall_mem_cons.mpr ⟨hdivisors v hv, (List.forall_mem_cons.mp (h.divisors v hv)).2⟩
  satisfiable := h.satisfiable

theorem createIsZero_sound {opt : Bool} {e n : Expr} (he : e.Typed 1) (hn : e.createIsZero opt = .ok n) {div : Bool}
    (hs : e.Sound opt div v) : n.Sound opt div v := by
  obtain ⟨n', hn', hrewrites⟩ : Produces opt (fun _ => True) 1 _ (e.createIsZero opt) := Expr.createIsZero_spec he
  obtain rfl : n = n' := Except.ok.inj (hn.symm.trans hn')
  exact (hrewrites.value div v trivial ⟨hs, trivial⟩).1

theorem Asked.negateExpr (h : Asked cfg query) :
    ∃ n, query.expr.createIsZero cfg.constArrayOpt = .ok n ∧ query.negateExpr cfg.constArrayOpt = .ok (query.withExpr n) ∧
      Asked cfg (query.withExpr n) ∧ ∀ v, n.Holds v ↔ ¬query.expr.Holds v := by
  obtain ⟨n, hn, hquery, hwellFormed, hholds⟩ := Query.negateExpr_spec cfg.constArrayOpt h.toWellFormed
  refine ⟨n, hn, hquery, h.withExpr hwellFormed.expr (fun v => ?_) fun v hv => ?_, hholds⟩
  · exact createIsZero_sound h.expr hn (h.inRange v _ List.mem_cons_self)
  · exact createIsZero_sound h.expr hn (h.divisors v hv _ List.mem_cons_self)

/-! ### Keys -/

theorem mem_insertOrdered {α : Type} [DecidableEq α] {less : α → α → Bool} {x y : α} {ys : List α} :
    y ∈ insertOrdered less x ys ↔ y = x ∨ y ∈ ys := by
  induction ys with
  | nil => rw [insertOrdered, List.mem_singleton, or_iff_left List.not_mem_nil]
  | cons z zs ih =>
    unfold insertOrdered
    split
    case isTrue heq =>
      rw [List.mem_cons, heq]
      tauto
    case isFalse =>
      split
      case isTrue => rw [List.mem_cons]
      case isFalse =>
        rw [List.mem_cons, ih, List.mem_cons]
        tauto

theorem mem_ofConstraints {constraints : List Expr} {e : Expr} : e ∈ KeyType.ofConstraints cfg constraints ↔ e ∈ constraints := by
  have hfold : ∀ (constraints : List Expr) (key : KeyType),
      e ∈ constraints.foldl (fun key e => insertOrdered cfg.less e key) key ↔ e ∈ constraints ∨ e ∈ key := by
    intro constraints
    induction constraints with
    | nil => simp
    | cons c cs ih =>
      intro key
      rw [List.foldl_cons, ih, mem_insertOrdered, List.mem_cons]
      tauto
  rw [KeyType.ofConstraints, hfold, or_iff_left List.not_mem_nil]

/-- The expressions of a key hold. -/
def KeyHolds (v : Valuation) (key : KeyType) : Prop := ∀ e ∈ key, e.Holds v

/-- The key of a query with its negated expression. -/
structure KeyOf (cfg : Config) (query : Query) (key : KeyType) : Prop where
  holds : ∀ v, KeyHolds v key ↔ query.Refutes v
  typed : ∀ e ∈ key, e.Typed 1
  inRange : ∀ v, ∀ e ∈ key, e.Sound cfg.constArrayOpt false v
  divisors : ∀ v, query.Satisfies v → ∀ e ∈ key, e.Sound cfg.constArrayOpt true v

/-- An assignment that satisfies a key according to the evaluator makes it hold. -/
theorem KeyOf.tested (hkey : KeyOf cfg query key) (hsat : query.Satisfiable) {a : Assignment} (ha : a.WellFormed) :
    ∃ b, satisfies cfg key a = .ok b ∧ (b = true → KeyHolds a.byteOf key) := by
  obtain ⟨u, hu⟩ := hsat
  have hspec : ∃ b, satisfies cfg key a = .ok b ∧ (b = true → ∀ e ∈ key, e.Sound cfg.constArrayOpt false a.byteOf →
      e.Holds a.byteOf) := Assignment.satisfies_spec ha fun e he => ⟨hkey.typed e he, u, hkey.divisors u hu e he⟩
  obtain ⟨b, hb, hholds⟩ := hspec
  exact ⟨b, hb, fun h e he => hholds h e he (hkey.inRange _ e he)⟩

/-! ### The cache -/

/-- A missing assignment says that the key is unsatisfiable. -/
def Entry (key : KeyType) : Option Assignment → Prop
  | none => ∀ v, ¬KeyHolds v key
  | some a => a.WellFormed ∧ KeyHolds a.byteOf key

structure Inv (st : State σ) : Prop where
  cache : ∀ entry ∈ MapOfSets.entries st.cache, Entry entry.1 entry.2
  table : ∀ a ∈ st.assignmentsTable, a.WellFormed

theorem Inv.tests (hinv : Inv st) (hkey : KeyOf cfg query key) (hsat : query.Satisfiable) :
    MapOfSets.Tests (nullOrSatisfyingAssignment cfg key) (MapOfSets.entries st.cache) := by
  rintro ⟨key', a⟩ hentry
  cases a with
  | none => exact ⟨true, rfl⟩
  | some a =>
    obtain ⟨b, hb, -⟩ := hkey.tested hsat (hinv.cache _ hentry).1
    exact ⟨b, hb⟩

theorem findSatisfying_spec (hkey : KeyOf cfg query key) (hsat : query.Satisfiable) (table : List Assignment)
    (htable : ∀ a ∈ table, a.WellFormed) :
    ∃ found, findSatisfying cfg key table = .ok found ∧ ∀ a, found = some a → Entry key (some a) := by
  induction table with
  | nil => exact ⟨none, rfl, nofun⟩
  | cons a table ih =>
    obtain ⟨ha, htable⟩ := List.forall_mem_cons.mp htable
    obtain ⟨b, hb, hholds⟩ := hkey.tested hsat ha
    unfold findSatisfying
    simp only [hb, bind, Except.bind]
    cases b with
    | false => exact ih htable
    | true =>
      refine ⟨some a, rfl, fun a' h => ?_⟩
      obtain rfl := Option.some.inj h
      exact ⟨ha, hholds rfl⟩

theorem Entry.of_superset {key' : KeyType} {a : Option Assignment} (h : Entry key' a) (hsub : key ⊆ key')
    (ha : a.isSome = true) : Entry key a := by
  cases a with
  | none => cases ha
  | some a => exact ⟨h.1, fun e he => h.2 e (hsub he)⟩

theorem Entry.of_subset {key' : KeyType} (h : Entry key' none) (hsub : key' ⊆ key) : Entry key none :=
  fun v hv => h v fun e he => hv e (hsub he)

/-- Every cached result is right for the key. -/
theorem searchForAssignment_spec (hinv : Inv st) (hkey : KeyOf cfg query key) (hsat : query.Satisfiable) :
    ∃ found, searchForAssignment cfg key st = .ok found ∧ ∀ result, found = some result → Entry key result := by
  unfold searchForAssignment
  cases hlookup : MapOfSets.lookup key st.cache with
  | some result =>
    refine ⟨some result, rfl, fun result' h => ?_⟩
    obtain rfl := Option.some.inj h
    exact hinv.cache _ (MapOfSets.lookup_entries hlookup)
  | none =>
    have hsuperset : MapOfSets.Finds nonNullAssignment (key ⊆ ·) (MapOfSets.entries st.cache)
        (MapOfSets.findSuperset nonNullAssignment st.cache key) :=
      MapOfSets.findSuperset_finds st.cache (fun _ _ => ⟨_, rfl⟩) key
    obtain ⟨found, hfound, hentry⟩ := hsuperset
    dsimp only
    rw [hfound]
    cases found with
    | some result =>
      have hresult : Entry key result := by
        obtain ⟨key', hmem, hsub, hsome⟩ := hentry result rfl
        exact Entry.of_superset (hinv.cache _ hmem) hsub (Except.ok.inj hsome)
      refine ⟨some result, by split <;> rfl, fun result' h => ?_⟩
      obtain rfl := Option.some.inj h
      exact hresult
    | none =>
      split
      case isTrue =>
        have hsubset : MapOfSets.Finds nullAssignment (· ⊆ key) (MapOfSets.entries st.cache)
            (MapOfSets.findSubset cfg.less nullAssignment st.cache key) :=
          MapOfSets.findSubset_finds st.cache (fun _ _ => ⟨_, rfl⟩) key
        obtain ⟨found, hfound, hentry⟩ := hsubset
        simp only [bind, Except.bind, hfound]
        cases found with
        | some result =>
          refine ⟨some result, rfl, fun result' h => ?_⟩
          obtain rfl := Option.some.inj h
          obtain ⟨key', hmem, hsub, hnone⟩ := hentry result rfl
          obtain rfl := Option.isNone_iff_eq_none.mp (Except.ok.inj hnone)
          exact (hinv.cache _ hmem).of_subset hsub
        | none =>
          obtain ⟨found, hfound, hentry⟩ := findSatisfying_spec hkey hsat st.assignmentsTable hinv.table
          rw [hfound]
          refine ⟨found.map some, rfl, fun result h => ?_⟩
          obtain ⟨a, rfl, rfl⟩ := Option.map_eq_some_iff.mp h
          exact hentry a rfl
      case isFalse =>
        have hsubset : MapOfSets.Finds (nullOrSatisfyingAssignment cfg key) (· ⊆ key) (MapOfSets.entries st.cache)
            (MapOfSets.findSubset cfg.less (nullOrSatisfyingAssignment cfg key) st.cache key) :=
          MapOfSets.findSubset_finds st.cache (hinv.tests hkey hsat) key
        obtain ⟨found, hfound, hentry⟩ := hsubset
        refine ⟨found, hfound, fun result h => ?_⟩
        obtain ⟨key', hmem, hsub, htest⟩ := hentry result h
        cases result with
        | none => exact (hinv.cache _ hmem).of_subset hsub
        | some a =>
          obtain ⟨ha, -⟩ := hinv.cache _ hmem
          obtain ⟨b, hb, hholds⟩ := hkey.tested hsat ha
          obtain rfl : b = true := Except.ok.inj (hb.symm.trans htest)
          exact ⟨ha, hholds rfl⟩

/-- What a result says about the query. -/
def Result (query : Query) : Option Assignment → Prop
  | none => query.Valid
  | some a => a.WellFormed ∧ query.Refutes a.byteOf

theorem KeyOf.result (hkey : KeyOf cfg query key) {result : Option Assignment} : Entry key result ↔ Result query result := by
  cases result with
  | none => simp only [Entry, Result, hkey.holds, Query.valid_iff]
  | some a => simp only [Entry, Result, hkey.holds]

/-- The lookup gives a right result or the key of the query. -/
theorem lookupAssignment_spec (hinv : Inv st) (hquery : Asked cfg query) :
    ∃ key found, lookupAssignment cfg query st = .ok (key, found) ∧ (∀ result, found = some result → Result query result) ∧
      (found = none → KeyOf cfg query key) := by
  obtain ⟨n, hn, -, hneg, hholds⟩ := hquery.negateExpr
  unfold lookupAssignment
  simp only [hn, bind, Except.bind]
  by_cases hfalse : n = boolean false
  · refine ⟨_, some none, if_pos hfalse, fun result h => ?_, nofun⟩
    obtain rfl := Option.some.inj h
    refine fun v _ => by_contra fun hv => ?_
    have : n.Holds v := (hholds v).mpr hv
    rw [hfalse] at this
    cases this
  · rw [if_neg hfalse]
    have hkey : KeyOf cfg query (if n.isConstant then KeyType.ofConstraints cfg query.constraints
        else insertOrdered cfg.less n (KeyType.ofConstraints cfg query.constraints)) := by
      have htyped : n.Typed 1 := hneg.expr
      have hcs : ∀ v, (∀ e ∈ KeyType.ofConstraints cfg query.constraints, e.Holds v) ↔ query.Satisfies v := fun v => by
        simp only [mem_ofConstraints, Query.Satisfies]
      cases hconst : n.isConstant with
      | true =>
        -- the negated expression is the constant true
        obtain ⟨c, rfl⟩ := htyped.constant_or.resolve_right (by simp [hconst])
        have htrue : ∀ v, (Expr.constant 1 c).Holds v := fun v => by
          rcases bit_cases c with rfl | rfl
          · exact absurd rfl hfalse
          · rfl
        rw [if_pos rfl]
        refine ⟨fun v => (hcs v).trans ⟨fun h => ⟨h, (hholds v).mp (htrue v)⟩, Query.Refutes.satisfies⟩, ?_, ?_, ?_⟩
        · exact fun e he => hquery.constraints e (mem_ofConstraints.mp he)
        · exact fun v e he => hquery.inRange v e (List.mem_cons_of_mem _ (mem_ofConstraints.mp he))
        · exact fun v hv e he => hquery.divisors v hv e (List.mem_cons_of_mem _ (mem_ofConstraints.mp he))
      | false =>
        have hmem : ∀ e, e ∈ insertOrdered cfg.less n (KeyType.ofConstraints cfg query.constraints) ↔
            e ∈ n :: query.constraints := fun e => by rw [mem_insertOrdered, mem_ofConstraints, List.mem_cons]
        rw [if_neg Bool.false_ne_true]
        refine ⟨fun v => ?_, fun e he => ?_, fun v e he => hneg.inRange v e ((hmem e).mp he),
          fun v hv e he => hneg.divisors v hv e ((hmem e).mp he)⟩
        · simp only [KeyHolds, hmem, List.forall_mem_cons, hholds v]
          exact ⟨fun h => ⟨h.2, h.1⟩, fun h => ⟨h.expr, h.satisfies⟩⟩
        · rcases List.mem_cons.mp ((hmem e).mp he) with rfl | hc
          · exact htyped
          · exact hquery.constraints e hc
    obtain ⟨found, hfound, hentry⟩ := searchForAssignment_spec hinv hkey hquery.satisfiable
    rw [hfound]
    exact ⟨_, found, rfl, fun result h => hkey.result.mp (hentry result h), fun _ => hkey⟩

/-- A counterexample that the wrapped solver has found satisfies the key. -/
theorem KeyOf.entry_ofValues (hkey : KeyOf cfg query key) (hv : query.Refutes v) :
    Entry key (some (Assignment.ofValues (findSymbolicObjects key) (bytesOf v (findSymbolicObjects key)))) := by
  refine ⟨Assignment.wellFormed_ofValues v fun array => isSymbolicArray_of_mem, fun e he => ?_⟩
  rw [Expr.Holds, Expr.value_congr e fun array i hreads => ?_]
  · exact (hkey.holds v).mpr hv e he
  · by_cases hsymbolic : array.isSymbolicArray = true
    · exact Assignment.initial_ofValues v (mem_findSymbolicObjects hsymbolic he hreads) i
    · have hconst : array.isConstantArray = true := by simpa [Array.isConstantArray] using hsymbolic
      rw [Array.initial, Array.initial, if_pos hconst, if_pos hconst]

theorem Inv.insert (hinv : Inv st) {result : Option Assignment} (hresult : Entry key result) :
    ∀ entry ∈ MapOfSets.entries (MapOfSets.insert cfg.less key result st.cache), Entry entry.1 entry.2 := by
  rintro ⟨key', result'⟩ hentry
  rcases MapOfSets.insert_entries hentry with ⟨rfl, rfl⟩ | hold
  · exact hresult
  · exact hinv.cache _ hold

/-- `getAssignment` ends with a right result and keeps the invariant of the cache. -/
theorem getAssignment_spec (himpl : impl.FindsValues) (hinv : Inv st) (hquery : Asked cfg query) :
    ∃ result st', getAssignment cfg impl query st = .ok (some result, st') ∧ Inv st' ∧ Result query result := by
  obtain ⟨key, found, hlookup, hfound, hkey⟩ := lookupAssignment_spec hinv hquery
  unfold getAssignment
  simp only [hlookup, bind, Except.bind]
  cases found with
  | some result => exact ⟨result, st, rfl, hinv, hfound result rfl⟩
  | none =>
    replace hkey := hkey rfl
    obtain ⟨answer, hanswer, hvalues⟩ :=
      himpl query (findSymbolicObjects key) st.solver hquery.toWellFormed hquery.satisfiable
    dsimp only
    generalize impl.computeInitialValues query (findSymbolicObjects key) st.solver = response at hanswer ⊢
    obtain ⟨_, solver⟩ := response
    obtain rfl := hanswer
    cases answer with
    | none =>
      have hentry : Entry key none := hkey.result.mpr hvalues
      refine ⟨none, _, rfl, ?_, hvalues⟩
      exact ⟨hinv.insert hentry, hinv.table⟩
    | some values =>
      obtain ⟨v, hv, rfl⟩ := hvalues
      have hentry := hkey.entry_ofValues hv
      refine ⟨_, _, rfl, ?_, hkey.result.mp hentry⟩
      refine ⟨hinv.insert hentry, fun a ha => ?_⟩
      rcases mem_insertOrdered.mp ha with rfl | hold
      · exact hentry.1
      · exact hinv.table a hold

/-! ### Answers -/

/-- The query whose expression may have any width. -/
structure Valued (cfg : Config) (query : Query) : Prop where
  asked : Asked cfg query.withFalse
  typed : query.expr.WellTyped
  plain : query.expr.Plain
  divisors : ∀ v, query.Satisfies v → query.expr.Sound cfg.constArrayOpt true v

theorem Asked.withFalse (h : Asked cfg query) : Asked cfg query.withFalse :=
  h.withExpr (.boolean false) (fun _ => trivial) fun _ _ => trivial

/-- The expression evaluates to a constant under an assignment that satisfies the constraints. -/
theorem evaluateExpr_spec (hquery : Valued cfg query) {result : Option Assignment} (hresult : Result query.withFalse result) :
    ∃ a w, result = some a ∧ a.WellFormed ∧ query.Satisfies a.byteOf ∧ query.expr.Typed w ∧
      evaluateExpr cfg query result = .ok (.constant w (query.expr.bits a.byteOf w)) := by
  cases result with
  | none =>
    obtain ⟨v, hv⟩ := hquery.asked.satisfiable
    cases hresult v hv
  | some a =>
    obtain ⟨ha, hrefutes⟩ := hresult
    have hsat : query.Satisfies a.byteOf := hrefutes.satisfies
    have htyped : query.expr.Typed query.expr.getWidth := .self hquery.typed
    refine ⟨a, query.expr.getWidth, rfl, ha, hsat, htyped, ?_⟩
    unfold evaluateExpr
    have hevaluate : a.evaluate cfg.constArrayOpt cfg.useVisitorHash query.expr = _ :=
      Assignment.evaluate_spec ha htyped hquery.plain (hquery.divisors _ hsat)
    simp only [hevaluate, bind, Except.bind]
    rfl

/-- A request that the operation can answer whatever the cache knows. -/
def Request.Proper (cfg : Config) : Request → Prop
  | .validity query => Asked cfg query ∧ query.expr.Plain
  | .truth query => Asked cfg query
  | .value query => Valued cfg query
  | .initialValues query _ => Asked cfg query

/-- The experimental shortcut is not taken: the cache does not know that the query is false. -/
def Request.NoShortcut (cfg : Config) (st : State σ) : Request → Prop
  | .truth query => cfg.experimental = true → knownFalse cfg query st ≠ .ok true
  | _ => True

/-- There is an answer and it is the one that the semantics prescribes. -/
def Answer.Right : Answer → Prop
  | .validity query result => ∃ validity, result = some validity ∧ query.HasValidity validity
  | .truth query result => ∃ isValid, result = some isValid ∧ (isValid = true ↔ query.Valid)
  | .value query result =>
    ∃ (w : Nat) (c : BitVec w) (v : Valuation), result = some (.constant w c) ∧ query.Satisfies v ∧ query.expr.Typed w ∧
      c = query.expr.bits v w
  | .initialValues query objects result => ∃ values, result = some values ∧ query.HasInitialValues objects values

/-- A call ends with a right answer and keeps the invariant. -/
def Answers {α : Type} (answer : α → Answer) (result : Except Abort (α × State σ)) : Prop :=
  ∃ a st', result = .ok (a, st') ∧ Inv st' ∧ (answer a).Right

theorem Result.isNone_iff {result : Option Assignment} (h : Result query result) : result.isNone = true ↔ query.Valid := by
  cases result with
  | none => exact ⟨fun _ => h, fun _ => rfl⟩
  | some a => exact ⟨nofun, fun hvalid => absurd (hvalid _ h.2.satisfies) h.2.expr⟩

theorem computeValidity_spec (himpl : impl.FindsValues) (hinv : Inv st) (hquery : Asked cfg query)
    (hplain : query.expr.Plain) : Answers (.validity query) (computeValidity cfg impl query st) := by
  have hvalued : Valued cfg query :=
    ⟨hquery.withFalse, hquery.expr.1, hplain, fun v hv => hquery.divisors v hv _ List.mem_cons_self⟩
  obtain ⟨result, st₁, hget, hinv₁, hresult⟩ := getAssignment_spec himpl hinv hquery.withFalse
  obtain ⟨a, w, rfl, ha, hsat, htyped, hevaluate⟩ := evaluateExpr_spec hvalued hresult
  obtain rfl : 1 = w := hquery.expr.2.symm.trans htyped.2
  unfold computeValidity
  simp only [hget, bind, Except.bind, hevaluate]
  by_cases htrue : query.expr.Holds a.byteOf
  · -- a true assignment exists, so that the query is true or unknown
    have hbits : Expr.constant 1 (query.expr.bits a.byteOf 1) = boolean true := by
      rw [(Expr.holds_iff_bits hquery.expr).mp htrue]
      rfl
    rw [if_pos hbits]
    obtain ⟨result, st₂, hget, hinv₂, hresult⟩ := getAssignment_spec himpl hinv₁ hquery
    simp only [hget]
    refine ⟨_, st₂, rfl, hinv₂, _, rfl, ?_⟩
    by_cases hvalid : query.Valid
    · rw [if_pos (hresult.isNone_iff.mpr hvalid)]
      exact hvalid
    · rw [if_neg fun h => hvalid (hresult.isNone_iff.mp h)]
      exact ⟨hvalid, fun hrefuted => hrefuted _ hsat htrue⟩
  · have hbits : Expr.constant 1 (query.expr.bits a.byteOf 1) ≠ boolean true := fun h => by
      refine htrue ((Expr.holds_iff_bits hquery.expr).mpr ?_)
      simpa [boolean] using h
    rw [if_neg hbits]
    obtain ⟨n, -, hnegate, hneg, hholds⟩ := hquery.negateExpr
    obtain ⟨result, st₂, hget, hinv₂, hresult⟩ := getAssignment_spec himpl hinv₁ hneg
    simp only [hnegate, hget]
    refine ⟨_, st₂, rfl, hinv₂, _, rfl, ?_⟩
    have hiff : result.isNone = true ↔ query.Refuted := hresult.isNone_iff.trans (Query.valid_withExpr_iff hholds)
    by_cases hrefuted : query.Refuted
    · rw [if_pos (hiff.mpr hrefuted)]
      exact hrefuted
    · rw [if_neg fun h => hrefuted (hiff.mp h)]
      exact ⟨fun hvalid => htrue (hvalid _ hsat), hrefuted⟩

theorem knownFalse_spec (hinv : Inv st) (hquery : Asked cfg query) : ∃ b, knownFalse cfg query st = .ok b := by
  obtain ⟨n, -, hnegate, hneg, -⟩ := hquery.negateExpr
  obtain ⟨key, found, hlookup, -, -⟩ := lookupAssignment_spec hinv hneg
  exact ⟨_, by simp only [knownFalse, hnegate, hlookup, bind, Except.bind]; rfl⟩

theorem computeTruth_spec (himpl : impl.FindsValues) (hinv : Inv st) (hquery : Asked cfg query)
    (hshortcut : cfg.experimental = true → knownFalse cfg query st ≠ .ok true) :
    Answers (.truth query) (computeTruth cfg impl query st) := by
  have hknown : cfg.experimental = true → knownFalse cfg query st = .ok false := fun hexperimental => by
    obtain ⟨b, hb⟩ := knownFalse_spec hinv hquery
    cases b with
    | false => exact hb
    | true => exact absurd hb (hshortcut hexperimental)
  obtain ⟨result, st', hget, hinv', hresult⟩ := getAssignment_spec himpl hinv hquery
  refine ⟨result.isNone, st', ?_, hinv', _, rfl, hresult.isNone_iff⟩
  unfold computeTruth
  cases hexperimental : cfg.experimental with
  | false =>
    simp only [bind, Except.bind, hget]
    rfl
  | true =>
    simp only [bind, Except.bind, hknown hexperimental, hget]
    rfl

theorem computeValue_spec (himpl : impl.FindsValues) (hinv : Inv st) (hquery : Valued cfg query) :
    Answers (.value query) (computeValue cfg impl query st) := by
  obtain ⟨result, st', hget, hinv', hresult⟩ := getAssignment_spec himpl hinv hquery.asked
  obtain ⟨a, w, rfl, -, hsat, htyped, hevaluate⟩ := evaluateExpr_spec hquery hresult
  unfold computeValue
  simp only [hget, bind, Except.bind, hevaluate]
  exact ⟨_, st', rfl, hinv', w, _, a.byteOf, rfl, hsat, htyped, rfl⟩

theorem computeInitialValues_spec (himpl : impl.FindsValues) (hinv : Inv st) (hquery : Asked cfg query)
    (objects : List Array) :
    Answers (.initialValues query objects) (computeInitialValues cfg impl query objects st) := by
  obtain ⟨result, st', hget, hinv', hresult⟩ := getAssignment_spec himpl hinv hquery
  unfold computeInitialValues
  simp only [hget, bind, Except.bind]
  refine ⟨_, st', rfl, hinv', _, rfl, ?_⟩
  cases result with
  | none => exact hresult
  | some a =>
    refine ⟨a.byteOf, hresult.2, ?_⟩
    exact List.map_congr_left fun os _ => Assignment.valuesOf_eq hresult.1 os

theorem step_spec (himpl : impl.FindsValues) (hinv : Inv st) {request : Request} (hrequest : request.Proper cfg)
    (hshortcut : request.NoShortcut cfg st) :
    ∃ answer st', step cfg impl st request = .ok (answer, st') ∧ Inv st' ∧ answer.Right ∧ answer.request = request := by
  cases request with
  | validity query =>
    obtain ⟨result, st', hcompute, hinv', hright⟩ := computeValidity_spec himpl hinv hrequest.1 hrequest.2
    exact ⟨.validity query result, st', by simp only [step, hcompute, bind, Except.bind]; rfl, hinv', hright, rfl⟩
  | truth query =>
    obtain ⟨result, st', hcompute, hinv', hright⟩ := computeTruth_spec himpl hinv hrequest hshortcut
    exact ⟨.truth query result, st', by simp only [step, hcompute, bind, Except.bind]; rfl, hinv', hright, rfl⟩
  | value query =>
    obtain ⟨result, st', hcompute, hinv', hright⟩ := computeValue_spec himpl hinv hrequest
    exact ⟨.value query result, st', by simp only [step, hcompute, bind, Except.bind]; rfl, hinv', hright, rfl⟩
  | initialValues query objects =>
    obtain ⟨result, st', hcompute, hinv', hright⟩ := computeInitialValues_spec himpl hinv hrequest objects
    exact ⟨.initialValues query objects result, st', by simp only [step, hcompute, bind, Except.bind]; rfl, hinv',
      hright, rfl⟩

/-! ### Runs -/

/-- No step of the run takes the experimental shortcut. -/
def NoShortcuts (cfg : Config) (impl : SolverImpl σ) : State σ → List Request → Prop
  | _, [] => True
  | st, request :: requests =>
    request.NoShortcut cfg st ∧
      ∀ answer st', step cfg impl st request = .ok (answer, st') → NoShortcuts cfg impl st' requests

theorem run_spec (himpl : impl.FindsValues) (requests : List Request) : ∀ st : State σ, Inv st →
    (∀ request ∈ requests, request.Proper cfg) → NoShortcuts cfg impl st requests →
    ∃ answers st', run cfg impl st requests = .ok (answers, st') ∧ Inv st' ∧ answers.map Answer.request = requests ∧
      ∀ answer ∈ answers, answer.Right := by
  induction requests with
  | nil => exact fun st hinv _ _ => ⟨[], st, rfl, hinv, rfl, nofun⟩
  | cons request requests ih =>
    intro st hinv hrequests hshortcuts
    obtain ⟨hrequest, hrequests⟩ := List.forall_mem_cons.mp hrequests
    obtain ⟨answer, st₁, hstep, hinv₁, hright, hanswer⟩ := step_spec himpl hinv hrequest hshortcuts.1
    obtain ⟨answers, st₂, hrun, hinv₂, hanswers, hrights⟩ := ih st₁ hinv₁ hrequests (hshortcuts.2 answer st₁ hstep)
    refine ⟨answer :: answers, st₂, ?_, hinv₂, ?_, List.forall_mem_cons.mpr ⟨hright, hrights⟩⟩
    · simp only [run, hstep, bind, Except.bind, hrun]
      rfl
    · rw [List.map_cons, hanswer, hanswers]

/-- For every history that does not take the experimental shortcut, each request has the right answer and the cache tells
    the truth afterwards. -/
theorem cexCachingSolver_transparent (cfg : Config) (impl : SolverImpl σ) (himpl : impl.FindsValues) (s : σ)
    (requests : List Request) (hrequests : ∀ request ∈ requests, request.Proper cfg)
    (hshortcuts : NoShortcuts cfg impl (initial s) requests) :
    ∃ answers st, run cfg impl (initial s) requests = .ok (answers, st) ∧ answers.map Answer.request = requests ∧
      (∀ answer ∈ answers, answer.Right) ∧ ∀ entry ∈ MapOfSets.entries st.cache, Entry entry.1 entry.2 := by
  obtain ⟨answers, st, hrun, hinv, hanswers, hrights⟩ := run_spec himpl requests (initial s) ⟨nofun, nofun⟩ hrequests hshortcuts
  exact ⟨answers, st, hrun, hanswers, hrights, hinv.cache⟩

/-! ### The shortcut -/

open Classical in
/-- The solver that finds a counterexample whenever there is one, whether or not a program can. -/
noncomputable def exactValues : SolverImpl Unit where
  computeTruth _ s := (none, s)
  computeValidity _ s := (none, s)
  computeValue _ s := (none, s)
  computeInitialValues query objects s :=
    (some (if h : ∃ v, query.Refutes v then some (bytesOf h.choose objects) else none), s)

theorem exactValues_findsValues : exactValues.FindsValues := by
  intro query objects s _ _
  refine ⟨_, rfl, ?_⟩
  split
  case isTrue h => exact ⟨h.choose, h.choose_spec, rfl⟩
  case isFalse h => exact Query.valid_iff.mpr (not_exists.mp h)

theorem exactValues_valid (hvalid : query.Valid) (objects : List Array) :
    exactValues.computeInitialValues query objects () = (some none, ()) := by
  have : ¬∃ v, query.Refutes v := not_exists.mpr (Query.valid_iff.mp hvalid)
  simp only [exactValues, dif_neg this]

/-- The first byte of an array of four. -/
def firstByte : Expr := .read (.root ⟨0, 4, 32, 8, []⟩) (.constant 32 0)

/-- Whether the byte, which is 5, is 6. -/
def isSix : Query := ⟨[.cmp .eq (.constant 8 5) firstByte], .cmp .eq (.constant 8 6) firstByte⟩

def isNotSix : Query := isSix.withExpr (.cmp .eq (.constant 1 0) isSix.expr)

/-- Both options on. An equality comes before another one. -/
def experimentalCfg : Config := ⟨false, true, true, true, fun _ _ => false, fun _ _ => false⟩

theorem firstByte_typed : firstByte.Typed 8 :=
  ⟨⟨⟨by decide, by decide, fun h => nomatch h⟩, Nat.succ_pos 31, rfl⟩, rfl⟩

theorem isSix_asked : Asked experimentalCfg isSix := by
  have htyped : ∀ c : BitVec 8, (Expr.cmp .eq (.constant 8 c) firstByte).Typed 1 := fun c =>
    Expr.Typed.cmp (.constant (Nat.succ_pos 7) c) firstByte_typed
  have hsound : ∀ (div : Bool) (v : Valuation) (c : BitVec 8), (Expr.cmp .eq (.constant 8 c) firstByte).Sound false div v :=
    fun _ _ _ => ⟨trivial, trivial, trivial, fun h => absurd h Bool.false_ne_true⟩
  refine ⟨⟨List.forall_mem_singleton.mpr (htyped 5), htyped 6⟩, ⟨fun v => ?_, fun v _ => ?_⟩, fun _ _ => 5, ?_⟩
  · exact List.forall_mem_cons.mpr ⟨hsound false v 6, List.forall_mem_singleton.mpr (hsound false v 5)⟩
  · exact List.forall_mem_cons.mpr ⟨hsound true v 6, List.forall_mem_singleton.mpr (hsound true v 5)⟩
  · exact List.forall_mem_singleton.mpr rfl

theorem isNotSix_asked : Asked experimentalCfg isNotSix := by
  obtain ⟨n, hn, -, hasked, -⟩ := isSix_asked.negateExpr
  obtain rfl : .cmp .eq (.constant 1 0) isSix.expr = n := Except.ok.inj hn
  exact hasked

/-- The key of `isNotSix`. -/
def bothKey : KeyType := [.cmp .eq (.constant 8 5) firstByte, .cmp .eq (.constant 8 6) firstByte]

/-- The cache knows that no byte is both 5 and 6. -/
def bothKnown : State Unit := ⟨MapOfSets.insert experimentalCfg.less bothKey none MapOfSets.empty, [], ()⟩

theorem isNotSix_valid : isNotSix.Valid := by
  intro v hv
  have hfive : (5 : BitVec 8) = firstByte.bits v 8 := (Expr.holds_eq_iff firstByte_typed).mp (hv _ List.mem_cons_self)
  obtain ⟨n, hn, -, -, hholds⟩ := isSix_asked.negateExpr
  obtain rfl : .cmp .eq (.constant 1 0) isSix.expr = n := Except.ok.inj hn
  refine (hholds v).mpr fun hsix => ?_
  have hsix : (6 : BitVec 8) = firstByte.bits v 8 := (Expr.holds_eq_iff firstByte_typed).mp hsix
  rw [← hfive] at hsix
  cases hsix

/-- The first request asks the wrapped solver and enters what it says into the cache. -/
theorem step_isNotSix : step experimentalCfg exactValues (initial ()) (.truth isNotSix) =
    .ok (.truth isNotSix (some true), bothKnown) := by
  have hknown : knownFalse experimentalCfg isNotSix (initial ()) = .ok false := rfl
  have hlookup : lookupAssignment experimentalCfg isNotSix (initial ()) = .ok (bothKey, none) := rfl
  have hget : getAssignment experimentalCfg exactValues isNotSix (initial ()) = .ok (some none, bothKnown) := by
    simp only [getAssignment, hlookup, bind, Except.bind]
    rw [show (initial ()).solver = () from rfl, exactValues_valid isNotSix_valid]
    rfl
  simp only [step, computeTruth, experimentalCfg, bind, Except.bind] at hknown hget ⊢
  simp [hknown, hget]
  rfl

/-- The wrapped solver answers the first request and the cache the next two. The last request needs both. -/
theorem cexCachingSolver_transparent_hits :
    ∃ answers st, run experimentalCfg exactValues (initial ()) [.truth isNotSix, .truth isNotSix,
        .initialValues isNotSix [⟨0, 4, 32, 8, []⟩], .validity isNotSix] = .ok (answers, st) ∧
      answers.map Answer.request = [.truth isNotSix, .truth isNotSix, .initialValues isNotSix [⟨0, 4, 32, 8, []⟩],
        .validity isNotSix] ∧
      (∀ answer ∈ answers, answer.Right) ∧ ∀ entry ∈ MapOfSets.entries st.cache, Entry entry.1 entry.2 := by
  refine cexCachingSolver_transparent experimentalCfg exactValues exactValues_findsValues () _ ?_ ?_
  · have hplain : isNotSix.expr.Plain := ⟨trivial, trivial, trivial, trivial⟩
    simp only [List.forall_mem_cons, Request.Proper, isNotSix_asked, hplain, true_and, List.not_mem_nil, false_imp_iff,
      implies_true]
  · have hnew : knownFalse experimentalCfg isNotSix (initial ()) = .ok false := rfl
    have hknown : knownFalse experimentalCfg isNotSix bothKnown = .ok false := rfl
    have htruth : step experimentalCfg exactValues bothKnown (.truth isNotSix) = .ok (.truth isNotSix (some true), bothKnown) := rfl
    refine ⟨fun _ => by simp [hnew], fun _ st hstep => ?_⟩
    obtain rfl : bothKnown = st := (Prod.mk.inj (Except.ok.inj (step_isNotSix.symm.trans hstep))).2
    refine ⟨fun _ => by simp [hknown], fun _ st hstep => ?_⟩
    obtain rfl : bothKnown = st := (Prod.mk.inj (Except.ok.inj (htruth.symm.trans hstep))).2
    exact ⟨trivial, fun _ _ _ => ⟨trivial, fun _ _ _ => trivial⟩⟩

/-- Once the cache knows that no byte is both 5 and 6, there is no answer whether it is 6. -/
theorem cexCachingSolver_no_answer :
    exactValues.FindsValues ∧ Request.Proper experimentalCfg (.truth isNotSix) ∧
      Request.Proper experimentalCfg (.truth isSix) ∧
      ∃ st, run experimentalCfg exactValues (initial ()) [.truth isNotSix, .truth isSix] =
        .ok ([.truth isNotSix (some true), .truth isSix none], st) ∧ ¬(Answer.truth isSix none).Right := by
  have hsecond : step experimentalCfg exactValues bothKnown (.truth isSix) = .ok (.truth isSix none, bothKnown) := rfl
  refine ⟨exactValues_findsValues, isNotSix_asked, isSix_asked, bothKnown, ?_, fun ⟨_, h, _⟩ => nomatch h⟩
  simp only [run, step_isNotSix, hsecond, bind, Except.bind]
  rfl

end CexCachingSolver

end CapTaint.Klee
