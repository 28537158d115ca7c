import CapTaint.Theorems.IndependentSolver
import CapTaint.Theorems.STPSolver

/-! # Queries for a chain of solvers

A class of queries that every solver of the chain can be asked. It is closed under what the wrappers ask: the negated query,
the query for some assignment, and the query without the constraints that are independent of it. -/

namespace CapTaint.Klee

/-! ### Negated expressions -/

/-- What the rules for the negation of a one-bit expression keep. -/
structure Expr.Stable (P : Expr → Prop) : Prop where
  constant : ∀ {w : Nat} (c : BitVec w), P (.constant w c)
  isZero : ∀ {e : Expr}, P e → P (.cmp .eq (.constant 1 0) e)
  isNotZero : ∀ {e : Expr}, P (.cmp .eq (.constant 1 0) e) → P e
  kids : ∀ {l r : Expr}, P (.arith .or l r) → P l ∧ P r
  and : ∀ {l r : Expr}, P l → P r → P (.arith .and l r)

section
variable {P : Expr → Prop} {opt : Bool} {e l r n : Expr}

theorem AndExpr.createPartial_stable (hP : Expr.Stable P) (hl : P l) {w : Nat} {c : BitVec w} (h : AndExpr.createPartial l c = .ok n) : P n := by
  unfold AndExpr.createPartial at h
  split at h
  case isTrue => exact Except.ok.inj h ▸ hl
  case isFalse =>
    split at h
    case isTrue => exact Except.ok.inj h ▸ hP.constant c
    case isFalse => exact Except.ok.inj h ▸ hP.and hl (hP.constant c)

theorem AndExpr.create_stable (hP : Expr.Stable P) (hl : P l) (hr : P r) (h : AndExpr.create l r = .ok n) : P n := by
  unfold AndExpr.create bcreateR at h
  split at h
  case isTrue => cases h
  case isFalse =>
    split at h
    case h_1 =>
      dsimp only [foldArith] at h
      split at h
      case isTrue => cases h
      case isFalse => exact Except.ok.inj h ▸ hP.constant _
    case h_2 => exact AndExpr.createPartial_stable hP hr h
    case h_3 => exact AndExpr.createPartial_stable hP hl h
    case h_4 => exact Except.ok.inj h ▸ hP.and hl hr

theorem EqExpr.createSymbolic_stable (hP : Expr.Stable P) (he : P e) : P (EqExpr.createSymbolic (.constant 1 0) e) := by
  unfold EqExpr.createSymbolic
  split
  case isTrue => exact hP.constant _
  case isFalse => exact hP.isZero he

theorem EqExpr.createPartialR_stable (hP : Expr.Stable P) (htyped : e.Typed 1) (he : P e)
    (h : EqExpr.createPartialR opt (0 : BitVec 1) e = .ok n) : P n := by
  induction hsize : e.size using Nat.strong_induction_on generalizing e n with
  | _ size ih =>
    subst hsize
    unfold EqExpr.createPartialR at h
    simp only [if_true, ne_eq, not_true_eq_false, if_false] at h
    split at h
    case h_1 wc c right =>
      split at h
      case isTrue hzero =>
        obtain ⟨rfl, rfl⟩ := hzero
        exact Except.ok.inj h ▸ hP.isNotZero he
      case isFalse => exact Except.ok.inj h ▸ EqExpr.createSymbolic_stable hP he
    case h_2 left right =>
      obtain ⟨hleft, hright⟩ := Expr.Typed.arith.mp htyped
      have hkid (kid m : Expr) (hkid : kid.Typed 1) (hlt : kid.size < (Expr.arith .or left right).size) (hk : P kid)
          (hm : EqExpr.withConstant kid (0 : BitVec kid.getWidth) (EqExpr.createPartialR opt (0 : BitVec kid.getWidth) kid) = .ok m) :
          P m := by
        rw [hkid.width] at hm
        unfold EqExpr.withConstant at hm
        split at hm
        case h_1 => exact Except.ok.inj hm ▸ hP.constant _
        case h_2 => exact ih _ hlt hkid hk hm rfl
      obtain ⟨hl, hr⟩ := hP.kids he
      obtain ⟨notLeft, hnotLeft, h⟩ := Result.bind_eq_ok.mp h
      obtain ⟨notRight, hnotRight, h⟩ := Result.bind_eq_ok.mp h
      exact AndExpr.create_stable hP (hkid left notLeft hleft (Nat.lt_succ_of_le (Nat.le_add_right _ _)) hl hnotLeft)
        (hkid right notRight hright (Nat.lt_succ_of_le (Nat.le_add_left _ _)) hr hnotRight) h
    case h_3 => exact Except.ok.inj h ▸ EqExpr.createSymbolic_stable hP he

theorem Expr.createIsZero_stable (hP : Expr.Stable P) (htyped : e.Typed 1) (he : P e) (h : e.createIsZero opt = .ok n) : P n := by
  unfold Expr.createIsZero EqExpr.create bcreateR at h
  rw [htyped.width] at h
  cases e with
  | constant w c =>
    split at h
    case isTrue => cases h
    case isFalse => exact Except.ok.inj h ▸ hP.constant _
  | _ =>
    split at h
    case isTrue => cases h
    case isFalse => exact EqExpr.createPartialR_stable hP htyped he h

end

theorem supported_stable {optimizeDivides : Bool} : Expr.Stable (Expr.Supported optimizeDivides) where
  constant _ := trivial
  isZero h := ⟨trivial, h, nofun, fun hne => absurd rfl hne⟩
  isNotZero h := h.2.1
  kids h := ⟨h.1, h.2.1⟩
  and hl hr := ⟨hl, hr, trivial⟩

theorem regular_stable {v : Valuation} : Expr.Stable (Expr.Regular v) where
  constant _ := trivial
  isZero h := ⟨trivial, h⟩
  isNotZero h := h.2
  kids h := ⟨h.1, h.2.1⟩
  and hl hr := ⟨hl, hr, fun h => absurd h (by decide), fun h => absurd h (by decide)⟩

theorem plain_stable : Expr.Stable Expr.Plain where
  constant _ := trivial
  isZero h := ⟨trivial, h⟩
  isNotZero h := h.2
  kids h := h
  and hl hr := ⟨hl, hr⟩

/-! ### Arrays -/

mutual
/-- Every array of the expression has the property. -/
def Expr.Over (P : Array → Prop) : Expr → Prop
  | .constant _ _ => True
  | .notOptimized src => src.Over P
  | .read updates index => updates.Over P ∧ index.Over P
  | .select cond trueExpr falseExpr => cond.Over P ∧ trueExpr.Over P ∧ falseExpr.Over P
  | .concat left right => left.Over P ∧ right.Over P
  | .extract expr _ _ => expr.Over P
  | .zext src _ => src.Over P
  | .sext src _ => src.Over P
  | .not expr => expr.Over P
  | .arith _ left right => left.Over P ∧ right.Over P
  | .cmp _ left right => left.Over P ∧ right.Over P

def UpdateList.Over (P : Array → Prop) : UpdateList → Prop
  | .root array => P array
  | .extend next index value => next.Over P ∧ index.Over P ∧ value.Over P
end

/-- The arrays of the program under test. -/
structure Array.OfBytes (array : Array) : Prop where
  domain : array.domain = 32
  range : array.range = 8
  size_le : array.size ≤ 2 ^ 32

section
variable {Q : Array → Prop} {e : Expr}

theorem over_stable : Expr.Stable (Expr.Over Q) where
  constant _ := trivial
  isZero h := ⟨trivial, h⟩
  isNotZero h := h.2
  kids h := h
  and hl hr := ⟨hl, hr⟩

theorem UpdateList.over_array : (ul : UpdateList) → ul.Over Q → Q ul.array
  | .root _, h => h
  | .extend next _ _, h => UpdateList.over_array next h.1

theorem UpdateList.over_kids : (ul : UpdateList) → ul.Over Q → ∀ k ∈ ul.kids, k.Over Q
  | .root _, _ => fun _ h => absurd h List.not_mem_nil
  | .extend next _ _, h => List.forall_mem_cons.mpr ⟨h.2.1, List.forall_mem_cons.mpr ⟨h.2.2, UpdateList.over_kids next h.1⟩⟩

theorem Expr.over_parts (h : e.Over Q) : ∀ k ∈ e.parts, k.Over Q := by
  cases e with
  | read ul index => exact List.forall_mem_cons.mpr ⟨h.2, ul.over_kids h.1⟩
  | constant => exact fun _ h => absurd h List.not_mem_nil
  | select c t f => simpa [Expr.parts, Expr.kids, Expr.Over] using h
  | concat l r | arith _ l r | cmp _ l r => simpa [Expr.parts, Expr.kids, Expr.Over] using h
  | notOptimized src | extract src _ _ | zext src _ | sext src _ | not src => simpa [Expr.parts, Expr.kids, Expr.Over] using h

theorem Expr.over_findReads (h : e.Over Q) {re : ReadExpr} (hre : re ∈ findReads e) : Q re.updates.array := by
  by_cases hconstant : e.isConstant = true
  · rw [findReads, if_pos hconstant] at hre
    cases hre
  have hpath := (mem_findReads (Bool.eq_false_of_not_eq_true hconstant)).mp hre
  have hvisit : ∀ a, e.Visits a → a.Over Q := by
    intro a hpath
    induction hpath with
    | refl => exact h
    | tail _ hmem ih => exact Expr.over_parts ih _ (List.mem_filter.mp hmem).1
  exact UpdateList.over_array _ (hvisit _ hpath).1

mutual
theorem Expr.over_symbolicObjects : (e : Expr) → (objects : List Array) → e.Over Q → (∀ array ∈ objects, Q array) →
    ∀ array ∈ e.symbolicObjects objects, Q array
  | .constant _ _, _, _, h => h
  | .notOptimized e, objects, he, h | .extract e _ _, objects, he, h | .zext e _, objects, he, h
  | .sext e _, objects, he, h | .not e, objects, he, h => Expr.over_symbolicObjects e objects he h
  | .read ul index, objects, he, h => by
    refine Expr.over_symbolicObjects index _ he.2 fun array harray => ?_
    rcases mem_addRoot.mp harray with hold | ⟨-, rfl⟩
    · exact UpdateList.over_symbolicObjects ul objects he.1 h array hold
    · exact ul.over_array he.1
  | .select c t f, objects, he, h => Expr.over_symbolicObjects f _ he.2.2
    (Expr.over_symbolicObjects t _ he.2.1 (Expr.over_symbolicObjects c objects he.1 h))
  | .concat l r, objects, he, h
  | .arith _ l r, objects, he, h
  | .cmp _ l r, objects, he, h => Expr.over_symbolicObjects r _ he.2 (Expr.over_symbolicObjects l objects he.1 h)

theorem UpdateList.over_symbolicObjects : (ul : UpdateList) → (objects : List Array) → ul.Over Q → (∀ array ∈ objects, Q array) →
    ∀ array ∈ ul.symbolicObjects objects, Q array
  | .root _, _, _, h => h
  | .extend next index value, objects, hul, h => UpdateList.over_symbolicObjects next _ hul.1
    (Expr.over_symbolicObjects value _ hul.2.2 (Expr.over_symbolicObjects index objects hul.2.1 h))
end

theorem over_findSymbolicObjects {es : List Expr} (hes : ∀ e ∈ es, e.Over Q) : ∀ array ∈ findSymbolicObjects es, Q array := by
  have hfold : ∀ (es : List Expr) (objects : List Array), (∀ e ∈ es, e.Over Q) → (∀ array ∈ objects, Q array) →
      ∀ array ∈ es.foldl (fun objects e => e.symbolicObjects objects) objects, Q array := by
    intro es
    induction es with
    | nil => exact fun _ _ h => h
    | cons e es ih =>
      intro objects hes h
      obtain ⟨he, hes⟩ := List.forall_mem_cons.mp hes
      exact ih _ hes (e.over_symbolicObjects objects he h)
  exact hfold es [] hes (List.forall_mem_nil _)

theorem readable_findSymbolicObjects {es : List Expr} (hes : ∀ e ∈ es, e.Over Array.OfBytes) :
    ∀ array ∈ findSymbolicObjects es, array.Readable := fun array harray =>
  have hbytes := over_findSymbolicObjects hes array harray
  ⟨isSymbolicArray_of_mem harray, hbytes.domain, hbytes.range, hbytes.size_le⟩

end

/-! ### Agreeing assignments -/

/-- What the expression reads is the same under both assignments. -/
structure Expr.Agrees (e : Expr) (v v' : Valuation) : Prop where
  left : ∀ array i, e.Reads v array i → array.initial v i = array.initial v' i
  right : ∀ array i, e.Reads v' array i → array.initial v i = array.initial v' i

section
variable {v v' : Valuation} {e : Expr}

theorem Expr.Agrees.value_eq (h : e.Agrees v v') : e.value v = e.value v' := e.value_congr h.left

theorem Expr.Agrees.symm (h : e.Agrees v v') : e.Agrees v' v where
  left array i hr := (h.right array i hr).symm
  right array i hr := (h.left array i hr).symm

theorem UpdateList.inside_congr : (ul : UpdateList) → (index : Nat) →
    (∀ array i, ul.Reads v array i index → array.initial v i = array.initial v' i) → ul.Inside v index → ul.Inside v' index
  | .root _, _, _, h => h
  | .extend next updateIndex _, index, hreads, h => by
    rcases h with hhere | hnext
    · refine .inl ?_
      rw [← Expr.value_congr updateIndex fun array i hr => hreads array i (.inl hr)]
      exact hhere
    · exact .inr (next.inside_congr index (fun array i hr => hreads array i (.inr (.inr hr))) hnext)

theorem arithRegular_congr {l r : Expr} {kind : ArithKind} (hl : l.value v = l.value v') (hr : r.value v = r.value v')
    (h : ArithRegular v l r kind) : ArithRegular v' l r kind := by
  unfold ArithRegular Expr.bits at h ⊢
  rw [← hl, ← hr]
  exact h

mutual
theorem Expr.regular_congr : (e : Expr) → (∀ array i, e.Reads v array i → array.initial v i = array.initial v' i) →
    e.Regular v → e.Regular v'
  | .constant _ _, _, _ => trivial
  | .notOptimized e, h, hs | .extract e _ _, h, hs | .zext e _, h, hs | .sext e _, h, hs | .not e, h, hs =>
    Expr.regular_congr e h hs
  | .read ul index, h, hs => by
    have hindex : index.value v = index.value v' := index.value_congr fun array i hr => h array i (.inl hr)
    refine ⟨UpdateList.regular_congr ul _ (fun array i hr => h array i (.inr hr)) hs.1,
      Expr.regular_congr index (fun array i hr => h array i (.inl hr)) hs.2.1, ?_⟩
    rw [← hindex]
    exact ul.inside_congr _ (fun array i hr => h array i (.inr hr)) hs.2.2
  | .select c t f, h, hs => ⟨Expr.regular_congr c (fun array i hr => h array i (.inl hr)) hs.1,
    Expr.regular_congr t (fun array i hr => h array i (.inr (.inl hr))) hs.2.1,
    Expr.regular_congr f (fun array i hr => h array i (.inr (.inr hr))) hs.2.2⟩
  | .concat l r, h, hs | .cmp _ l r, h, hs => ⟨Expr.regular_congr l (fun array i hr => h array i (.inl hr)) hs.1,
    Expr.regular_congr r (fun array i hr => h array i (.inr hr)) hs.2⟩
  | .arith _ l r, h, hs => ⟨Expr.regular_congr l (fun array i hr => h array i (.inl hr)) hs.1,
    Expr.regular_congr r (fun array i hr => h array i (.inr hr)) hs.2.1,
    arithRegular_congr (l.value_congr fun array i hr => h array i (.inl hr)) (r.value_congr fun array i hr => h array i (.inr hr)) hs.2.2⟩

theorem UpdateList.regular_congr : (ul : UpdateList) → (index : Nat) →
    (∀ array i, ul.Reads v array i index → array.initial v i = array.initial v' i) → ul.Regular v → ul.Regular v'
  | .root _, _, _, _ => trivial
  | .extend next updateIndex value, index, h, hs =>
    ⟨UpdateList.regular_congr next index (fun array i hr => h array i (.inr (.inr hr))) hs.1,
      Expr.regular_congr updateIndex (fun array i hr => h array i (.inl hr)) hs.2.1,
      Expr.regular_congr value (fun array i hr => h array i (.inr (.inl hr))) hs.2.2⟩
end

end

/-! ### Queries that can be asked -/

open CexCachingSolver (Asked)

/-- A query that every solver of the chain can be asked. -/
structure Query.Served (cfg : CexCachingSolver.Config) (optimizeDivides : Bool) (query : Query) : Prop
    extends Asked cfg query, query.Handled optimizeDivides where
  plain : query.expr.Plain
  arrays : ∀ e ∈ query.expr :: query.constraints, e.Over Array.OfBytes

/-- A query for the value of an expression of any width. -/
structure Query.Evaluable (cfg : CexCachingSolver.Config) (optimizeDivides : Bool) (query : Query) : Prop where
  asked : query.withFalse.Served cfg optimizeDivides
  typed : query.expr.WellTyped
  plain : query.expr.Plain
  divisors : ∀ v, query.Satisfies v → query.expr.Sound cfg.constArrayOpt true v
  arrays : query.expr.Over Array.OfBytes

section
variable {cfg : CexCachingSolver.Config} {optimizeDivides : Bool} {query : Query}

theorem Query.Served.withFalse (h : query.Served cfg optimizeDivides) : query.withFalse.Served cfg optimizeDivides where
  toAsked := h.toAsked.withFalse
  supported := List.forall_mem_cons.mpr ⟨trivial, (List.forall_mem_cons.mp h.supported).2⟩
  guarded v := by
    rcases h.guarded v with hall | hguard
    · exact .inl (List.forall_mem_cons.mpr ⟨trivial, (List.forall_mem_cons.mp hall).2⟩)
    · exact .inr hguard
  plain := trivial
  arrays := List.forall_mem_cons.mpr ⟨trivial, (List.forall_mem_cons.mp h.arrays).2⟩

theorem Query.Served.evaluable (h : query.Served cfg optimizeDivides) : query.Evaluable cfg optimizeDivides where
  asked := h.withFalse
  typed := h.expr.1
  plain := h.plain
  divisors v hv := h.divisors v hv _ List.mem_cons_self
  arrays := h.arrays _ List.mem_cons_self

/-- The negated query can be asked. -/
theorem Query.Served.negate (h : query.Served cfg optimizeDivides) {n : Expr}
    (hn : query.expr.createIsZero cfg.constArrayOpt = .ok n) : (query.withExpr n).Served cfg optimizeDivides := by
  obtain ⟨n', hn', -, hasked, -⟩ := h.toAsked.negateExpr
  obtain rfl : n = n' := Except.ok.inj (hn.symm.trans hn')
  obtain ⟨hsupported, hsupporteds⟩ := List.forall_mem_cons.mp h.supported
  obtain ⟨harrays, harrayss⟩ := List.forall_mem_cons.mp h.arrays
  refine { toAsked := hasked, supported := ?_, guarded := fun v => ?_, plain := ?_, arrays := ?_ }
  · exact List.forall_mem_cons.mpr ⟨Expr.createIsZero_stable supported_stable h.expr hsupported hn, hsupporteds⟩
  · rcases h.guarded v with hall | hguard
    · obtain ⟨hregular, hregulars⟩ := List.forall_mem_cons.mp hall
      exact .inl (List.forall_mem_cons.mpr ⟨Expr.createIsZero_stable regular_stable h.expr hregular hn, hregulars⟩)
    · exact .inr hguard
  · exact Expr.createIsZero_stable plain_stable h.expr h.plain hn
  · exact List.forall_mem_cons.mpr ⟨Expr.createIsZero_stable over_stable h.expr harrays hn, harrayss⟩

theorem Query.satisfies_of_agrees {constraints : List Expr} {v v' : Valuation} (hagree : ∀ c ∈ constraints, c.Agrees v v')
    (hrest : ∀ c ∈ query.constraints, c ∉ constraints → c.Holds v') (hv : ∀ c ∈ constraints, c.Holds v) : query.Satisfies v' := by
  intro c hc
  by_cases hkept : c ∈ constraints
  · rw [Expr.Holds, ← (hagree c hkept).value_eq]
    exact hv c hkept
  · exact hrest c hc hkept

/-- Constraints can be left out if each assignment goes on to one that satisfies them and agrees on the others. -/
theorem Query.Served.restrict (h : query.Served cfg optimizeDivides) {constraints : List Expr} (hsub : constraints ⊆ query.constraints)
    (hagrees : ∀ v, ∃ v', (∀ e ∈ query.expr :: constraints, e.Agrees v v') ∧
      ∀ c ∈ query.constraints, c ∉ constraints → c.Holds v') :
    Query.Served cfg optimizeDivides ⟨constraints, query.expr⟩ := by
  have hmem {e : Expr} (he : e ∈ query.expr :: constraints) : e ∈ query.expr :: query.constraints := by
    rcases List.mem_cons.mp he with rfl | hc
    exacts [List.mem_cons_self, List.mem_cons_of_mem _ (hsub hc)]
  refine { constraints := fun c hc => h.constraints c (hsub hc), expr := h.expr, inRange := fun v e he => h.inRange v e (hmem he),
           divisors := fun v hv e he => ?_, satisfiable := h.satisfiable.imp fun v hv c hc => hv c (hsub hc),
           supported := fun e he => h.supported e (hmem he), guarded := fun v => ?_, plain := h.plain,
           arrays := fun e he => h.arrays e (hmem he) }
  · obtain ⟨v', hagree, hrest⟩ := hagrees v
    have hv' : query.Satisfies v' := Query.satisfies_of_agrees (List.forall_mem_cons.mp hagree).2 hrest hv
    exact Expr.sound_congr e (hagree e he).symm.left (h.divisors v' hv' e (hmem he))
  · obtain ⟨v', hagree, hrest⟩ := hagrees v
    rcases h.guarded v' with hall | ⟨c, hc, hregular, hfalse⟩
    · exact .inl fun e he => e.regular_congr (hagree e he).symm.left (hall e (hmem he))
    · by_cases hkept : c ∈ constraints
      · refine .inr ⟨c, hkept, c.regular_congr (hagree c (List.mem_cons_of_mem _ hkept)).symm.left hregular, ?_⟩
        rw [Expr.Holds, (hagree c (List.mem_cons_of_mem _ hkept)).value_eq]
        exact hfalse
      · exact absurd (hrest c hc hkept) hfalse

end

namespace IndependentSolver

/-- What is left out is satisfied by a continuation of every assignment. -/
theorem required_agrees {query : Query} (hconstraints : ∀ c ∈ query.constraints, c.Typed 1) (hexpr : query.expr.WellTyped)
    (hindexed : query.Indexed) (hsatisfiable : query.Satisfiable) :
    ∃ constraints, required query = .ok ⟨constraints, query.expr⟩ ∧ constraints ⊆ query.constraints ∧
      ∀ v, ∃ v', (∀ e ∈ query.expr :: constraints, e.Agrees v v') ∧ ∀ c ∈ query.constraints, c ∉ constraints → c.Holds v' := by
  obtain ⟨closure, result, rest, hok, hselected, hapart⟩ := required_selected hconstraints hexpr hindexed
  obtain ⟨u, hu⟩ := hsatisfiable
  refine ⟨result, hok, fun c hc => (hselected.mem c).mpr (.inl hc), fun v => ⟨continued closure v u, fun e he => ?_, fun c hc hleft => ?_⟩⟩
  · have hcovered : closure.CoversReads e := by
      rcases List.mem_cons.mp he with rfl | hc
      exacts [hselected.expr, hselected.taken e hc]
    have hsame (x : Valuation) (array : Array) (i : Nat) (hr : e.Reads x array i) :
        array.initial v i = array.initial (continued closure v u) i :=
      initial_congr fun hsymbolic => by rw [continued, if_pos (hcovered x array i hsymbolic hr)]
    exact ⟨hsame v, hsame _⟩
  · obtain ⟨entry, hentry, rfl⟩ := List.mem_map.mp (((hselected.mem c).mp hc).resolve_left hleft)
    rw [Expr.Holds, value_continued_apart (hselected.entries entry hentry) (hapart entry hentry)]
    exact hu entry.1 hc

end IndependentSolver

section
variable {cfg : CexCachingSolver.Config} {optimizeDivides : Bool} {query : Query}

theorem indexed_of_over (h : ∀ e ∈ query.expr :: query.constraints, e.Over Array.OfBytes) : query.Indexed :=
  fun e he _ hre => (Expr.over_findReads (h e he) hre).domain.le

theorem Query.Evaluable.over (h : query.Evaluable cfg optimizeDivides) : ∀ e ∈ query.expr :: query.constraints, e.Over Array.OfBytes :=
  List.forall_mem_cons.mpr ⟨h.arrays, (List.forall_mem_cons.mp h.asked.arrays).2⟩

/-- The query that the independent solver passes on can be asked and means the same. -/
theorem Query.Served.required (h : query.Served cfg optimizeDivides) :
    ∃ q, IndependentSolver.required query = .ok q ∧ q.Served cfg optimizeDivides ∧ (q.Valid ↔ query.Valid) ∧
      ∀ validity, q.HasValidity validity ↔ query.HasValidity validity := by
  have hindexed := indexed_of_over h.arrays
  obtain ⟨q, hq, hstands⟩ := IndependentSolver.required_spec h.constraints h.expr.1 hindexed h.satisfiable
  obtain ⟨constraints, hq', hsub, hagrees⟩ := IndependentSolver.required_agrees h.constraints h.expr.1 hindexed h.satisfiable
  obtain rfl := Except.ok.inj (hq.symm.trans hq')
  exact ⟨_, hq, h.restrict hsub hagrees, hstands.valid_iff, hstands.hasValidity_iff⟩

theorem Query.Evaluable.required (h : query.Evaluable cfg optimizeDivides) :
    ∃ q, IndependentSolver.required query = .ok q ∧ q.Evaluable cfg optimizeDivides ∧ q.expr = query.expr ∧
      ∀ v, q.Satisfies v → ∃ v', query.Satisfies v' ∧ query.expr.value v' = query.expr.value v := by
  have hindexed := indexed_of_over h.over
  have hconstraints : ∀ c ∈ query.constraints, c.Typed 1 := h.asked.constraints
  have hsatisfiable : query.Satisfiable := h.asked.satisfiable
  obtain ⟨q, hq, hstands⟩ := IndependentSolver.required_spec hconstraints h.typed hindexed hsatisfiable
  obtain ⟨constraints, hq', hsub, hagrees⟩ := IndependentSolver.required_agrees hconstraints h.typed hindexed hsatisfiable
  obtain rfl := Except.ok.inj (hq.symm.trans hq')
  refine ⟨_, hq, ⟨?_, h.typed, h.plain, fun v hv => ?_, h.arrays⟩, rfl, hstands.continues⟩
  · refine Query.Served.restrict h.asked hsub fun v => ?_
    obtain ⟨v', hagree, hrest⟩ := hagrees v
    exact ⟨v', List.forall_mem_cons.mpr ⟨⟨fun _ _ h => h.elim, fun _ _ h => h.elim⟩, (List.forall_mem_cons.mp hagree).2⟩, hrest⟩
  · obtain ⟨v', hagree, hrest⟩ := hagrees v
    exact Expr.sound_congr _ (hagree _ List.mem_cons_self).symm.left
      (h.divisors v' (Query.satisfies_of_agrees (List.forall_mem_cons.mp hagree).2 hrest hv))

end

end CapTaint.Klee
