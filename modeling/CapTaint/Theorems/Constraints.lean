import CapTaint.Lib.OptionLoop
import CapTaint.Theorems.Negation
import CapTaint.Theorems.Visitor
import CapTaint.Klee.Solver

/-! # Adding constraints

`addConstraint` keeps the path condition. A valuation that makes all constraints true keeps doing so while they are
rewritten; one that makes a constraint false keeps a false constraint, because an equality that is false itself only
rewrites constraints in which its right side occurs. -/

namespace CapTaint.Klee

theorem Rewrites.holds_iff {opt div : Bool} {V : Valuation → Prop} {v : Valuation} {e r : Expr}
    (h : Rewrites opt V 1 e r) (hv : V v) (hs : e.Sound opt div v) : r.Holds v ↔ e.Holds v := by
  rw [Expr.Holds, Expr.Holds, h.value_eq hv hs]

namespace ConstraintManager

variable {opt useVisitorHash div : Bool} {v : Valuation} {w : Nat} {cs cs' : List Expr} {e : Expr}

/-! ### Valuations and constraints -/

/-- The constraints have values and are true. -/
def AllTrue (opt div : Bool) (v : Valuation) (cs : List Expr) : Prop := ∀ c ∈ cs, c.Sound opt div v ∧ c.Holds v

/-- A constraint has a value and is false. -/
def Refutes (opt div : Bool) (v : Valuation) (cs : List Expr) : Prop := ∃ c ∈ cs, c.Sound opt div v ∧ ¬c.Holds v

theorem AllTrue.snoc (h : AllTrue opt div v cs) (hs : e.Sound opt div v) (he : e.Holds v) :
    AllTrue opt div v (cs ++ [e]) := by
  intro c hc
  rcases List.mem_append.mp hc with hold | hnew
  · exact h c hold
  · obtain rfl := List.mem_singleton.mp hnew
    exact ⟨hs, he⟩

theorem Refutes.append (h : Refutes opt div v cs) (new : List Expr) : Refutes opt div v (cs ++ new) := by
  obtain ⟨c, hc, hfalse⟩ := h
  exact ⟨c, List.mem_append_left _ hc, hfalse⟩

theorem Refutes.last (hs : e.Sound opt div v) (he : ¬e.Holds v) : Refutes opt div v (cs ++ [e]) :=
  ⟨e, List.mem_append_right _ (List.mem_singleton_self e), hs, he⟩

theorem typed_snoc (h : ∀ c ∈ cs, c.Typed 1) (he : e.Typed 1) : ∀ c ∈ cs ++ [e], c.Typed 1 := by
  intro c hc
  rcases List.mem_append.mp hc with hold | hnew
  · exact h c hold
  · exact List.mem_singleton.mp hnew ▸ he

theorem totalWeight_snoc (cs : List Expr) (e : Expr) : totalWeight (cs ++ [e]) = totalWeight cs + e.weight := by
  simp [totalWeight]

theorem totalWeight_cons (e : Expr) (cs : List Expr) : totalWeight (e :: cs) = e.weight + totalWeight cs := by
  simp [totalWeight]

/-! ### What the replacements keep -/

/-- Under an equality its right side is the constant. -/
theorem rewrites_equality {V : Valuation → Prop} {c : BitVec w} {right : Expr} (hright : right.Typed w)
    (hV : ∀ v, V v → (Expr.cmp .eq (.constant w c) right).Holds v) :
    Rewrites opt V w right (.constant w c) :=
  .to_constant hright fun _ v hv _ => (Expr.holds_eq_iff hright).mp (hV v hv)

/-- What a visitor may do that replaces the right side of an equality. -/
abbrev ByEquality (opt : Bool) (c : BitVec w) (right : Expr) : Nat → Expr → Expr → Prop :=
  Replaced opt (fun v => (Expr.cmp .eq (.constant w c) right).Holds v) fun div v => right.Sound opt div v

theorem replaceVisitor_spec {c : BitVec w} {right : Expr} (hright : right.Typed w) :
    Replacement opt (fun v => (Expr.cmp .eq (.constant w c) right).Holds v) (fun div v => right.Sound opt div v)
      (fun e => if e = right then some (.constant w c) else none) := by
  intro e r k h he
  dsimp only at h
  split at h
  case isTrue hsame =>
    subst hsame
    obtain rfl := Option.some.inj h
    obtain rfl : w = k := hright.2.symm.trans he.2
    exact ⟨rewrites_equality hright fun v hv => hv, rfl, fun _ _ hs => hs⟩
  case isFalse => cases h

/-- The constraints of a query allow what `simplifyExpr` replaces. -/
theorem equality_spec (hcs : ∀ c ∈ cs, c.Typed 1) :
    Replacement opt (fun v => ∀ c ∈ cs, c.Holds v) (fun _ _ => True) fun e => (cs.map equality).lookup e := by
  intro e r k h he
  obtain ⟨l₁, l₂, hmap, -⟩ := List.lookup_eq_some_iff.mp h
  obtain ⟨c, hc, hpair⟩ : ∃ c ∈ cs, equality c = (e, r) :=
    List.mem_map.mp (by rw [hmap]; exact List.mem_append_right _ List.mem_cons_self)
  have htyped := hcs c hc
  unfold equality at hpair
  split at hpair
  case h_1 w value right =>
    obtain ⟨rfl, rfl⟩ := Prod.mk.inj hpair
    obtain ⟨-, hconst, hright⟩ := htyped.cmp_inv
    obtain rfl : w = k := hright.2.symm.trans he.2
    exact ⟨rewrites_equality he fun v hv => hv _ hc, rfl, fun _ _ _ => trivial⟩
  case h_2 =>
    obtain ⟨rfl, rfl⟩ := Prod.mk.inj hpair
    obtain rfl : 1 = k := htyped.2.symm.trans he.2
    refine ⟨.to_constant he fun _ v hv _ => ?_, rfl, fun _ _ _ => trivial⟩
    apply BitVec.eq_of_toNat_eq
    rw [Expr.toNat_bits he.1 he.2]
    exact (hv _ hc).symm

/-! ### Adding -/

/-- What the constraints are after `e` is added to `cs`. -/
structure Extends (opt : Bool) (cs : List Expr) (e : Expr) (cs' : List Expr) : Prop where
  typed : ∀ c ∈ cs', c.Typed 1
  weight : totalWeight cs' ≤ totalWeight cs + e.weight
  keeps : ∀ div v, AllTrue opt div v cs → e.Sound opt div v → e.Holds v → AllTrue opt div v cs'
  refuted : ∀ div v, Refutes opt div v cs → Refutes opt div v cs'
  refutes : ∀ div v, e.Sound opt div v → ¬e.Holds v → Refutes opt div v cs'

/-- How the adding ends. The assertion fails only if no valuation makes all true. -/
inductive Added (opt : Bool) (cs : List Expr) (e : Expr) : Except Abort (List Expr) → Prop
  | ok (cs' : List Expr) (h : Extends opt cs e cs') : Added opt cs e (.ok cs')
  | invalid (h : ∀ div v, AllTrue opt div v cs → e.Sound opt div v → ¬e.Holds v) :
    Added opt cs e (.error .invalidConstraint)
  | divides (h : ∀ v, AllTrue opt true v cs → e.Sound opt true v → ¬e.Holds v) :
    Added opt cs e (.error .divideByZero)

theorem Added.pushed (hcs : ∀ c ∈ cs, c.Typed 1) (he : e.Typed 1) : Added opt cs e (.ok (cs ++ [e])) :=
  .ok _ {
    typed := typed_snoc hcs he
    weight := (totalWeight_snoc cs e).le
    keeps := fun _ _ h hs he => h.snoc hs he
    refuted := fun _ _ h => h.append [e]
    refutes := fun _ _ hs he => Refutes.last hs he }

theorem holds_and_iff {l r : Expr} (hl : l.Typed 1) (hr : r.Typed 1) :
    (Expr.arith .and l r).Holds v ↔ l.Holds v ∧ r.Holds v := by
  have hand : (Expr.arith .and l r).Typed 1 := hl.sum hr
  rw [Expr.Holds, Expr.Holds, Expr.Holds, ← Expr.toNat_bits hand.1 hand.2, ← Expr.toNat_bits hl.1 hl.2,
    ← Expr.toNat_bits hr.1 hr.2, hl.bits_arith, applyArith_and]
  generalize l.bits v 1 = x
  generalize r.bits v 1 = y
  revert x y
  decide

/-- A conjunction is added as its two sides, one after the other. -/
theorem Added.and {l r : Expr} {result : Except Abort (List Expr)} {next : List Expr → Except Abort (List Expr)}
    (hl : l.Typed 1) (hr : r.Typed 1) (hfirst : Added opt cs l result)
    (hsecond : ∀ cs', Extends opt cs l cs' → Added opt cs' r (next cs')) :
    Added opt cs (.arith .and l r) (result >>= next) := by
  cases hfirst with
  | invalid h =>
    refine .invalid fun div v hall hs he => ?_
    exact h div v hall hs.1 ((holds_and_iff hl hr).mp he).1
  | divides h =>
    refine .divides fun v hall hs he => ?_
    exact h v hall hs.1 ((holds_and_iff hl hr).mp he).1
  | ok cs' h =>
    have hkeeps : ∀ div v, AllTrue opt div v cs → (Expr.arith .and l r).Sound opt div v → (Expr.arith .and l r).Holds v →
        AllTrue opt div v cs' := fun div v hall hs he => h.keeps div v hall hs.1 ((holds_and_iff hl hr).mp he).1
    show Added opt cs (.arith .and l r) (next cs')
    generalize hnext : next cs' = result'
    have hadded := hnext ▸ hsecond cs' h
    cases hadded with
    | invalid h' =>
      refine .invalid fun div v hall hs he => ?_
      exact h' div v (hkeeps div v hall hs he) hs.2.1 ((holds_and_iff hl hr).mp he).2
    | divides h' =>
      refine .divides fun v hall hs he => ?_
      exact h' v (hkeeps true v hall hs he) hs.2.1 ((holds_and_iff hl hr).mp he).2
    | ok cs'' h' =>
      refine .ok cs'' ⟨h'.typed, ?_, fun div v hall hs he => ?_, fun div v href => ?_, fun div v hs he => ?_⟩
      · have := h.weight
        have := h'.weight
        simp only [Expr.weight]
        omega
      · exact h'.keeps div v (hkeeps div v hall hs he) hs.2.1 ((holds_and_iff hl hr).mp he).2
      · exact h'.refuted div v (h.refuted div v href)
      · rw [holds_and_iff hl hr, not_and_or] at he
        rcases he with hleft | hright
        · exact h'.refuted div v (h.refutes div v hs.1 hleft)
        · exact h'.refutes div v hs.2.1 hright

/-- How the loop over the old constraints ends, where `q` is the equality that it rewrites with. -/
inductive Rewritten (opt : Bool) (q : Expr) (new old : List Expr) : Except Abort (List Expr) → Prop
  | ok (cs' : List Expr) (typed : ∀ c ∈ cs', c.Typed 1) (weight : totalWeight cs' ≤ totalWeight new + totalWeight old)
      (keeps : ∀ div v, q.Holds v → AllTrue opt div v new → AllTrue opt div v old → AllTrue opt div v cs')
      (refuted : ∀ div v, Refutes opt div v new ∨ Refutes opt div v old →
        Refutes opt div v cs' ∨ (q.Sound opt div v ∧ ¬q.Holds v)) : Rewritten opt q new old (.ok cs')
  | invalid (h : ∀ div v, q.Holds v → AllTrue opt div v new → ¬AllTrue opt div v old) :
    Rewritten opt q new old (.error .invalidConstraint)
  | divides (h : ∀ v, q.Holds v → AllTrue opt true v new → ¬AllTrue opt true v old) :
    Rewritten opt q new old (.error .divideByZero)

/-- One turn of the loop: the constraint `ce` has become `e` and was put to the new constraints, which are now `new'`. -/
theorem Rewritten.next {q ce : Expr} {new new' old : List Expr} {result : Except Abort (List Expr)}
    (hweight : totalWeight new' ≤ totalWeight new + ce.weight)
    (hkeeps : ∀ div v, q.Holds v → AllTrue opt div v new → ce.Sound opt div v → ce.Holds v → AllTrue opt div v new')
    (hrefuted : ∀ div v, Refutes opt div v new → Refutes opt div v new')
    (hrefutes : ∀ div v, ce.Sound opt div v → ¬ce.Holds v → Refutes opt div v new' ∨ (q.Sound opt div v ∧ ¬q.Holds v))
    (h : Rewritten opt q new' old result) : Rewritten opt q new (ce :: old) result := by
  have hsplit : ∀ {div v}, AllTrue opt div v (ce :: old) → (ce.Sound opt div v ∧ ce.Holds v) ∧ AllTrue opt div v old :=
    List.forall_mem_cons.mp
  cases h with
  | invalid h =>
    refine .invalid fun div v hq hnew hold => ?_
    obtain ⟨⟨hs, hce⟩, hold⟩ := hsplit hold
    exact h div v hq (hkeeps div v hq hnew hs hce) hold
  | divides h =>
    refine .divides fun v hq hnew hold => ?_
    obtain ⟨⟨hs, hce⟩, hold⟩ := hsplit hold
    exact h v hq (hkeeps true v hq hnew hs hce) hold
  | ok cs' typed weight keeps refuted =>
    refine .ok cs' typed ?_ (fun div v hq hnew hold => ?_) fun div v href => ?_
    · rw [totalWeight_cons]
      omega
    · obtain ⟨⟨hs, hce⟩, hold⟩ := hsplit hold
      exact keeps div v hq (hkeeps div v hq hnew hs hce) hold
    · rcases href with hnew | ⟨c, hc, hs, hfalse⟩
      · exact refuted div v (.inl (hrefuted div v hnew))
      · rcases List.mem_cons.mp hc with rfl | hmem
        · rcases hrefutes div v hs hfalse with hnew' | hq
          · exact refuted div v (.inl hnew')
          · exact .inr hq
        · exact refuted div v (.inr ⟨c, hmem, hs, hfalse⟩)

section
variable {c : BitVec w} {right : Expr} {fuel : Nat} {visit : Expr → Visited → Except Abort (Expr × Visited)}
  {add : List Expr → Expr → Except Abort (List Expr)}

theorem rewriteConstraints_spec
    (hvisit : ∀ ce : Expr, ce.Typed 1 → ce.weight < fuel → ∀ visited : Visited,
      visited.Ok (ByEquality opt c right) →
      Visits opt (fun v => (Expr.cmp .eq (.constant w c) right).Holds v) (ByEquality opt c right) 1 ce (visit ce visited))
    (hadd : ∀ cs e, (∀ c ∈ cs, c.Typed 1) → e.Typed 1 → totalWeight cs + e.weight < fuel → Added opt cs e (add cs e))
    (old : List Expr) : ∀ (new : List Expr) (visited : Visited), (∀ c ∈ new, c.Typed 1) → (∀ c ∈ old, c.Typed 1) →
      totalWeight new + totalWeight old < fuel →
      visited.Ok (ByEquality opt c right) →
      Rewritten opt (.cmp .eq (.constant w c) right) new old (rewriteConstraints visit add old visited new) := by
  induction old with
  | nil =>
    intro new visited hnew _ _ _
    refine .ok new hnew le_rfl (fun _ _ _ h _ => h) fun div v href => .inl ?_
    rcases href with h | ⟨_, hc, _⟩
    · exact h
    · cases hc
  | cons ce old ih =>
    intro new visited hnew hold hfuel hok
    have hce : ce.Typed 1 := hold ce List.mem_cons_self
    have hold' : ∀ c ∈ old, c.Typed 1 := fun c hc => hold c (List.mem_cons_of_mem _ hc)
    rw [totalWeight_cons] at hfuel
    unfold rewriteConstraints
    rcases hvisit ce hce (by omega) visited hok with ⟨e, visited', he, hok', hreplaced⟩ | ⟨herror, hzero⟩
    · simp only [he, bind, Except.bind]
      by_cases hsame : e = ce
      · subst hsame
        simp only [ne_eq, not_true_eq_false, if_false, pure, Except.pure]
        refine Rewritten.next (totalWeight_snoc new e).le (fun div v _ h hs he => h.snoc hs he)
          (fun div v h => h.append [e]) (fun div v hs he => .inl (Refutes.last hs he))
          (ih (new ++ [e]) visited' (typed_snoc hnew hce) hold' ?_ hok')
        rw [totalWeight_snoc]
        omega
      · simp only [ne_eq, hsame, not_false_eq_true, if_true]
        obtain ⟨hlt, htouched⟩ := hreplaced.changed hsame
        have hrewrites := hreplaced.rewrites
        have hadded := hadd new e hnew hrewrites.typed (by omega)
        -- under the equality the constraint keeps its value
        have hsound : ∀ {div v}, (Expr.cmp .eq (.constant w c) right).Holds v → ce.Sound opt div v → e.Sound opt div v :=
          fun hq hs => (hrewrites.value _ _ hq hs).1
        generalize hresult : add new e = result at hadded ⊢
        cases hadded with
        | invalid h =>
          refine .invalid fun div v hq hnew hall => ?_
          obtain ⟨hs, hholds⟩ := hall ce List.mem_cons_self
          exact h div v hnew (hsound hq hs) ((hrewrites.holds_iff hq hs).mpr hholds)
        | divides h =>
          refine .divides fun v hq hnew hall => ?_
          obtain ⟨hs, hholds⟩ := hall ce List.mem_cons_self
          exact h v hnew (hsound hq hs) ((hrewrites.holds_iff hq hs).mpr hholds)
        | ok new' h =>
          have hweight := h.weight
          refine Rewritten.next (by omega) (fun div v hq hall hs hholds => ?_) h.refuted (fun div v hs hfalse => ?_)
            (ih new' visited' h.typed hold' (by omega) hok')
          · exact h.keeps div v hall (hsound hq hs) ((hrewrites.holds_iff hq hs).mpr hholds)
          · by_cases hq : (Expr.cmp .eq (.constant w c) right).Holds v
            · exact .inl (h.refutes div v (hsound hq hs) fun hholds => hfalse ((hrewrites.holds_iff hq hs).mp hholds))
            · exact .inr ⟨⟨trivial, htouched div v hs⟩, hq⟩
    · simp only [herror, bind, Except.bind]
      refine .divides fun v hq hnew hall => ?_
      exact hzero v hq (hall ce List.mem_cons_self).1

end

/-- The recursion ends: what is added again weighs less, together with the constraints before it. -/
theorem addConstraintInternal_spec : ∀ (fuel : Nat) (cs : List Expr) (e : Expr), (∀ c ∈ cs, c.Typed 1) → e.Typed 1 →
    totalWeight cs + e.weight < fuel → Added opt cs e (addConstraintInternal opt useVisitorHash fuel cs e) := by
  intro fuel
  induction fuel with
  | zero => exact fun _ _ _ _ hfuel => absurd hfuel (Nat.not_lt_zero _)
  | succ fuel ih =>
    intro cs e hcs he hfuel
    unfold addConstraintInternal
    split
    case h_1 w c =>
      obtain rfl : w = 1 := he.2
      split
      case isTrue hone =>
        obtain rfl : c = 1 := (bit_cases c).resolve_left hone.2
        refine .ok cs ⟨hcs, Nat.le_add_right _ _, fun _ _ h _ _ => h, fun _ _ h => h, fun div v _ hfalse => ?_⟩
        exact absurd rfl hfalse
      case isFalse hone =>
        refine .invalid fun div v _ _ htrue => ?_
        have : c.toNat = 1 := htrue
        exact hone ⟨rfl, fun hzero => by simp [hzero] at this⟩
    case h_2 left right =>
      obtain ⟨hleft, hright⟩ := Expr.Typed.arith.mp he
      simp only [Expr.weight, ArithKind.cost] at hfuel
      refine Added.and hleft hright (ih cs left hcs hleft (by omega)) fun cs' h => ?_
      have := h.weight
      exact ih cs' right h.typed hright (by omega)
    case h_3 w c right =>
      have hright : right.Typed w := ⟨he.1.2.1, he.1.2.2.symm⟩
      have hpos : 0 < (Expr.cmp .eq (.constant w c) right).weight := Expr.weight_pos _ rfl
      have hloop : Rewritten opt (.cmp .eq (.constant w c) right) [] cs
          (rewriteConstraints (ExprVisitor.visit opt useVisitorHash (ExprReplaceVisitor right (.constant w c)) fuel)
            (addConstraintInternal opt useVisitorHash fuel) cs [] []) := by
        refine rewriteConstraints_spec (fun ce hce hlt visited hok => ?_) ih cs [] [] (fun _ h => absurd h List.not_mem_nil)
          hcs ?_ (fun _ h => absurd h List.not_mem_nil)
        · exact visit_spec useVisitorHash (replaceVisitor_spec hright) (replaceVisitor_spec hright) fuel ce 1 hce hlt
            visited hok
        · simp only [totalWeight, List.map_nil, List.sum_nil] at hfuel ⊢
          omega
      dsimp only
      generalize rewriteConstraints _ _ cs [] [] = result at hloop ⊢
      cases hloop with
      | invalid h => exact .invalid fun div v hall _ hq => h div v hq (fun _ h => absurd h List.not_mem_nil) hall
      | divides h => exact .divides fun v hall _ hq => h v hq (fun _ h => absurd h List.not_mem_nil) hall
      | ok cs' typed weight keeps refuted =>
        refine .ok _ ⟨typed_snoc typed he, ?_, fun div v hall hs hq => ?_, fun div v href => ?_, fun div v hs hq => ?_⟩
        · rw [totalWeight_snoc]
          simp only [totalWeight, List.map_nil, List.sum_nil] at weight ⊢
          omega
        · exact (keeps div v hq (fun _ h => absurd h List.not_mem_nil) hall).snoc hs hq
        · rcases refuted div v (.inr href) with h | ⟨hs, hq⟩
          · exact h.append _
          · exact Refutes.last hs hq
        · exact Refutes.last hs hq
    case h_4 => exact Added.pushed hcs he

/-! ### Simplifying -/

/-- The visitor for the equalities of the constraints may use all of them. -/
theorem simplifyExpr_spec (opt useVisitorHash : Bool) (hcs : ∀ c ∈ cs, c.Typed 1) (he : e.Typed w) :
    (∃ r, simplifyExpr opt useVisitorHash cs e = .ok r ∧ Rewrites opt (fun v => ∀ c ∈ cs, c.Holds v) w e r) ∨
      (simplifyExpr opt useVisitorHash cs e = .error .divideByZero ∧
        ∀ v, (∀ c ∈ cs, c.Holds v) → ¬e.Sound opt true v) := by
  unfold simplifyExpr
  split
  case isTrue => exact .inl ⟨e, rfl, .refl he⟩
  case isFalse =>
    have hhook : Replacement opt (fun v => ∀ c ∈ cs, c.Holds v) (fun _ _ => True) fun _ => none := nofun
    have hvisits : Visits opt (fun v => ∀ c ∈ cs, c.Holds v) (Replaced opt (fun v => ∀ c ∈ cs, c.Holds v) fun _ _ => True) w e
        ((ExprReplaceVisitor2 (cs.map equality)).visit opt useVisitorHash (e.weight + 1) e []) :=
      visit_spec useVisitorHash hhook (equality_spec hcs) _ e w he (Nat.lt_succ_self _) [] nofun
    rcases hvisits with ⟨r, visited, hr, -, hreplaced⟩ | ⟨herror, hzero⟩
    · exact .inl ⟨r, by simp only [hr]; rfl, hreplaced.rewrites⟩
    · exact .inr ⟨by simp only [herror]; rfl, hzero⟩

/-- How `addConstraint` ends. A valuation that has made a constraint false before is not asked about `e`. -/
inductive Kept (opt : Bool) (cs : List Expr) (e : Expr) : Except Abort (List Expr) → Prop
  | ok (cs' : List Expr) (typed : ∀ c ∈ cs', c.Typed 1)
      (keeps : ∀ div v, AllTrue opt div v cs → e.Sound opt div v → e.Holds v → AllTrue opt div v cs')
      (refuted : ∀ div v, Refutes opt div v cs → Refutes opt div v cs')
      (refutes : ∀ div v, AllTrue opt div v cs → e.Sound opt div v → ¬e.Holds v → Refutes opt div v cs') :
    Kept opt cs e (.ok cs')
  | invalid (h : ∀ div v, AllTrue opt div v cs → e.Sound opt div v → ¬e.Holds v) :
    Kept opt cs e (.error .invalidConstraint)
  | divides (h : ∀ v, AllTrue opt true v cs → e.Sound opt true v → ¬e.Holds v) : Kept opt cs e (.error .divideByZero)

theorem AllTrue.holds (h : AllTrue opt div v cs) : ∀ c ∈ cs, c.Holds v := fun c hc => (h c hc).2

theorem addConstraint_spec (hcs : ∀ c ∈ cs, c.Typed 1) (he : e.Typed 1) :
    Kept opt cs e (addConstraint opt useVisitorHash cs e) := by
  unfold addConstraint
  rcases simplifyExpr_spec opt useVisitorHash hcs he with ⟨r, hr, hrewrites⟩ | ⟨herror, hzero⟩
  · have hadded : Added opt cs r (addConstraintInternal opt useVisitorHash (totalWeight cs + r.weight + 1) cs r) :=
      addConstraintInternal_spec _ cs r hcs hrewrites.typed (Nat.lt_succ_self _)
    have hsound : ∀ {div v}, AllTrue opt div v cs → e.Sound opt div v → r.Sound opt div v := fun hall hs =>
      (hrewrites.value _ _ hall.holds hs).1
    have hholds : ∀ {div v}, AllTrue opt div v cs → e.Sound opt div v → (r.Holds v ↔ e.Holds v) := fun hall hs =>
      hrewrites.holds_iff hall.holds hs
    simp only [hr, bind, Except.bind]
    generalize addConstraintInternal _ _ _ cs r = result at hadded ⊢
    cases hadded with
    | invalid h => exact .invalid fun div v hall hs hv => h div v hall (hsound hall hs) ((hholds hall hs).mpr hv)
    | divides h => exact .divides fun v hall hs hv => h v hall (hsound hall hs) ((hholds hall hs).mpr hv)
    | ok cs' h =>
      refine .ok cs' h.typed (fun div v hall hs hv => ?_) h.refuted fun div v hall hs hv => ?_
      · exact h.keeps div v hall (hsound hall hs) ((hholds hall hs).mpr hv)
      · exact h.refutes div v (hsound hall hs) fun hr => hv ((hholds hall hs).mp hr)
  · simp only [herror, bind, Except.bind]
    exact .divides fun v hall hs _ => hzero v hall.holds hs

/-! ### Runs -/

/-- `cs` are the constraints after calls of `addConstraint` with the boolean expressions `es`. -/
inductive Built (opt useVisitorHash : Bool) : List Expr → List Expr → Prop
  | nil : Built opt useVisitorHash [] []
  | add {es cs cs' : List Expr} {e : Expr} (h : Built opt useVisitorHash es cs) (he : e.Typed 1)
      (hadd : addConstraint opt useVisitorHash cs e = .ok cs') : Built opt useVisitorHash (e :: es) cs'

variable {es : List Expr}

theorem Built.typed (h : Built opt useVisitorHash es cs) : ∀ c ∈ cs, c.Typed 1 := by
  induction h with
  | nil => exact nofun
  | add _ he hadd ih =>
    have hkept := hadd ▸ addConstraint_spec ih he
    cases hkept with
    | ok _ typed _ _ _ => exact typed

/-- The constraints stand for the expressions that were added. -/
theorem Built.decides (h : Built opt useVisitorHash es cs) (hs : ∀ x ∈ es, x.Sound opt div v) :
    ((∀ x ∈ es, x.Holds v) ∧ AllTrue opt div v cs) ∨ ((¬∀ x ∈ es, x.Holds v) ∧ Refutes opt div v cs) := by
  induction h with
  | nil => exact .inl ⟨nofun, nofun⟩
  | @add es cs cs' e h he hadd ih =>
    have hkept := hadd ▸ addConstraint_spec h.typed he
    obtain ⟨hse, hses⟩ := List.forall_mem_cons.mp hs
    cases hkept with
    | ok _ _ keeps refuted refutes =>
      simp only [List.forall_mem_cons]
      rcases ih hses with ⟨hes, hall⟩ | ⟨hes, href⟩
      · by_cases hv : e.Holds v
        · exact .inl ⟨⟨hv, hes⟩, keeps div v hall hse hv⟩
        · exact .inr ⟨fun h => hv h.1, refutes div v hall hse hv⟩
      · exact .inr ⟨fun h => hes h.2, refuted div v href⟩

theorem Built.holds_iff (h : Built opt useVisitorHash es cs) (hs : ∀ x ∈ es, x.Sound opt div v) :
    (∀ c ∈ cs, c.Holds v) ↔ ∀ x ∈ es, x.Holds v := by
  rcases h.decides hs with ⟨hes, hall⟩ | ⟨hes, c, hc, -, hfalse⟩
  · exact ⟨fun _ => hes, fun _ => hall.holds⟩
  · exact ⟨fun h => absurd (h c hc) hfalse, fun h => absurd h hes⟩

theorem Built.allTrue (h : Built opt useVisitorHash es cs) (hs : ∀ x ∈ es, x.Sound opt div v)
    (hcs : ∀ c ∈ cs, c.Holds v) : AllTrue opt div v cs := by
  rcases h.decides hs with ⟨-, hall⟩ | ⟨-, c, hc, -, hfalse⟩
  · exact hall
  · exact absurd (hcs c hc) hfalse

/-- What `addConstraint` and `simplifyExpr` do with the constraints `cs` that the calls with `es` have left. -/
structure PathCondition (opt useVisitorHash : Bool) (es cs : List Expr) (e : Expr) : Prop where
  conjunction : ∀ cs', addConstraint opt useVisitorHash cs e = .ok cs' →
    ∀ v, (∀ x ∈ e :: es, x.Sound opt false v) → ((∀ c ∈ cs', c.Holds v) ↔ (∀ c ∈ cs, c.Holds v) ∧ e.Holds v)
  simplified : ∀ w (x : Expr), x.Typed w →
    (∃ r, simplifyExpr opt useVisitorHash cs x = .ok r ∧ r.Typed w ∧
      ∀ v, (∀ c ∈ cs, c.Holds v) → x.Sound opt false v → r.value v = x.value v) ∨
    (simplifyExpr opt useVisitorHash cs x = .error .divideByZero ∧ ∀ v, (∀ c ∈ cs, c.Holds v) → ¬x.Sound opt true v)
  ends : (∃ cs', addConstraint opt useVisitorHash cs e = .ok cs') ∨
    addConstraint opt useVisitorHash cs e = .error .invalidConstraint ∨
    addConstraint opt useVisitorHash cs e = .error .divideByZero
  satisfiable : ∀ v, (∀ x ∈ e :: es, x.Sound opt false v) → (∀ c ∈ cs, c.Holds v) → e.Holds v →
    addConstraint opt useVisitorHash cs e ≠ .error .invalidConstraint
  succeeds : ∀ v, (∀ x ∈ e :: es, x.Sound opt true v) → (∀ c ∈ cs, c.Holds v) → e.Holds v →
    ∃ cs', addConstraint opt useVisitorHash cs e = .ok cs'

/-- `addConstraint` keeps the path condition. -/
theorem addConstraint_pathCondition (h : Built opt useVisitorHash es cs) (he : e.Typed 1) :
    PathCondition opt useVisitorHash es cs e := by
  have hkept : Kept opt cs e (addConstraint opt useVisitorHash cs e) := addConstraint_spec h.typed he
  refine ⟨fun cs' hadd v hs => ?_, fun w x hx => ?_, ?_, fun v hs hcs hv herror => ?_, fun v hs hcs hv => ?_⟩
  · rw [(h.add he hadd).holds_iff hs, List.forall_mem_cons, h.holds_iff (List.forall_mem_cons.mp hs).2, and_comm]
  · rcases simplifyExpr_spec opt useVisitorHash h.typed hx with ⟨r, hr, hrewrites⟩ | herror
    · exact .inl ⟨r, hr, hrewrites.typed, fun v hv hs => hrewrites.value_eq hv hs⟩
    · exact .inr herror
  · generalize addConstraint opt useVisitorHash cs e = result at hkept ⊢
    cases hkept with
    | ok cs' => exact .inl ⟨cs', rfl⟩
    | invalid => exact .inr (.inl rfl)
    | divides => exact .inr (.inr rfl)
  · obtain ⟨hse, hses⟩ := List.forall_mem_cons.mp hs
    rw [herror] at hkept
    cases hkept with
    | invalid h' => exact h' false v (h.allTrue hses hcs) hse hv
  · obtain ⟨hse, hses⟩ := List.forall_mem_cons.mp hs
    have hall := h.allTrue hses hcs
    generalize addConstraint opt useVisitorHash cs e = result at hkept ⊢
    cases hkept with
    | ok cs' => exact ⟨cs', rfl⟩
    | invalid h' => exact absurd hv (h' true v hall hse)
    | divides h' => exact absurd hv (h' v hall hse)

/-- The byte at an index of a symbolic array of four bytes. -/
def byteAt (index : BitVec 32) : Expr := .read (.root ⟨0, 4, 32, 8, []⟩) (.constant 32 index)

/-- A byte below 10 is then 5: the first constraint is rewritten to true and is gone. -/
theorem addConstraint_pathCondition_byte :
    addConstraint false true [.cmp .ult (byteAt 2) (.constant 8 10)] (.cmp .eq (.constant 8 5) (byteAt 2)) =
        .ok [.cmp .eq (.constant 8 5) (byteAt 2)] ∧
      PathCondition false true [.cmp .ult (byteAt 2) (.constant 8 10)] [.cmp .ult (byteAt 2) (.constant 8 10)]
        (.cmp .eq (.constant 8 5) (byteAt 2)) := by
  have hbyte : (byteAt 2).Typed 8 := ⟨⟨⟨by decide, by decide, fun h => nomatch h⟩, Nat.succ_pos 31, rfl⟩, rfl⟩
  have hfirst : (Expr.cmp .ult (byteAt 2) (.constant 8 10)).Typed 1 := hbyte.cmp (.constant (Nat.succ_pos 7) 10)
  have hsecond : (Expr.cmp .eq (.constant 8 5) (byteAt 2)).Typed 1 := Expr.Typed.cmp (.constant (Nat.succ_pos 7) 5) hbyte
  exact ⟨by decide +kernel, addConstraint_pathCondition (.add .nil hfirst (by decide +kernel)) hsecond⟩

end ConstraintManager

end CapTaint.Klee
