import CapTaint.Theorems.Create
import CapTaint.Klee.Constraints

/-! # Visitors rewrite

A visitor that only replaces expressions by constants of the same value rewrites every expression it visits, with or
without its table of results, and its recursion ends: whatever it changes weighs less afterwards. -/

namespace CapTaint.Klee

variable {opt : Bool} {V : Valuation → Prop} {w : Nat} {e n r : Expr}

/-! ### Kids -/

theorem Expr.kids_wellTyped (he : e.WellTyped) : ∀ kid ∈ e.kids, kid.WellTyped := by
  cases e with
  | constant _ _ => exact nofun
  | notOptimized src | not src => exact List.forall_mem_singleton.mpr he
  | read ul index => exact List.forall_mem_singleton.mpr he.2.1
  | extract src _ _ | zext src _ | sext src _ => exact List.forall_mem_singleton.mpr he.1
  | select c t f => simpa [Expr.kids] using ⟨he.1, he.2.1, he.2.2.1⟩
  | concat l r => simpa [Expr.kids] using ⟨he.1, he.2⟩
  | arith _ l r | cmp _ l r => simpa [Expr.kids] using ⟨he.1, he.2.1⟩

theorem Expr.kids_weight (e : Expr) : ∀ kid ∈ e.kids, kid.weight < e.weight := by
  cases e with
  | constant _ _ => exact fun _ h => absurd h List.not_mem_nil
  | arith kind l r =>
    have := ArithKind.cost_pos kind
    simp only [Expr.kids, List.forall_mem_cons, Expr.weight]
    exact ⟨by omega, by omega, fun _ h => absurd h List.not_mem_nil⟩
  | cmp kind l r =>
    have := CmpKind.cost_pos kind
    simp only [Expr.kids, List.forall_mem_cons, Expr.weight]
    exact ⟨by omega, by omega, fun _ h => absurd h List.not_mem_nil⟩
  | select c t f =>
    simp only [Expr.kids, List.forall_mem_cons, Expr.weight]
    exact ⟨by omega, by omega, by omega, fun _ h => absurd h List.not_mem_nil⟩
  | concat l r =>
    simp only [Expr.kids, List.forall_mem_cons, Expr.weight]
    exact ⟨by omega, by omega, fun _ h => absurd h List.not_mem_nil⟩
  | _ =>
    simp only [Expr.kids, List.forall_mem_cons, Expr.weight]
    exact ⟨by omega, fun _ h => absurd h List.not_mem_nil⟩

theorem Expr.kids_sound {div : Bool} {v : Valuation} (hs : e.Sound opt div v) : ∀ kid ∈ e.kids, kid.Sound opt div v := by
  cases e with
  | constant _ _ => exact nofun
  | notOptimized src | not src | extract src _ _ | zext src _ | sext src _ => exact List.forall_mem_singleton.mpr hs
  | read ul index => exact List.forall_mem_singleton.mpr hs.2.1
  | select c t f => simpa [Expr.kids] using ⟨hs.1, hs.2.1, hs.2.2⟩
  | concat l r | cmp _ l r => simpa [Expr.kids] using ⟨hs.1, hs.2⟩
  | arith _ l r => simpa [Expr.kids] using ⟨hs.1, hs.2.1⟩

/-! ### Rebuilding -/

/-- What became of a kid. -/
def Kid (opt : Bool) (V : Valuation → Prop) (kid kid' : Expr) : Prop :=
  Rewrites opt V kid.getWidth kid kid' ∧ (kid' = kid ∨ kid'.weight < kid.weight)

theorem createArith_cases {kind : ArithKind} {l r : Expr} (hl : l.Typed w) (hr : r.Typed w) :
    Produces opt V w (.arith kind l r) (createArith opt kind l r) ∨
      (createArith opt kind l r = .error .divideByZero ∧ divides kind = true ∧ r = .constant w 0) := by
  by_cases hdivisor : Divisor kind w l r
  · exact .inl (createArith_spec kind hl hr hdivisor)
  · simp only [Divisor, not_forall, not_not] at hdivisor
    obtain ⟨hdiv, hconst, rfl⟩ := hdivisor
    refine .inr ⟨?_, hdiv, rfl⟩
    rcases hl.constant_or with ⟨c, rfl⟩ | hsymbolic
    · cases kind with
      | udiv | sdiv | urem | srem =>
        simp [createArith, UDivExpr.create, SDivExpr.create, URemExpr.create, SRemExpr.create, createQuotient,
          createRemainder, bcreate, Expr.getWidth, foldArith, divides]
      | _ => cases hdiv
    · rw [hconst] at hsymbolic
      cases hsymbolic

theorem createCmp_spec (kind : CmpKind) {k : Nat} {l r : Expr} (hl : l.Typed k) (hr : r.Typed k) :
    Produces opt V 1 (.cmp kind l r) (createCmp opt l r kind) := by
  cases kind with
  | eq => exact createComparison_spec .eq hl hr
  | ne => exact createComparison_spec .ne hl hr
  | ult => exact createComparison_spec .ult hl hr
  | ule => exact createComparison_spec .ule hl hr
  | slt => exact createComparison_spec .slt hl hr
  | sle => exact createComparison_spec .sle hl hr

section
variable {kid kid₁ kid₂ : Expr} {kids kids' : List Expr}

theorem kids_weight_le (h : List.Forall₂ (Kid opt V) kids kids') :
    (kids'.map Expr.weight).sum ≤ (kids.map Expr.weight).sum := by
  induction h with
  | nil => exact le_rfl
  | cons hkid _ ih => exact Nat.add_le_add hkid.1.weight ih

theorem kids_weight_lt (h : List.Forall₂ (Kid opt V) kids kids') (hne : kids' ≠ kids) :
    (kids'.map Expr.weight).sum < (kids.map Expr.weight).sum := by
  induction h with
  | nil => exact absurd rfl hne
  | cons hkid hrest ih =>
    rcases hkid.2 with rfl | hlt
    · exact Nat.add_lt_add_left (ih fun h => hne (h ▸ rfl)) _
    · exact Nat.add_lt_add_of_lt_of_le hlt (kids_weight_le hrest)

theorem kids_one (h : List.Forall₂ (Kid opt V) [kid] kids) :
    ∃ kid', kids = [kid'] ∧ Rewrites opt V kid.getWidth kid kid' ∧ (kids ≠ [kid] → kid'.weight < kid.weight) := by
  have hlt := kids_weight_lt h
  obtain ⟨kid', _, hkid, hnil, rfl⟩ := List.forall₂_cons_left_iff.mp h
  cases hnil
  exact ⟨kid', rfl, hkid.1, by simpa using hlt⟩

theorem kids_two (h : List.Forall₂ (Kid opt V) [kid₁, kid₂] kids) :
    ∃ kid₁' kid₂', kids = [kid₁', kid₂'] ∧ Rewrites opt V kid₁.getWidth kid₁ kid₁' ∧
      Rewrites opt V kid₂.getWidth kid₂ kid₂' ∧
      (kids ≠ [kid₁, kid₂] → kid₁'.weight + kid₂'.weight < kid₁.weight + kid₂.weight) := by
  have hlt := kids_weight_lt h
  obtain ⟨kid₁', _, h₁, hrest, rfl⟩ := List.forall₂_cons_left_iff.mp h
  obtain ⟨kid₂', _, h₂, hnil, rfl⟩ := List.forall₂_cons_left_iff.mp hrest
  cases hnil
  refine ⟨kid₁', kid₂', rfl, h₁.1, h₂.1, fun hne => ?_⟩
  simpa using hlt hne

end

theorem Rewrites.cast (h : Rewrites opt V e.getWidth e n) (hw : e.getWidth = w) : Rewrites opt V w e n := hw ▸ h

/-- The expression is rebuilt, lighter if a kid has changed. -/
def Rebuilt (opt : Bool) (V : Valuation → Prop) (w : Nat) (e : Expr) (kids : List Expr) (result : Created) : Prop :=
  ∃ r, result = .ok r ∧ Rewrites opt V w e r ∧ (kids ≠ e.kids → r.weight < e.weight)

theorem Rebuilt.of_produces {kids : List Expr} {result : Created} (h : Rewrites opt V w e n)
    (hlt : kids ≠ e.kids → n.weight < e.weight) (hproduces : Produces opt V w n result) :
    Rebuilt opt V w e kids result := by
  obtain ⟨r, hr, hrewrites⟩ := hproduces
  exact ⟨r, hr, h.trans hrewrites, fun hne => hrewrites.weight.trans_lt (hlt hne)⟩

/-- Only a division by a kid that is zero is not rebuilt. -/
theorem rebuild_cases (he : e.Typed w) (hsymbolic : e.isConstant = false) {kids : List Expr}
    (hkids : List.Forall₂ (Kid opt V) e.kids kids) :
    Rebuilt opt V w e kids (e.rebuild opt kids) ∨
      (e.rebuild opt kids = .error .divideByZero ∧
        ∃ kind l r l', e = .arith kind l r ∧ divides kind = true ∧ kids = [l', .constant w 0]) := by
  cases e with
  | constant _ _ => cases hsymbolic
  | notOptimized src =>
    obtain ⟨src', rfl, hsrc, hlt⟩ := kids_one hkids
    exact .inl (.of_produces (hsrc.cast he.2).notOptimized (fun hne => Nat.add_lt_add_right (hlt hne) _)
      (.ok (.refl (Expr.Typed.notOptimized.mpr (hsrc.cast he.2).typed))))
  | not src =>
    obtain ⟨src', rfl, hsrc, hlt⟩ := kids_one hkids
    exact .inl (.of_produces (hsrc.cast he.2).not (fun hne => Nat.add_lt_add_right (hlt hne) _)
      (NotExpr.create_spec (hsrc.cast he.2).typed))
  | read ul index =>
    obtain ⟨index', rfl, hindex, hlt⟩ := kids_one hkids
    obtain rfl : ul.array.range = w := he.2
    refine .inl (.of_produces (.read he.1.1 (hindex.cast he.1.2.2)) (fun hne => ?_)
      (ReadExpr.create_spec he.1.1 (hindex.cast he.1.2.2).typed))
    have := hlt hne
    simp only [Expr.weight]
    omega
  | extract src off k =>
    obtain ⟨src', rfl, hsrc, hlt⟩ := kids_one hkids
    obtain rfl : k = w := he.2
    refine .inl (.of_produces (hsrc.extract he.1.2.1 he.1.2.2) (fun hne => ?_)
      (ExtractExpr.create_spec hsrc.typed he.1.2.1 he.1.2.2))
    have := hlt hne
    simp only [Expr.weight]
    omega
  | zext src k =>
    obtain ⟨src', rfl, hsrc, hlt⟩ := kids_one hkids
    obtain rfl : k = w := he.2
    exact .inl (.of_produces (hsrc.zext he.1.2) (fun hne => Nat.add_lt_add_right (hlt hne) _)
      (ZExtExpr.create_spec hsrc.typed he.1.2))
  | sext src k =>
    obtain ⟨src', rfl, hsrc, hlt⟩ := kids_one hkids
    obtain rfl : k = w := he.2
    exact .inl (.of_produces (hsrc.sext he.1.2) (fun hne => Nat.add_lt_add_right (hlt hne) _)
      (SExtExpr.create_spec hsrc.typed he.1.2))
  | select c t f =>
    have hlt := kids_weight_lt hkids
    obtain ⟨c', _, hc, hrest, rfl⟩ := List.forall₂_cons_left_iff.mp hkids
    obtain ⟨t', _, ht, hrest', rfl⟩ := List.forall₂_cons_left_iff.mp hrest
    obtain ⟨f', _, hf, hnil, rfl⟩ := List.forall₂_cons_left_iff.mp hrest'
    cases hnil
    obtain ⟨hct, htt, hft⟩ := Expr.Typed.select.mp he
    have hselect := Rewrites.select (hc.1.cast hct.2) (ht.1.cast htt.2) (hf.1.cast hft.2)
    refine .inl (.of_produces hselect (fun hne => ?_) (SelectExpr.create_spec hselect.typed))
    have := hlt hne
    simp only [Expr.kids, List.map_cons, List.map_nil, List.sum_cons, List.sum_nil] at this
    simp only [Expr.weight]
    omega
  | concat l r =>
    obtain ⟨l', r', rfl, hl, hr, hlt⟩ := kids_two hkids
    obtain rfl : l.getWidth + r.getWidth = w := he.2
    exact .inl (.of_produces (hl.concat hr) (fun hne => Nat.add_lt_add_right (hlt hne) _)
      (ConcatExpr.create_spec hl.typed hr.typed))
  | arith kind l r =>
    obtain ⟨l', r', rfl, hl, hr, hlt⟩ := kids_two hkids
    obtain ⟨hlt', hrt⟩ := Expr.Typed.arith.mp he
    have harith : Rewrites opt V w (.arith kind l r) (.arith kind l' r') := (hl.cast hlt'.2).arith (hr.cast hrt.2)
    rcases createArith_cases (hl.cast hlt'.2).typed (hr.cast hrt.2).typed with hproduces | ⟨herror, hdiv, rfl⟩
    · exact .inl (.of_produces harith (fun hne => Nat.add_lt_add_right (hlt hne) _) hproduces)
    · exact .inr ⟨herror, kind, l, r, l', rfl, hdiv, rfl⟩
  | cmp kind l r =>
    obtain ⟨l', r', rfl, hl, hr, hlt⟩ := kids_two hkids
    obtain ⟨rfl, hlt', hrt⟩ := he.cmp_inv
    exact .inl (.of_produces (hl.cmp (hr.cast hrt.2)) (fun hne => Nat.add_lt_add_right (hlt hne) _)
      (createCmp_spec kind hl.typed (hr.cast hrt.2).typed))

/-- The expression is rebuilt, or it divides by zero under all valuations. -/
theorem rebuild_spec (he : e.Typed w) (hsymbolic : e.isConstant = false) {kids : List Expr}
    (hkids : List.Forall₂ (Kid opt V) e.kids kids) :
    Rebuilt opt V w e kids (e.rebuild opt kids) ∨
      (e.rebuild opt kids = .error .divideByZero ∧ ∀ v, V v → ¬e.Sound opt true v) := by
  rcases rebuild_cases he hsymbolic hkids with hrebuilt | ⟨herror, kind, l, r, l', rfl, hdiv, rfl⟩
  · exact .inl hrebuilt
  · obtain ⟨_, r', hkids', -, hr, -⟩ := kids_two hkids
    obtain rfl : .constant w 0 = r' := (List.cons.inj (List.cons.inj hkids').2).1
    refine .inr ⟨herror, fun v hv hs => hs.2.2 rfl hdiv ?_⟩
    rw [← hr.value_eq hv hs.2.1]
    exact BitVec.toNat_ofNat _ _

/-! ### Visiting -/

/-- What a visitor may do to an expression. A changed expression weighs less, and its soundness implies `T`. -/
structure Replaced (opt : Bool) (V : Valuation → Prop) (T : Bool → Valuation → Prop) (w : Nat) (e r : Expr) : Prop where
  rewrites : Rewrites opt V w e r
  changed : r ≠ e → r.weight < e.weight ∧ ∀ div v, e.Sound opt div v → T div v

/-- The visitor replaces expressions by constants that have their value under `V`. -/
def Replacement (opt : Bool) (V : Valuation → Prop) (T : Bool → Valuation → Prop) (hook : Expr → Option Expr) : Prop :=
  ∀ e r w, hook e = some r → e.Typed w →
    Rewrites opt V w e r ∧ r.isConstant = true ∧ ∀ div v, e.Sound opt div v → T div v

/-- The table holds results, where `R` says what the result for an expression is. -/
def Visited.Ok (R : Nat → Expr → Expr → Prop) (visited : Visited) : Prop :=
  ∀ entry ∈ visited, ∀ w, entry.1.Typed w → R w entry.1 entry.2

/-- A visit ends with a result, or it divides by zero, which implies `Z`. -/
def VisitEnds (R : Nat → Expr → Expr → Prop) (Z : Prop) (w : Nat) (e : Expr) (result : Except Abort (Expr × Visited)) : Prop :=
  (∃ r visited, result = .ok (r, visited) ∧ visited.Ok R ∧ R w e r) ∨ (result = .error .divideByZero ∧ Z)

/-- A visit ends with a result, or the expression divides by zero under all valuations. -/
abbrev Visits (opt : Bool) (V : Valuation → Prop) (R : Nat → Expr → Expr → Prop) (w : Nat) (e : Expr)
    (result : Except Abort (Expr × Visited)) : Prop :=
  VisitEnds R (∀ v, V v → ¬e.Sound opt true v) w e result

section
variable {T : Bool → Valuation → Prop} {R : Nat → Expr → Expr → Prop} {visited : Visited}

theorem Expr.weight_of_isConstant (h : e.isConstant = true) : e.weight = 0 := by
  cases e with
  | constant _ _ => rfl
  | _ => cases h

theorem Replaced.refl (he : e.Typed w) : Replaced opt V T w e e := ⟨.refl he, fun h => absurd rfl h⟩

theorem Replaced.trans (h : Replaced opt V T w e n) (h' : Replaced opt V T w n r) (hne : n ≠ e) :
    Replaced opt V T w e r where
  rewrites := h.rewrites.trans h'.rewrites
  changed _ := ⟨h'.rewrites.weight.trans_lt (h.changed hne).1, (h.changed hne).2⟩

theorem Replacement.replaced {hook : Expr → Option Expr} (h : Replacement opt V T hook) (hr : hook e = some r)
    (he : e.Typed w) (hsymbolic : e.isConstant = false) : Replaced opt V T w e r := by
  obtain ⟨hrewrites, hconst, hT⟩ := h e r w hr he
  refine ⟨hrewrites, fun _ => ⟨?_, hT⟩⟩
  rw [Expr.weight_of_isConstant hconst]
  exact e.weight_pos hsymbolic

theorem visitKids_spec {visit : Expr → Visited → Except Abort (Expr × Visited)} (kids : List Expr)
    (hvisit : ∀ kid ∈ kids, ∀ visited : Visited, visited.Ok R →
      Visits opt V R kid.getWidth kid (visit kid visited)) : ∀ visited : Visited, visited.Ok R →
    (∃ kids' visited', ExprVisitor.visitKids visit kids visited = .ok (kids', visited') ∧ visited'.Ok R ∧
      List.Forall₂ (fun kid kid' => R kid.getWidth kid kid') kids kids') ∨
    (ExprVisitor.visitKids visit kids visited = .error .divideByZero ∧
      ∀ v, V v → ∃ kid ∈ kids, ¬kid.Sound opt true v) := by
  induction kids with
  | nil => exact fun visited hok => .inl ⟨[], visited, rfl, hok, .nil⟩
  | cons kid kids ih =>
    intro visited hok
    unfold ExprVisitor.visitKids
    rcases hvisit kid List.mem_cons_self visited hok with ⟨kid', visited', hkid, hok', hreplaced⟩ | ⟨herror, hzero⟩
    · rw [hkid]
      rcases ih (fun k hk => hvisit k (List.mem_cons_of_mem _ hk)) visited' hok' with
        ⟨kids', visited'', hkids, hok'', hall⟩ | ⟨herror, hzero⟩
      · refine .inl ⟨kid' :: kids', visited'', ?_, hok'', .cons hreplaced hall⟩
        simp [bind, Except.bind, hkids, pure, Except.pure]
      · refine .inr ⟨by simp [bind, Except.bind, herror], fun v hv => ?_⟩
        obtain ⟨k, hk, hsound⟩ := hzero v hv
        exact ⟨k, List.mem_cons_of_mem _ hk, hsound⟩
    · rw [herror]
      exact .inr ⟨rfl, fun v hv => ⟨kid, List.mem_cons_self, hzero v hv⟩⟩

theorem kids_touched {kids kids' : List Expr}
    (h : List.Forall₂ (fun kid kid' => Replaced opt V T kid.getWidth kid kid') kids kids') (hne : kids' ≠ kids) {div : Bool}
    {v : Valuation} (hs : ∀ kid ∈ kids, kid.Sound opt div v) : T div v := by
  induction h with
  | nil => exact absurd rfl hne
  | @cons kid kid' kids kids' hkid _ ih =>
    by_cases hsame : kid' = kid
    · exact ih (fun h => hne (by rw [h, hsame])) fun k hk => hs k (List.mem_cons_of_mem _ hk)
    · exact (hkid.changed hsame).2 div v (hs kid List.mem_cons_self)

/-- The end of a visit: the function for after the kids. -/
theorem visitPost_spec {hook : Expr → Option Expr} (hhook : Replacement opt V T hook) (he : Replaced opt V T w e n)
    (hok : visited.Ok (Replaced opt V T)) :
    Visits opt V (Replaced opt V T) w e (if n.isConstant then .ok (n, visited) else .ok ((hook n).getD n, visited)) := by
  cases hconst : n.isConstant with
  | true => exact .inl ⟨n, visited, rfl, hok, he⟩
  | false =>
    cases hn : hook n with
    | none => exact .inl ⟨n, visited, rfl, hok, he⟩
    | some r =>
      have hr := hhook.replaced hn he.rewrites.typed hconst
      refine .inl ⟨r, visited, rfl, hok, ?_⟩
      by_cases hsame : n = e
      · exact hsame ▸ hr
      · exact he.trans hr hsame

theorem visitActual_spec {visitor : ExprVisitor} {visit : Expr → Visited → Except Abort (Expr × Visited)}
    (hexpr : Replacement opt V T visitor.visitExpr) (hpost : Replacement opt V T visitor.visitExprPost) (he : e.Typed w)
    (hvisit : ∀ e' w', e'.Typed w' → e'.weight < e.weight → ∀ visited : Visited, visited.Ok (Replaced opt V T) →
      Visits opt V (Replaced opt V T) w' e' (visit e' visited))
    (hok : visited.Ok (Replaced opt V T)) : Visits opt V (Replaced opt V T) w e (visitor.visitActual opt visit e visited) := by
  unfold ExprVisitor.visitActual
  cases hconst : e.isConstant with
  | true => exact .inl ⟨e, visited, rfl, hok, .refl he⟩
  | false =>
    rw [if_neg Bool.false_ne_true]
    cases hhook : visitor.visitExpr e with
    | some r => exact .inl ⟨r, visited, rfl, hok, hexpr.replaced hhook he hconst⟩
    | none =>
      rcases visitKids_spec e.kids (fun kid hkid => hvisit kid kid.getWidth (.self (e.kids_wellTyped he.1 kid hkid))
        (e.kids_weight kid hkid)) visited hok with ⟨kids, visited', hkids, hok', hall⟩ | ⟨herror, hzero⟩
      · simp only [hkids, bind, Except.bind]
        by_cases hsame : kids = e.kids
        · simp only [if_pos hsame, pure, Except.pure]
          exact visitPost_spec hpost (.refl he) hok'
        · have hkid : List.Forall₂ (Kid opt V) e.kids kids :=
            hall.imp fun kid kid' h => ⟨h.rewrites, (em (kid' = kid)).imp_right fun hne => (h.changed hne).1⟩
          have htouched : ∀ div v, e.Sound opt div v → T div v := fun div v hs =>
            kids_touched hall hsame (Expr.kids_sound hs)
          simp only [if_neg hsame]
          rcases rebuild_spec he hconst hkid with ⟨n, hn, hrewrites, hlt⟩ | ⟨herror, hzero⟩
          · replace hlt := hlt hsame
            have hne : n ≠ e := fun h => absurd hlt (by rw [h]; exact lt_irrefl _)
            have hn' : Replaced opt V T w e n := ⟨hrewrites, fun _ => ⟨hlt, htouched⟩⟩
            rw [hn]
            cases visitor.recursive with
            | false => exact visitPost_spec hpost hn' hok'
            | true =>
              rcases hvisit n w hrewrites.typed hlt visited' hok' with ⟨r, visited'', hr, hok'', hreplaced⟩ | ⟨herror, hzero⟩
              · simp only [if_true, hr]
                exact visitPost_spec hpost (hn'.trans hreplaced hne) hok''
              · simp only [if_true, herror]
                exact .inr ⟨rfl, fun v hv hs => hzero v hv (hrewrites.value true v hv hs).1⟩
          · rw [herror]
            exact .inr ⟨rfl, hzero⟩
      · simp only [herror, bind, Except.bind]
        refine .inr ⟨rfl, fun v hv hs => ?_⟩
        obtain ⟨kid, hkid, hsound⟩ := hzero v hv
        exact hsound (Expr.kids_sound hs kid hkid)

/-- With or without the table. -/
theorem remember_spec {actual : Except Abort (Expr × Visited)} (useVisitorHash : Bool) (he : e.Typed w)
    (hok : visited.Ok R) (hactual : Visits opt V R w e actual) :
    Visits opt V R w e (ExprVisitor.remember useVisitorHash e visited actual) := by
  unfold ExprVisitor.remember
  split
  case isTrue => exact hactual
  case isFalse =>
    split
    case h_1 res hlookup =>
      obtain ⟨l₁, l₂, hvisited, -⟩ := List.lookup_eq_some_iff.mp hlookup
      exact .inl ⟨res, visited, rfl, hok, hok (e, res) (by rw [hvisited]; simp) w he⟩
    case h_2 =>
      rcases hactual with ⟨r, visited', hr, hok', hresult⟩ | ⟨herror, hzero⟩
      · rw [hr]
        refine .inl ?_
        simp only [bind, Except.bind]
        split
        case isTrue => exact ⟨r, visited', rfl, hok', hresult⟩
        case isFalse =>
          refine ⟨r, (e, r) :: visited', rfl, fun entry hentry k hk => ?_, hresult⟩
          rcases List.mem_cons.mp hentry with rfl | hold
          · obtain rfl : w = k := he.2.symm.trans hk.2
            exact hresult
          · exact hok' entry hold k hk
      · rw [herror]
        exact .inr ⟨rfl, hzero⟩

/-- The recursion ends: kids and changed expressions weigh less. -/
theorem visit_spec {visitor : ExprVisitor} (useVisitorHash : Bool) (hexpr : Replacement opt V T visitor.visitExpr)
    (hpost : Replacement opt V T visitor.visitExprPost) : ∀ (fuel : Nat) (e : Expr) (w : Nat), e.Typed w →
    e.weight < fuel → ∀ visited : Visited, visited.Ok (Replaced opt V T) →
      Visits opt V (Replaced opt V T) w e (visitor.visit opt useVisitorHash fuel e visited) := by
  intro fuel
  induction fuel with
  | zero => exact fun _ _ _ hfuel => absurd hfuel (Nat.not_lt_zero _)
  | succ fuel ih =>
    intro e w he hfuel visited hok
    have hactual := visitActual_spec hexpr hpost he (fun e' w' he' hlt => ih e' w' he' (by omega)) hok
    exact remember_spec useVisitorHash he hok hactual

end

end CapTaint.Klee
