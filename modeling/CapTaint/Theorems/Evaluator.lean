import CapTaint.Lib.OptionLoop
import CapTaint.Theorems.Visitor
import CapTaint.Klee.Evaluator
import CapTaint.Klee.Solver

/-! # Evaluation under an assignment

What the evaluator makes of an expression has the value of the expression under the assignment. It is a constant if no
divisor is zero there and nothing is kept from being optimized. -/

namespace CapTaint.Klee

variable {opt : Bool} {v : Valuation} {w : Nat} {e r : Expr}

/-! ### Expressions that evaluate to constants -/

mutual
/-- Nothing is kept from being optimized. -/
def Expr.Plain : Expr → Prop
  | .constant _ _ => True
  | .notOptimized _ => False
  | .read updates index => updates.Plain ∧ index.Plain
  | .select cond trueExpr falseExpr => cond.Plain ∧ trueExpr.Plain ∧ falseExpr.Plain
  | .concat left right => left.Plain ∧ right.Plain
  | .extract expr _ _ => expr.Plain
  | .zext src _ => src.Plain
  | .sext src _ => src.Plain
  | .not expr => expr.Plain
  | .arith _ left right => left.Plain ∧ right.Plain
  | .cmp _ left right => left.Plain ∧ right.Plain

def UpdateList.Plain : UpdateList → Prop
  | .root _ => True
  | .extend next index value => next.Plain ∧ index.Plain ∧ value.Plain
end

theorem Expr.kids_plain (h : e.Plain) : ∀ kid ∈ e.kids, kid.Plain := by
  cases e with
  | constant _ _ => exact nofun
  | notOptimized src => exact absurd h id
  | not src | extract src _ _ | zext src _ | sext src _ => exact List.forall_mem_singleton.mpr h
  | read ul index => exact List.forall_mem_singleton.mpr h.2
  | select c t f => simpa [Expr.kids] using ⟨h.1, h.2.1, h.2.2⟩
  | concat l r | cmp _ l r | arith _ l r => simpa [Expr.kids] using ⟨h.1, h.2⟩

/-! ### Constant kids -/

theorem Expr.exists_constant (h : e.isConstant = true) : ∃ (k : Nat) (c : BitVec k), e = .constant k c := by
  cases e with
  | constant k c => exact ⟨k, c, rfl⟩
  | _ => cases h

section
variable {k k' : Nat} {c : BitVec k} {c' : BitVec k'}

theorem createArith_constants (kind : ArithKind) : createArith opt kind (.constant k c) (.constant k' c') =
    if k ≠ k' then .error .assertion else foldArith kind c c' := by
  cases kind <;> rfl

theorem createArith_isConstant (kind : ArithKind) (h : createArith opt kind (.constant k c) (.constant k' c') = .ok r) :
    r.isConstant = true := by
  rw [createArith_constants] at h
  unfold foldArith at h
  split at h
  case isTrue => cases h
  case isFalse =>
    split at h
    case isTrue => cases h
    case isFalse => exact Except.ok.inj h ▸ rfl

theorem createComparison_constants (kind : CmpKind) (hne : kind ≠ .ne) :
    createCmp opt (.constant k c) (.constant k' c') kind = if k ≠ k' then .error .assertion else foldCmp kind c c' := by
  cases kind with
  | ne => exact absurd rfl hne
  | _ => rfl

theorem createCmp_isConstant (kind : CmpKind) (h : createCmp opt (.constant k c) (.constant k' c') kind = .ok r) :
    r.isConstant = true := by
  by_cases hne : kind = .ne
  · subst hne
    obtain ⟨eq, heq, h⟩ := Result.bind_eq_ok.mp h
    have heq : (if k ≠ k' then .error .assertion else foldCmp .eq c c' : Created) = .ok eq := heq
    split at heq
    case isTrue => cases heq
    case isFalse =>
      obtain rfl := Except.ok.inj heq
      exact Except.ok.inj h ▸ rfl
  · rw [createComparison_constants kind hne] at h
    split at h
    case isTrue => cases h
    case isFalse => exact Except.ok.inj h ▸ rfl

theorem extract_isConstant {off width : Nat} (h : ExtractExpr.create (.constant k c) off width = .ok r) :
    r.isConstant = true := by
  have h : (if ¬(0 < width ∧ off + width ≤ k) then .error .assertion
    else if width = k then .ok (.constant k c)
    else .ok (.constant width ((c.sshiftRight off).setWidth width)) : Created) = .ok r := h
  split at h
  case isTrue => cases h
  case isFalse =>
    split at h
    case isTrue => exact Except.ok.inj h ▸ rfl
    case isFalse => exact Except.ok.inj h ▸ rfl

end

/-- Constants are folded. -/
theorem rebuild_isConstant {kids : List Expr} (hsrc : ∀ src, e ≠ .notOptimized src) (hread : ∀ ul index, e ≠ .read ul index)
    (hkids : ∀ kid ∈ kids, kid.isConstant = true) (h : e.rebuild opt kids = .ok r) : r.isConstant = true := by
  unfold Expr.rebuild at h
  split at h
  case h_1 src _ => exact absurd rfl (hsrc _)
  case h_2 ul index _ => exact absurd rfl (hread ul _)
  case h_3 c t f =>
    simp only [List.forall_mem_cons] at hkids
    obtain ⟨k, c, rfl⟩ := Expr.exists_constant hkids.1
    unfold SelectExpr.create at h
    split at h
    case isTrue => cases h
    case isFalse =>
      obtain rfl := Except.ok.inj h
      split
      case isTrue => exact hkids.2.1
      case isFalse => exact hkids.2.2.1
  case h_4 l r =>
    simp only [List.forall_mem_cons] at hkids
    obtain ⟨k, c, rfl⟩ := Expr.exists_constant hkids.1
    obtain ⟨k', c', rfl⟩ := Expr.exists_constant hkids.2.1
    exact Except.ok.inj h ▸ rfl
  case h_5 =>
    simp only [List.forall_mem_cons] at hkids
    obtain ⟨k, c, rfl⟩ := Expr.exists_constant hkids.1
    exact extract_isConstant h
  case h_6 width _ =>
    simp only [List.forall_mem_cons] at hkids
    obtain ⟨k, c, rfl⟩ := Expr.exists_constant hkids.1
    unfold ZExtExpr.create at h
    split at h
    case isTrue => exact Except.ok.inj h ▸ rfl
    case isFalse =>
      split at h
      case isTrue => exact extract_isConstant h
      case isFalse => exact Except.ok.inj h ▸ rfl
  case h_7 width _ =>
    simp only [List.forall_mem_cons] at hkids
    obtain ⟨k, c, rfl⟩ := Expr.exists_constant hkids.1
    unfold SExtExpr.create at h
    split at h
    case isTrue => exact Except.ok.inj h ▸ rfl
    case isFalse =>
      split at h
      case isTrue => exact extract_isConstant h
      case isFalse => exact Except.ok.inj h ▸ rfl
  case h_8 =>
    simp only [List.forall_mem_cons] at hkids
    obtain ⟨k, c, rfl⟩ := Expr.exists_constant hkids.1
    exact Except.ok.inj h ▸ rfl
  case h_9 kind _ _ _ _ =>
    simp only [List.forall_mem_cons] at hkids
    obtain ⟨k, c, rfl⟩ := Expr.exists_constant hkids.1
    obtain ⟨k', c', rfl⟩ := Expr.exists_constant hkids.2.1
    exact createArith_isConstant kind h
  case h_10 kind _ _ _ _ =>
    simp only [List.forall_mem_cons] at hkids
    obtain ⟨k, c, rfl⟩ := Expr.exists_constant hkids.1
    obtain ⟨k', c', rfl⟩ := Expr.exists_constant hkids.2.1
    exact createCmp_isConstant kind h
  case h_11 => cases h

/-! ### Evaluated expressions -/

/-- What an expression evaluates to at `v`. -/
structure Evaluated (opt : Bool) (v : Valuation) (w : Nat) (e r : Expr) : Prop where
  rewrites : Rewrites opt (· = v) w e r
  lighter : r = e ∨ r.weight < e.weight
  constant : e.Plain → e.Sound opt true v → r.isConstant = true

/-- A visit ends with what the expression evaluates to, unless a divisor is the constant zero. -/
abbrev VisitEvaluates (opt : Bool) (v : Valuation) (w : Nat) (e : Expr) (result : Except Abort (Expr × Visited)) : Prop :=
  Visits opt (fun _ => True) (Evaluated opt v) w e result

section
variable {ul : UpdateList} {visited : Visited} {visit : Expr → Visited → Except Abort (Expr × Visited)}

theorem Evaluated.kid {kid kid' : Expr} (h : Evaluated opt v kid.getWidth kid kid') : Kid opt (· = v) kid kid' :=
  ⟨h.rewrites, h.lighter⟩

theorem Evaluated.of_constant {c : BitVec w} (h : Rewrites opt (· = v) w e (.constant w c))
    (hsymbolic : e.isConstant = false) : Evaluated opt v w e (.constant w c) :=
  ⟨h, .inr (e.weight_pos hsymbolic), fun _ _ => rfl⟩

/-- A lighter expression is evaluated in the place of `e`. -/
theorem Evaluated.of_rewrites {n : Expr} (h : Evaluated opt v w n r) (hn : Rewrites opt (· = v) w e n)
    (hlt : n = e ∨ n.weight < e.weight) (hplain : e.Plain → n.Plain) : Evaluated opt v w e r where
  rewrites := hn.trans h.rewrites
  lighter := by
    rcases hlt with rfl | hlt
    · exact h.lighter
    · rcases h.lighter with rfl | hlt'
      · exact .inr hlt
      · exact .inr (hlt'.trans hlt)
  constant he hs := h.constant (hplain he) (hn.value true v rfl hs).1

theorem Visits.of_rewrites {n : Expr} {Z Z' : Prop} {result : Except Abort (Expr × Visited)}
    (h : VisitEnds (Evaluated opt v) Z w n result) (hn : Rewrites opt (· = v) w e n) (hlt : n = e ∨ n.weight < e.weight)
    (hplain : e.Plain → n.Plain) (hZ : Z → Z') : VisitEnds (Evaluated opt v) Z' w e result := by
  rcases h with ⟨r, visited, hr, hok, hresult⟩ | ⟨herror, hzero⟩
  · exact .inl ⟨r, visited, hr, hok, hresult.of_rewrites hn hlt hplain⟩
  · exact .inr ⟨herror, hZ hzero⟩

theorem ReadExpr.rollback_weight {index : Expr} : (ul : UpdateList) → (value : Expr) →
    ReadExpr.rollback opt index ul = .ok (some value) → value.weight ≤ ul.weight
  | .root _, _, h => nomatch h
  | .extend next updateIndex value', value, h => by
    obtain ⟨cond, -, h⟩ := Result.bind_eq_ok.mp h
    have hnext : ReadExpr.rollback opt index next = .ok (some value) → value.weight ≤ next.weight :=
      ReadExpr.rollback_weight next value
    rw [UpdateList.weight]
    split at h
    case h_1 =>
      split at h
      case isTrue =>
        obtain rfl := Option.some.inj (Except.ok.inj h)
        omega
      case isFalse =>
        have := hnext h
        omega
    case h_2 => cases h

theorem ReadExpr.create_lighter {index : Expr} (h : ReadExpr.create opt ul index = .ok r) :
    r = .read ul index ∨ r.weight < (Expr.read ul index).weight := by
  obtain ⟨value, hvalue, h⟩ := Result.bind_eq_ok.mp h
  obtain rfl := Except.ok.inj h
  cases value with
  | none => exact .inl rfl
  | some value =>
    have hweight : value.weight ≤ ul.weight := ReadExpr.rollback_weight ul value hvalue
    refine .inr ?_
    rw [Option.getD_some, Expr.weight]
    omega

/-- What the initial values of arrays are at `v`, for the reads that the evaluator does not answer itself. -/
def InitialValues (v : Valuation) (getInitialValue : Array → Nat → Expr) : Prop :=
  ∀ (array : Array) (i : Nat), array.WellFormed → ¬(array.isConstantArray = true ∧ i < array.size) →
    getInitialValue array i = .constant array.range (BitVec.ofNat _ (array.initial v i))

theorem evalRead_spec {getInitialValue : Array → Nat → Expr} (hinit : InitialValues v getInitialValue) {bound : Nat}
    (hvisit : ∀ e w, e.Typed w → e.weight < bound → ∀ visited : Visited, visited.Ok (Evaluated opt v) →
      VisitEvaluates opt v w e (visit e visited)) :
    (ul : UpdateList) → ul.WellTyped → 0 < ul.array.domain → ul.weight < bound → (c : BitVec ul.array.domain) →
    (visited : Visited) → visited.Ok (Evaluated opt v) →
    VisitEnds (Evaluated opt v) (∀ u, ¬ul.Sound opt true u) ul.array.range (.read ul (.constant ul.array.domain c))
      (ExprEvaluator.evalRead opt getInitialValue visit c.toNat ul visited)
  | .root array, hul, hdomain, _, c, visited, hok => by
    have hread : (Expr.read (.root array) (.constant array.domain c)).Typed array.range := ⟨⟨hul, hdomain, rfl⟩, rfl⟩
    have hbits : (Expr.read (.root array) (.constant array.domain c)).bits v array.range =
      BitVec.ofNat _ (array.initial v c.toNat) := rfl
    unfold ExprEvaluator.evalRead
    split
    case isTrue hconst =>
      have hlt : c.toNat < array.constantValues.length := (hul.constants hconst.1).symm ▸ hconst.2
      rw [List.getElem?_eq_getElem hlt]
      refine .inl ⟨_, visited, rfl, hok, .of_constant (.to_constant hread fun _ u hu _ => ?_) rfl⟩
      subst hu
      rw [hbits, Array.initial, if_pos hconst.1, List.getElem?_eq_getElem hlt]
      simp
    case isFalse hconst =>
      rw [hinit array c.toNat hul hconst]
      refine .inl ⟨_, visited, rfl, hok, .of_constant (.to_constant hread fun _ u hu _ => ?_) rfl⟩
      subst hu
      exact hbits.symm
  | .extend next updateIndex value, hul, hdomain, hbound, c, visited, hok => by
    change BitVec next.array.domain at c
    have hindex : (Expr.constant next.array.domain c).Typed next.array.domain := .constant hdomain c
    rw [UpdateList.weight] at hbound
    unfold ExprEvaluator.evalRead
    rcases hvisit updateIndex next.array.domain ⟨hul.2.1, hul.2.2.2.1⟩ (by omega) visited hok with
      ⟨ui, visited', hui, hok', hevaluated⟩ | ⟨herror, hzero⟩
    · simp only [hui, bind, Except.bind]
      rcases hevaluated.rewrites.typed.constant_or with ⟨cu, rfl⟩ | hsymbolic
      · -- where the read is defined, the index of the update is `cu`
        have hcu : ∀ div u, u = v → (Expr.cmp .eq (.constant next.array.domain c) updateIndex).Sound opt div u →
            updateIndex.bits u next.array.domain = cu := fun div u hu hs => by
          rw [← (hevaluated.rewrites.value div u hu hs.2).2, Expr.bits_constant]
        dsimp only
        split
        case isTrue hsame =>
          obtain rfl := BitVec.eq_of_toNat_eq hsame
          have hhit : Rewrites opt (· = v) next.array.range
              (.read (.extend next updateIndex value) (.constant next.array.domain cu)) value :=
            .read_hit hul hindex fun div u hu hs => by rw [hcu div u hu hs, Expr.bits_constant]
          refine Visits.of_rewrites (hvisit value next.array.range ⟨hul.2.2.1, hul.2.2.2.2⟩ (by omega) visited' hok')
            hhit (.inr ?_) (fun h => h.1.2.2) fun hzero u hs => hzero u trivial hs.2.2
          simp only [Expr.weight, UpdateList.weight]
          omega
        case isFalse hother =>
          have hmiss : Rewrites opt (· = v) next.array.range
              (.read (.extend next updateIndex value) (.constant next.array.domain c))
              (.read next (.constant next.array.domain c)) :=
            .read_miss hul hindex fun div u hu hs heq => by
              rw [hcu div u hu hs, Expr.bits_constant] at heq
              exact hother (congrArg BitVec.toNat heq.symm)
          refine Visits.of_rewrites (evalRead_spec hinit hvisit next hul.1 hdomain (by omega) c visited' hok')
            hmiss (.inr ?_) (fun h => ⟨h.1.1, h.2⟩) fun hzero u hs => hzero u hs.1
          simp only [Expr.weight, UpdateList.weight]
          omega
      · have hread : Produces opt (· = v) next.array.range
            (.read (.extend next updateIndex value) (.constant next.array.domain c))
            (ReadExpr.create opt (.extend next updateIndex value) (.constant next.array.domain c)) :=
          ReadExpr.create_spec hul hindex
        obtain ⟨r, hr, hrewrites⟩ := hread
        have hresult : Evaluated opt v next.array.range
            (.read (.extend next updateIndex value) (.constant next.array.domain c)) r := by
          refine ⟨hrewrites, ReadExpr.create_lighter hr, fun hplain hs => ?_⟩
          have := hevaluated.constant hplain.1.2.1 hs.1.2.1
          rw [hsymbolic] at this
          cases this
        refine .inl ⟨r, visited', ?_, hok', hresult⟩
        cases ui with
        | constant _ _ => cases hsymbolic
        | _ =>
          simp only [BitVec.ofNat_toNat, BitVec.setWidth_eq, UpdateList.array, hr]
          rfl
    · simp only [herror, bind, Except.bind]
      exact .inr ⟨rfl, fun u hs => hzero u trivial hs.2.1⟩

/-! ### The visits -/

theorem Kid.refl {kid : Expr} (h : kid.WellTyped) : Kid opt (· = v) kid kid := ⟨.refl (.self h), .inl rfl⟩

theorem kids_refl (he : e.Typed w) : List.Forall₂ (Kid opt (· = v)) e.kids e.kids :=
  List.forall₂_same.mpr fun kid hkid => .refl (e.kids_wellTyped he.1 kid hkid)

theorem forall₂_isConstant {kids kids' : List Expr}
    (h : List.Forall₂ (fun kid kid' => Evaluated opt v kid.getWidth kid kid') kids kids')
    (hplain : ∀ kid ∈ kids, kid.Plain) (hs : ∀ kid ∈ kids, kid.Sound opt true v) : ∀ kid ∈ kids', kid.isConstant = true := by
  induction h with
  | nil => exact nofun
  | cons hkid _ ih =>
    rw [List.forall_mem_cons] at hplain hs ⊢
    exact ⟨hkid.constant hplain.1 hs.1, ih hplain.2 hs.2⟩

theorem Expr.Plain.ne_notOptimized (h : e.Plain) : ∀ src, e ≠ .notOptimized src := by
  rintro src rfl
  exact h

theorem folds_eq_true (hread : ∀ ul index, e ≠ .read ul index) (h : ∀ kid ∈ e.kids, kid.isConstant = true) :
    ExprEvaluator.folds e = true := by
  cases e with
  | read ul index => exact absurd rfl (hread ul index)
  | _ => exact List.all_eq_true.mpr h

theorem kids_isConstant_of_folds (h : ExprEvaluator.folds e = true) :
    (∀ ul index, e ≠ .read ul index) ∧ ∀ kid ∈ e.kids, kid.isConstant = true := by
  unfold ExprEvaluator.folds at h
  split at h
  case h_1 => cases h
  case h_2 hread => exact ⟨fun ul index he => hread ul index he, List.all_eq_true.mp h⟩

/-- Only constants are folded, and not the divisor zero. -/
theorem fold_spec (he : e.Typed w) (hsymbolic : e.isConstant = false) (hfolds : ExprEvaluator.folds e = true)
    (hok : visited.Ok (Evaluated opt v)) :
    VisitEvaluates opt v w e (do return (← e.rebuild opt e.kids, visited)) := by
  obtain ⟨hread, hconstant⟩ := kids_isConstant_of_folds hfolds
  have hcases : Rebuilt opt (· = v) w e e.kids (e.rebuild opt e.kids) ∨ _ := rebuild_cases he hsymbolic (kids_refl he)
  rcases hcases with ⟨r, hr, hrewrites, -⟩ | ⟨herror, kind, l, r, l', rfl, hdiv, hkids⟩
  · refine .inl ⟨r, visited, by rw [hr]; rfl, hok, hrewrites, ?_, fun hplain _ => ?_⟩
    · by_cases hsrc : ∃ src, e = .notOptimized src
      · obtain ⟨src, rfl⟩ := hsrc
        exact .inl (Except.ok.inj hr).symm
      · obtain ⟨k, c, rfl⟩ := Expr.exists_constant (rebuild_isConstant (not_exists.mp hsrc) hread hconstant hr)
        exact .inr (e.weight_pos hsymbolic)
    · exact rebuild_isConstant hplain.ne_notOptimized hread hconstant hr
  · refine .inr ⟨by rw [herror]; rfl, fun u _ hs => hs.2.2 rfl hdiv ?_⟩
    obtain rfl : r = .constant w 0 := (List.cons.inj (List.cons.inj hkids).2).1
    exact BitVec.toNat_ofNat _ _

/-- The kids are visited and the expression is rebuilt. A read is visited so only if its index has no value. -/
theorem doChildren_spec (he : e.Typed w) (hsymbolic : e.isConstant = false) (hfolds : ExprEvaluator.folds e = false)
    (hdiv : ∀ kind l r, e = .arith kind l r → divides kind = false)
    (hread : ∀ ul index, e = .read ul index → e.Plain → ¬e.Sound opt true v)
    (hvisit : ∀ kid ∈ e.kids, ∀ visited : Visited, visited.Ok (Evaluated opt v) →
      VisitEvaluates opt v kid.getWidth kid (visit kid visited))
    (hok : visited.Ok (Evaluated opt v)) : VisitEvaluates opt v w e (ExprEvaluator.doChildren opt visit e visited) := by
  unfold ExprEvaluator.doChildren
  rcases visitKids_spec e.kids hvisit visited hok with ⟨kids, visited', hkids, hok', hall⟩ | ⟨herror, hzero⟩
  · have hconstant : e.Plain → e.Sound opt true v → (∀ ul index, e ≠ .read ul index) ∧ ∀ kid ∈ kids, kid.isConstant = true :=
      fun hplain hs => ⟨fun ul index h => hread ul index h hplain hs,
        forall₂_isConstant hall (Expr.kids_plain hplain) (Expr.kids_sound hs)⟩
    simp only [hkids, bind, Except.bind]
    by_cases hsame : kids = e.kids
    · subst hsame
      refine .inl ⟨e, visited', by simp [pure, Except.pure], hok', .refl he, .inl rfl, fun hplain hs => ?_⟩
      obtain ⟨hread, hkids⟩ := hconstant hplain hs
      rw [folds_eq_true hread hkids] at hfolds
      cases hfolds
    · have hkid : List.Forall₂ (Kid opt (· = v)) e.kids kids := hall.imp fun _ _ h => h.kid
      simp only [if_neg hsame]
      rcases rebuild_cases he hsymbolic hkid with ⟨r, hr, hrewrites, hlt⟩ | ⟨-, kind, l, r, -, hnode, hdivides, -⟩
      · refine .inl ⟨r, visited', by simp [hr, pure, Except.pure], hok', hrewrites, .inr (hlt hsame), fun hplain hs => ?_⟩
        obtain ⟨hread, hkids⟩ := hconstant hplain hs
        exact rebuild_isConstant hplain.ne_notOptimized hread hkids hr
      · rw [hdiv kind l r hnode] at hdivides
        cases hdivides
  · simp only [herror, bind, Except.bind]
    refine .inr ⟨rfl, fun u hu hs => ?_⟩
    obtain ⟨kid, hkid, hsound⟩ := hzero u hu
    exact hsound (Expr.kids_sound hs kid hkid)

theorem visitRead_spec {getInitialValue : Array → Nat → Expr} (hinit : InitialValues v getInitialValue) {index : Expr}
    (he : (Expr.read ul index).Typed w)
    (hvisit : ∀ e' w', e'.Typed w' → e'.weight < (Expr.read ul index).weight → ∀ visited : Visited,
      visited.Ok (Evaluated opt v) → VisitEvaluates opt v w' e' (visit e' visited))
    (hok : visited.Ok (Evaluated opt v)) :
    VisitEvaluates opt v w (.read ul index) (ExprEvaluator.visitRead opt getInitialValue visit ul index visited) := by
  obtain rfl : ul.array.range = w := he.2
  have hindex : index.Typed ul.array.domain := ⟨he.1.2.1, he.1.2.2⟩
  unfold ExprEvaluator.visitRead
  rcases hvisit index ul.array.domain hindex (by simp only [Expr.weight]; omega) visited hok with
    ⟨v', visited', hv', hok', hevaluated⟩ | ⟨herror, hzero⟩
  · simp only [hv', bind, Except.bind]
    rcases hevaluated.rewrites.typed.constant_or with ⟨c, rfl⟩ | hsymbolic
    · have hread := evalRead_spec hinit hvisit ul he.1.1 hindex.pos (by simp only [Expr.weight]; omega) c visited' hok'
      refine Visits.of_rewrites hread (.read he.1.1 hevaluated.rewrites) ?_ (fun h => ⟨h.1, trivial⟩)
        fun hzero u _ hs => hzero u hs.1
      rcases hevaluated.lighter with hsame | hlt
      · exact .inl (congrArg _ hsame)
      · refine .inr ?_
        simp only [Expr.weight] at hlt ⊢
        omega
    · have hchildren : VisitEvaluates opt v ul.array.range (.read ul index)
          (ExprEvaluator.doChildren opt visit (.read ul index) visited') := by
        refine doChildren_spec he rfl rfl (fun _ _ _ h => Expr.noConfusion h) (fun _ _ _ hplain hs => ?_)
          (fun kid hkid visited hok => ?_) hok'
        · have := hevaluated.constant hplain.2 hs.2.1
          rw [hsymbolic] at this
          cases this
        · exact hvisit kid kid.getWidth (.self (Expr.kids_wellTyped he.1 kid hkid)) (Expr.kids_weight _ kid hkid) visited hok
      cases v' with
      | constant _ _ => cases hsymbolic
      | _ => exact hchildren
  · simp only [herror, bind, Except.bind]
    exact .inr ⟨rfl, fun u hu hs => hzero u hu hs.2.1⟩

/-- The divisor that the division is rebuilt with. -/
structure ProtectedDivisor (opt : Bool) (v : Valuation) (w : Nat) (right r : Expr) : Prop where
  rewrites : Rewrites opt (· = v) w right r
  lighter : r = right ∨ r.weight < right.weight
  literal : r = .constant w 0 → right = .constant w 0
  constant : right.Plain → right.Sound opt true v → right.value v ≠ 0 → r.isConstant = true

theorem protectedDivisor_spec {right : Expr} (h : Evaluated opt v w right r) (hright : right.Typed w) :
    ProtectedDivisor opt v w right (ExprEvaluator.protectedDivisor right r) := by
  rcases h.rewrites.typed.constant_or with ⟨c, rfl⟩ | hsymbolic
  · rw [ExprEvaluator.protectedDivisor]
    by_cases hzero : c = 0
    · rw [if_pos hzero]
      refine ⟨.refl hright, .inl rfl, id, fun _ hs hne => absurd ?_ hne⟩
      rw [← h.rewrites.value_eq rfl hs, hzero]
      exact BitVec.toNat_ofNat _ _
    · rw [if_neg hzero]
      refine ⟨h.rewrites, h.lighter, fun hc => absurd ?_ hzero, fun _ _ _ => rfl⟩
      simpa using hc
  · have hr : ExprEvaluator.protectedDivisor right r = r := by
      cases r with
      | constant _ _ => cases hsymbolic
      | _ => rfl
    rw [hr]
    refine ⟨h.rewrites, h.lighter, ?_, fun hplain hs _ => h.constant hplain hs⟩
    rintro rfl
    cases hsymbolic

theorem protectedDivOperation_spec {kind : ArithKind} {left right : Expr} (hdiv : divides kind = true)
    (he : (Expr.arith kind left right).Typed w) (hfolds : ExprEvaluator.folds (.arith kind left right) = false)
    (hvisit : ∀ kid ∈ [left, right], ∀ visited : Visited, visited.Ok (Evaluated opt v) →
      VisitEvaluates opt v w kid (visit kid visited))
    (hok : visited.Ok (Evaluated opt v)) :
    VisitEvaluates opt v w (.arith kind left right)
      (ExprEvaluator.protectedDivOperation opt visit kind left right visited) := by
  obtain ⟨hleft, hright⟩ := Expr.Typed.arith.mp he
  unfold ExprEvaluator.protectedDivOperation
  rcases hvisit left List.mem_cons_self visited hok with ⟨l', visited₁, hl, hok₁, hl'⟩ | ⟨herror, hzero⟩
  · simp only [hl, bind, Except.bind]
    rcases hvisit right (by simp) visited₁ hok₁ with ⟨r', visited₂, hr, hok₂, hr'⟩ | ⟨herror, hzero⟩
    · have hdivisor := protectedDivisor_spec hr' hright
      simp only [hr]
      generalize ExprEvaluator.protectedDivisor right r' = r'' at hdivisor ⊢
      have hkids : (Expr.arith kind left right).Plain → (Expr.arith kind left right).Sound opt true v →
          ∀ kid ∈ [l', r''], kid.isConstant = true := fun hplain hs => by
        rw [List.forall_mem_cons, List.forall_mem_singleton]
        exact ⟨hl'.constant hplain.1 hs.1, hdivisor.constant hplain.2 hs.2.1 (hs.2.2 rfl hdiv)⟩
      split
      case isTrue hchanged =>
        have hkid : List.Forall₂ (Kid opt (· = v)) (Expr.arith kind left right).kids [l', r''] :=
          .cons ⟨hleft.width.symm ▸ hl'.rewrites, hl'.lighter⟩
            (.cons ⟨hright.width.symm ▸ hdivisor.rewrites, hdivisor.lighter⟩ .nil)
        have hne : [l', r''] ≠ (Expr.arith kind left right).kids := fun hsame => by
          obtain ⟨rfl, hrest⟩ := List.cons.inj hsame
          obtain ⟨rfl, -⟩ := List.cons.inj hrest
          simp at hchanged
        rcases rebuild_cases he rfl hkid with ⟨r, hr, hresult, hlt⟩ | ⟨herror, _, _, _, _, hnode, -, hzero⟩
        · refine .inl ⟨r, visited₂, by simp [hr, pure, Except.pure], hok₂, hresult, .inr (hlt hne), fun hplain hs => ?_⟩
          exact rebuild_isConstant hplain.ne_notOptimized nofun (hkids hplain hs) hr
        · refine .inr ⟨by simp [herror], fun u _ hs => hs.2.2 rfl hdiv ?_⟩
          rw [hdivisor.literal (List.cons.inj (List.cons.inj hzero).2).1]
          exact BitVec.toNat_ofNat _ _
      case isFalse hsame =>
        obtain ⟨rfl, rfl⟩ : l' = left ∧ r'' = right := by simpa using hsame
        refine .inl ⟨_, visited₂, rfl, hok₂, .refl he, .inl rfl, fun hplain hs => ?_⟩
        have : ExprEvaluator.folds (.arith kind l' r'') = true := folds_eq_true nofun (hkids hplain hs)
        rw [this] at hfolds
        cases hfolds
    · simp only [herror]
      exact .inr ⟨rfl, fun u hu hs => hzero u hu hs.2.1⟩
  · simp only [herror, bind, Except.bind]
    exact .inr ⟨rfl, fun u hu hs => hzero u hu hs.1⟩

theorem evaluatorVisitActual_spec {getInitialValue : Array → Nat → Expr} (hinit : InitialValues v getInitialValue)
    (he : e.Typed w)
    (hvisit : ∀ e' w', e'.Typed w' → e'.weight < e.weight → ∀ visited : Visited, visited.Ok (Evaluated opt v) →
      VisitEvaluates opt v w' e' (visit e' visited))
    (hok : visited.Ok (Evaluated opt v)) :
    VisitEvaluates opt v w e (ExprEvaluator.visitActual opt getInitialValue visit e visited) := by
  have hkids : ∀ kid ∈ e.kids, ∀ visited : Visited, visited.Ok (Evaluated opt v) →
      VisitEvaluates opt v kid.getWidth kid (visit kid visited) := fun kid hkid =>
    hvisit kid kid.getWidth (.self (Expr.kids_wellTyped he.1 kid hkid)) (e.kids_weight kid hkid)
  unfold ExprEvaluator.visitActual
  cases hsymbolic : e.isConstant with
  | true => exact .inl ⟨e, visited, rfl, hok, .refl he, .inl rfl, fun _ _ => hsymbolic⟩
  | false =>
    rw [if_neg Bool.false_ne_true]
    cases hfolds : ExprEvaluator.folds e with
    | true => exact fold_spec he hsymbolic hfolds hok
    | false =>
      rw [if_neg Bool.false_ne_true]
      cases e with
      | constant _ _ => cases hsymbolic
      | read ul index => exact visitRead_spec hinit he hvisit hok
      | arith kind left right =>
        obtain ⟨hleft, hright⟩ := Expr.Typed.arith.mp he
        dsimp only
        cases hdiv : divides kind with
        | true =>
          refine protectedDivOperation_spec hdiv he hfolds (fun kid hkid => ?_) hok
          have hwidth : kid.getWidth = w := by
            rcases List.mem_cons.mp hkid with rfl | hrest
            · exact hleft.width
            · exact List.mem_singleton.mp hrest ▸ hright.width
          exact hwidth ▸ hkids kid hkid
        | false =>
          refine doChildren_spec he hsymbolic hfolds (fun kind' l r h => ?_) nofun hkids hok
          cases h
          exact hdiv
      | _ => exact doChildren_spec he hsymbolic hfolds nofun nofun hkids hok

/-- The recursion ends: only kids and parts of updates are visited. -/
theorem evaluatorVisit_spec {getInitialValue : Array → Nat → Expr} (useVisitorHash : Bool)
    (hinit : InitialValues v getInitialValue) : ∀ (fuel : Nat) (e : Expr) (w : Nat), e.Typed w → e.weight < fuel →
    ∀ visited : Visited, visited.Ok (Evaluated opt v) →
      VisitEvaluates opt v w e (ExprEvaluator.visit opt useVisitorHash getInitialValue fuel e visited) := by
  intro fuel
  induction fuel with
  | zero => exact fun _ _ _ hfuel => absurd hfuel (Nat.not_lt_zero _)
  | succ fuel ih =>
    intro e w he hfuel visited hok
    exact remember_spec useVisitorHash he hok
      (evaluatorVisitActual_spec hinit he (fun e' w' he' hlt => ih e' w' he' (by omega)) hok)

end

/-! ### Assignments -/

namespace Assignment

/-- Only symbolic arrays are bound, to as many bytes as they have. -/
def WellFormed (a : Assignment) : Prop :=
  ∀ binding ∈ a.bindings, binding.1.isSymbolicArray = true ∧ binding.2.length = binding.1.size

variable {a : Assignment}

theorem WellFormed.byteOf (h : a.WellFormed) {array : Array} {i : Nat}
    (hi : ¬(array.isSymbolicArray = true ∧ i < array.size)) : a.byteOf array i = 0 := by
  unfold Assignment.byteOf
  cases hlookup : a.bindings.lookup array with
  | none => rfl
  | some bytes =>
    obtain ⟨l₁, l₂, hbindings, -⟩ := List.lookup_eq_some_iff.mp hlookup
    obtain ⟨hsymbolic, hlength⟩ := h (array, bytes) (by rw [hbindings]; simp)
    rw [Option.bind_some, List.getElem?_eq_none, Option.getD_none]
    rw [hlength]
    exact not_lt.mp fun hlt => hi ⟨hsymbolic, hlt⟩

theorem WellFormed.initialValues (h : a.WellFormed) : InitialValues a.byteOf a.evaluateByte := by
  intro array i harray hconst
  rw [evaluateByte]
  congr 1
  unfold Array.initial
  by_cases hsymbolic : array.isConstantArray = true
  · have hlength := harray.constants hsymbolic
    rw [if_pos hsymbolic, List.getElem?_eq_none (by rw [hlength]; exact not_lt.mp fun hlt => hconst ⟨hsymbolic, hlt⟩),
      h.byteOf fun hi => by simp [Array.isConstantArray, hi.1] at hsymbolic]
    rfl
  · rw [if_neg hsymbolic]
    split
    case isTrue => exact BitVec.eq_of_toNat_eq (by simp)
    case isFalse hsize => rw [h.byteOf fun hi => hsize hi.2]

variable {useVisitorHash : Bool} {visited : Visited}

theorem visit_spec (ha : a.WellFormed) (he : e.Typed w) (hok : visited.Ok (Evaluated opt a.byteOf)) :
    VisitEvaluates opt a.byteOf w e (a.visit opt useVisitorHash e visited) :=
  evaluatorVisit_spec useVisitorHash ha.initialValues _ e w he (Nat.lt_succ_self _) visited hok

/-- An expression without zero divisors evaluates to its value. -/
theorem evaluate_spec (ha : a.WellFormed) (he : e.Typed w) (hplain : e.Plain) (hs : e.Sound opt true a.byteOf) :
    a.evaluate opt useVisitorHash e = .ok (.constant w (e.bits a.byteOf w)) := by
  have hvisit : VisitEvaluates opt a.byteOf w e (a.visit opt useVisitorHash e []) := visit_spec ha he nofun
  unfold Assignment.evaluate
  rcases hvisit with ⟨r, visited, hr, -, hevaluated⟩ | ⟨-, hzero⟩
  · obtain ⟨k, c, rfl⟩ := Expr.exists_constant (hevaluated.constant hplain hs)
    obtain rfl : k = w := hevaluated.rewrites.typed.2
    rw [hr, ← (hevaluated.rewrites.value true _ rfl hs).2, Expr.bits_constant]
    rfl
  · exact absurd hs (hzero _ trivial)

theorem isTrue_spec (hr : r.Typed 1) : isTrue r = .ok (decide (r = boolean true)) := if_neg (not_not.mpr hr.width)

/-- What satisfies expressions makes them true. The divisor zero is in none of them. -/
theorem satisfiesFrom_spec (ha : a.WellFormed) (es : List Expr) : ∀ visited : Visited,
    visited.Ok (Evaluated opt a.byteOf) → (∀ e ∈ es, e.Typed 1 ∧ ∃ u, e.Sound opt true u) →
    ∃ b, a.satisfiesFrom opt useVisitorHash es visited = .ok b ∧
      (b = true → ∀ e ∈ es, e.Sound opt false a.byteOf → e.Holds a.byteOf) := by
  induction es with
  | nil => exact fun _ _ _ => ⟨true, rfl, fun _ => nofun⟩
  | cons e es ih =>
    intro visited hok hes
    obtain ⟨⟨he, u, hu⟩, hes⟩ := List.forall_mem_cons.mp hes
    have hvisit : VisitEvaluates opt a.byteOf 1 e (a.visit opt useVisitorHash e visited) := visit_spec ha he hok
    unfold satisfiesFrom
    rcases hvisit with ⟨r, visited', hr, hok', hevaluated⟩ | ⟨-, hzero⟩
    · simp only [hr, bind, Except.bind, isTrue_spec hevaluated.rewrites.typed]
      by_cases htrue : r = boolean true
      · obtain ⟨b, hb, hholds⟩ := ih visited' hok' hes
        refine ⟨b, by simpa [htrue] using hb, fun h => List.forall_mem_cons.mpr ⟨fun hs => ?_, hholds h⟩⟩
        rw [Expr.Holds, ← hevaluated.rewrites.value_eq rfl hs, htrue]
        rfl
      · exact ⟨false, by simp [htrue, pure, Except.pure], nofun⟩
    · exact absurd hu (hzero u trivial)

theorem satisfies_spec (ha : a.WellFormed) {es : List Expr} (hes : ∀ e ∈ es, e.Typed 1 ∧ ∃ u, e.Sound opt true u) :
    ∃ b, a.satisfies opt useVisitorHash es = .ok b ∧
      (b = true → ∀ e ∈ es, e.Sound opt false a.byteOf → e.Holds a.byteOf) :=
  satisfiesFrom_spec ha es [] nofun hes

end Assignment

end CapTaint.Klee
