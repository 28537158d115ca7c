import CapTaint.DealWithSymbolicExpr
import CapTaint.Theorems.Recorded

/-! # The closure of the filter

The loop over `allRelatedSymbolicExpr` visits the variables that branches and assertions reach along ascending
names. It computes the dependency closure exactly when these are all the reachable targets of stores. -/

namespace CapTaint
open Std LiveSet

/-! ### Variables of an expression -/

/-- The expression reads the variable. -/
def Expr.Reads : Expr → String → Prop
  | .constant _, _ => False
  | .read root, v => v = beforeMark root.name
  | .concat root rest, v => v = beforeMark root.name ∨ rest.Reads v
  | .unary _ kid, v => kid.Reads v
  | .binary _ left right, v => left.Reads v ∨ right.Reads v
  | .select condition trueExpr falseExpr, v => condition.Reads v ∨ trueExpr.Reads v ∨ falseExpr.Reads v

theorem mem_insert_iff {set : TreeSet String} {a v : String} : v ∈ set.insert a ↔ v = a ∨ v ∈ set := by
  rw [TreeSet.mem_insert, Std.compare_eq_iff_eq, eq_comm]

theorem mem_resolveSymbolicExpr {e : Expr} {related : TreeSet String} {v : String} :
    v ∈ resolveSymbolicExpr e related ↔ v ∈ related ∨ e.Reads v := by
  induction e generalizing related with
  | constant value => simp [resolveSymbolicExpr, Expr.Reads]
  | read root =>
    rw [resolveSymbolicExpr, mem_insert_iff, or_comm]
    rfl
  | concat root rest ih =>
    unfold resolveSymbolicExpr
    split
    · rename_i hsame
      subst hsame
      rw [mem_insert_iff, or_comm]
      simp [Expr.Reads]
    · rw [ih, mem_insert_iff, or_comm (a := v = _), or_assoc]
      rfl
  | unary kind kid ih => exact ih
  | binary kind left right ihl ihr =>
    unfold resolveSymbolicExpr
    split
    · rename_i hsame
      subst hsame
      rw [ihl]
      simp [Expr.Reads]
    · rw [ihr, ihl, or_assoc]
      rfl
  | select condition trueExpr falseExpr ihc iht ihf =>
    unfold resolveSymbolicExpr
    rw [ihf, iht, ihc, or_assoc, or_assoc]
    rfl

/-- The variables of an expression, as the source collects them in an empty set. -/
theorem mem_resolveSymbolicExpr_empty {e : Expr} {v : String} : v ∈ resolveSymbolicExpr e ∅ ↔ e.Reads v := by
  rw [mem_resolveSymbolicExpr]
  simp

theorem mem_foldl_insert {l : List String} {set : TreeSet String} {v : String} :
    v ∈ l.foldl TreeSet.insert set ↔ v ∈ l ∨ v ∈ set := by
  induction l generalizing set with
  | nil => simp
  | cons a l ih =>
    rw [List.foldl_cons, ih, mem_insert_iff, List.mem_cons, or_left_comm, or_assoc]

theorem mem_addExprToSet {expr related : TreeSet String} {v : String} :
    v ∈ addExprToSet expr related ↔ v ∈ expr ∨ v ∈ related := by
  rw [addExprToSet, mem_foldl_insert, TreeSet.mem_toList]

namespace DealWithSymbolicExpr

/-- A store to `v` reads `u`; the target itself counts, as it stands on the right of the equation. -/
def Depends (stores : List EqExpr) (v u : String) : Prop :=
  ∃ store ∈ stores, getVarName store.right = v ∧ store.toExpr.Reads u

/-- The variables that a branch or an assertion reads. -/
def roots (symbolic : SymbolicExprs) : Set String :=
  {v | ∃ e ∈ symbolic.brSymbolicExpr ++ symbolic.assertSymbolicExpr, e.Reads v}

/-! ### One round of the loop -/

section Visit
variable {varName : String}

/-- A store expression that is taken adds its variables, to the set and to those of its target. -/
theorem mem_take {s : Closure} {e : EqExpr} :
    (∀ u, u ∈ (s.take varName e).allRelatedSymbolicExpr ↔ u ∈ s.allRelatedSymbolicExpr ∨ e.toExpr.Reads u) ∧
    ∀ v u, u ∈ (s.take varName e).varRelatedSymbolicExpr.getD v ∅ ↔
      u ∈ s.varRelatedSymbolicExpr.getD v ∅ ∨ v = varName ∧ e.toExpr.Reads u := by
  refine ⟨fun u => ?_, fun v u => ?_⟩
  · rw [Closure.take, mem_addExprToSet, mem_resolveSymbolicExpr_empty, or_comm]
  · unfold Closure.take
    dsimp only
    cases hget : s.varRelatedSymbolicExpr[varName]? with
    | none =>
      dsimp only
      rw [TreeMap.getD_insert]
      by_cases hv : v = varName
      · subst hv
        simp [mem_resolveSymbolicExpr_empty, TreeMap.getD_eq_getD_getElem?, hget]
      · rw [if_neg (by rw [Std.compare_eq_iff_eq]; exact fun h => hv h.symm)]
        simp [hv]
    | some related =>
      dsimp only
      rw [TreeMap.getD_insert]
      by_cases hv : v = varName
      · subst hv
        simp [mem_resolveSymbolicExpr_empty, mem_addExprToSet, TreeMap.getD_eq_getD_getElem?, hget, or_comm]
      · rw [if_neg (by rw [Std.compare_eq_iff_eq]; exact fun h => hv h.symm)]
        simp [hv]

/-- What a loop over expressions makes of a state: those with the target `varName` are taken, the others kept. -/
structure Taken (varName : String) (es : List EqExpr) (s s' : Closure) : Prop where
  remaining : s'.remainingExpr = s.remainingExpr ++ es.filter (fun e => varName ≠ getVarName e.right)
  kQuery : s'.kQueryExpr = s.kQueryExpr ++ es.filter (fun e => varName = getVarName e.right)
  all : ∀ u, u ∈ s'.allRelatedSymbolicExpr ↔ u ∈ s.allRelatedSymbolicExpr ∨ Depends es varName u
  varRelated : ∀ v u, u ∈ s'.varRelatedSymbolicExpr.getD v ∅ ↔
    u ∈ s.varRelatedSymbolicExpr.getD v ∅ ∨ v = varName ∧ Depends es varName u

theorem depends_cons {e : EqExpr} {es : List EqExpr} {u : String} : Depends (e :: es) varName u ↔
    varName = getVarName e.right ∧ e.toExpr.Reads u ∨ Depends es varName u := by
  unfold Depends
  rw [List.exists_mem_cons_iff, eq_comm]

theorem taken_foldl {es : List EqExpr} {s : Closure} : Taken varName es s
    (es.foldl (fun s e => if varName = getVarName e.right then s.take varName e
      else { s with remainingExpr := s.remainingExpr ++ [e] }) s) := by
  induction es generalizing s with
  | nil => exact ⟨by simp, by simp, by simp [Depends], by simp [Depends]⟩
  | cons e es ih =>
    rw [List.foldl_cons]
    by_cases htarget : varName = getVarName e.right
    · rw [if_pos htarget]
      obtain ⟨hrem, hquery, hall, hvar⟩ := @ih (s.take varName e)
      obtain ⟨htakeAll, htakeVar⟩ := @mem_take varName s e
      refine ⟨?_, ?_, fun u => ?_, fun v u => ?_⟩
      · rw [hrem, List.filter_cons_of_neg (by simpa using htarget)]
        rfl
      · rw [hquery, List.filter_cons_of_pos (by simpa using htarget), List.append_cons]
        rfl
      · rw [hall, htakeAll, depends_cons, and_iff_right htarget, or_assoc]
      · rw [hvar, htakeVar, depends_cons, and_iff_right htarget, or_assoc, and_or_left]
    · rw [if_neg htarget]
      obtain ⟨hrem, hquery, hall, hvar⟩ := @ih { s with remainingExpr := s.remainingExpr ++ [e] }
      refine ⟨?_, ?_, fun u => ?_, fun v u => ?_⟩
      · rw [hrem, List.filter_cons_of_pos (by simpa using htarget)]
        simp
      · rw [hquery, List.filter_cons_of_neg (by simpa using htarget)]
      · rw [hall, depends_cons]
        simp [htarget]
      · rw [hvar, depends_cons]
        simp [htarget]

theorem taken_visit {s : Closure} : Taken varName s.remainingExpr { s with remainingExpr := [] } (s.visit varName) :=
  taken_foldl

end Visit

/-! ### The whole loop -/

/-- What the loop has done to the expressions of the stores after it has visited some variables. -/
structure Processed (stores : List EqExpr) (visited : List String) (s : Closure) : Prop where
  remaining : s.remainingExpr = stores.filter (fun e => getVarName e.right ∉ visited)
  kQuery : ∀ e, e ∈ s.kQueryExpr ↔ e ∈ stores ∧ getVarName e.right ∈ visited
  varRelated : ∀ v u, u ∈ s.varRelatedSymbolicExpr.getD v ∅ ↔ v ∈ visited ∧ Depends stores v u

theorem processed_visit {stores : List EqExpr} {visited : List String} {s : Closure} {x : String}
    (h : Processed stores visited s) (hx : x ∉ visited) :
    Processed stores (visited ++ [x]) (s.visit x) ∧
      ∀ u, u ∈ (s.visit x).allRelatedSymbolicExpr ↔ u ∈ s.allRelatedSymbolicExpr ∨ Depends stores x u := by
  obtain ⟨hrem, hquery, hall, hvar⟩ := @taken_visit x s
  -- all stores to a variable that is visited for the first time are still there
  have hdep : ∀ u, Depends s.remainingExpr x u ↔ Depends stores x u := by
    intro u
    unfold Depends
    rw [h.remaining]
    simp only [List.mem_filter, decide_eq_true_eq]
    constructor
    · rintro ⟨store, ⟨hmem, -⟩, htarget, hreads⟩
      exact ⟨store, hmem, htarget, hreads⟩
    · rintro ⟨store, hmem, htarget, hreads⟩
      exact ⟨store, ⟨hmem, htarget ▸ hx⟩, htarget, hreads⟩
  refine ⟨⟨?_, fun e => ?_, fun v u => ?_⟩, fun u => ?_⟩
  · rw [hrem, List.nil_append, h.remaining, List.filter_filter]
    refine List.filter_congr fun e _ => ?_
    simp [and_comm, eq_comm]
  · rw [hquery, List.mem_append, h.kQuery, h.remaining]
    simp only [List.mem_filter, decide_eq_true_eq, List.mem_append, List.mem_singleton]
    constructor
    · rintro (⟨hmem, hin⟩ | ⟨⟨hmem, -⟩, heq⟩)
      · exact ⟨hmem, .inl hin⟩
      · exact ⟨hmem, .inr heq.symm⟩
    · rintro ⟨hmem, hin | heq⟩
      · exact .inl ⟨hmem, hin⟩
      · exact .inr ⟨⟨hmem, heq ▸ hx⟩, heq.symm⟩
  · rw [hvar, h.varRelated, hdep, List.mem_append, List.mem_singleton]
    constructor
    · rintro (⟨hin, hu⟩ | ⟨rfl, hu⟩)
      · exact ⟨.inl hin, hu⟩
      · exact ⟨.inr rfl, hu⟩
    · rintro ⟨hin | rfl, hu⟩
      · exact .inl ⟨hin, hu⟩
      · exact .inr ⟨rfl, hu⟩
  · rw [hall, hdep]

theorem mem_relatedSymbolicExprs {exprs : List Expr} {set : TreeSet String} {v : String} :
    v ∈ (relatedSymbolicExprs exprs).foldl (fun all related => addExprToSet related all) set ↔
      v ∈ set ∨ ∃ e ∈ exprs, e.Reads v := by
  induction exprs generalizing set with
  | nil => simp [relatedSymbolicExprs]
  | cons e exprs ih =>
    unfold relatedSymbolicExprs at ih ⊢
    rw [List.map_cons, List.foldl_cons, ih, mem_addExprToSet, mem_resolveSymbolicExpr_empty, List.exists_mem_cons_iff,
      or_comm (b := v ∈ set), or_assoc]

theorem mem_allVarNames {symbolic : SymbolicExprs} {v : String} : v ∈ allVarNames symbolic ↔
    v ∈ roots symbolic ∨ ∃ store ∈ symbolic.storeSymbolicExpr, store.toExpr.Reads v := by
  unfold allVarNames
  simp only [List.mem_flatMap, TreeSet.mem_toList, mem_resolveSymbolicExpr_empty, List.mem_append, List.mem_map]
  constructor
  · rintro ⟨e, he | ⟨store, hstore, rfl⟩, hreads⟩
    · exact .inl ⟨e, List.mem_append.mpr he, hreads⟩
    · exact .inr ⟨store, hstore, hreads⟩
  · rintro (⟨e, he, hreads⟩ | ⟨store, hstore, hreads⟩)
    · exact ⟨e, .inl (List.mem_append.mp he), hreads⟩
    · exact ⟨store.toExpr, .inr ⟨store, hstore, rfl⟩, hreads⟩

/-- The names that the loop over the branches and assertions reaches upwards. -/
def Ascends (symbolic : SymbolicExprs) : String → Prop :=
  AscendingReach (roots symbolic) fun v => {u | Depends symbolic.storeSymbolicExpr v u}

theorem closure_visited (symbolic : SymbolicExprs) : ∃ visited,
    (∀ v, v ∈ visited ↔ Ascends symbolic v) ∧ Processed symbolic.storeSymbolicExpr visited (closure symbolic) ∧
    ∀ u, u ∈ (closure symbolic).allRelatedSymbolicExpr ↔
      u ∈ roots symbolic ∨ ∃ v ∈ visited, Depends symbolic.storeSymbolicExpr v u := by
  have hroots : ∀ v, v ∈ (relatedSymbolicExprs symbolic.brSymbolicExpr ++ relatedSymbolicExprs
      symbolic.assertSymbolicExpr).foldl (fun all related => addExprToSet related all) ∅ ↔ v ∈ roots symbolic := by
    intro v
    rw [relatedSymbolicExprs, relatedSymbolicExprs, ← List.map_append]
    exact mem_relatedSymbolicExprs.trans (by simp [roots])
  have hstart : Visited Closure.allRelatedSymbolicExpr (roots symbolic) (fun v => {u | Depends symbolic.storeSymbolicExpr v u})
      (Processed symbolic.storeSymbolicExpr) []
      { allRelatedSymbolicExpr := (relatedSymbolicExprs symbolic.brSymbolicExpr ++ relatedSymbolicExprs
          symbolic.assertSymbolicExpr).foldl (fun all related => addExprToSet related all) ∅
        remainingExpr := symbolic.storeSymbolicExpr } := by
    refine ⟨⟨by simp, by simp, by simp⟩, fun v => ?_, .nil, by simp, fun x _ hnot => ?_⟩
    · rw [hroots]
      simp
    · exact absurd (fun c hc => by cases hc) hnot
  obtain ⟨visited, hvisited, hreach⟩ : ∃ visited, Visited Closure.allRelatedSymbolicExpr (roots symbolic)
      (fun v => {u | Depends symbolic.storeSymbolicExpr v u}) (Processed symbolic.storeSymbolicExpr) visited
      (closure symbolic) ∧ ∀ v, v ∈ visited ↔ Ascends symbolic v := liveLoop_visited (U := (allVarNames symbolic).toFinset)
    hstart (fun hJ hx => processed_visit hJ hx)
    (fun {x} hx => by
      rw [List.mem_toFinset, mem_allVarNames]
      cases hx with
      | root hD => exact .inl hD
      | step _ hE _ =>
        obtain ⟨store, hstore, -, hreads⟩ := hE
        exact .inr ⟨store, hstore, hreads⟩)
    (by have := List.toFinset_card_le (allVarNames symbolic); simp only [List.length_nil]; omega)
  exact ⟨visited, hreach, hvisited.invariant, hvisited.mem_set⟩

/-! ### The dependency closure -/

/-- After the filter, the related variables are the least set with those of branches and assertions that is
    closed under the store dependencies, and the query holds the stores to them. -/
def DependencyClosure (trace : Trace) (symbolic : SymbolicExprs) : Prop :=
  IsLeast {S : Set String | roots symbolic ⊆ S ∧ ∀ v ∈ S, ∀ u, Depends symbolic.storeSymbolicExpr v u → u ∈ S}
    {v | v ∈ (filterUseless trace symbolic).allRelatedSymbolicExpr} ∧
  ∀ store, store ∈ (filterUseless trace symbolic).kQueryExpr ↔ store ∈ symbolic.storeSymbolicExpr ∧
    getVarName store.right ∈ (filterUseless trace symbolic).allRelatedSymbolicExpr

/-- The variables that branches and assertions reach through stores. -/
def Reaches (symbolic : SymbolicExprs) (D : Set String) (u : String) : Prop :=
  ∃ v ∈ D, Relation.ReflTransGen (Depends symbolic.storeSymbolicExpr) v u

theorem reaches_of_ascends {symbolic : SymbolicExprs} {D : Set String} {v : String}
    (h : AscendingReach D (fun v => {u | Depends symbolic.storeSymbolicExpr v u}) v) : Reaches symbolic D v := by
  induction h with
  | root hD => exact ⟨_, hD, .refl⟩
  | step _ hE _ ih =>
    obtain ⟨d, hd, hpath⟩ := ih
    exact ⟨d, hd, hpath.tail hE⟩

/-- The filter computes the dependency closure exactly when every store target that the branches and assertions
    reach is reached along ascending names. -/
theorem dependencyClosure_iff (trace : Trace) (symbolic : SymbolicExprs) : DependencyClosure trace symbolic ↔
    ∀ v, Reaches symbolic (roots symbolic) v → (∃ store ∈ symbolic.storeSymbolicExpr, getVarName store.right = v) →
      Ascends symbolic v := by
  obtain ⟨visited, hvisited, hprocessed, hall⟩ := closure_visited symbolic
  constructor
  · rintro ⟨⟨⟨hroots, hclosed⟩, -⟩, hquery⟩ v ⟨d, hd, hpath⟩ ⟨store, hstore, htarget⟩
    have hv : v ∈ (closure symbolic).allRelatedSymbolicExpr := by
      clear htarget
      induction hpath with
      | refl => exact hroots hd
      | tail _ hdep ih => exact hclosed _ ih _ hdep
    obtain ⟨-, hmem⟩ := (hprocessed.kQuery store).mp ((hquery store).mpr ⟨hstore, htarget ▸ hv⟩)
    exact (hvisited v).mp (htarget ▸ hmem)
  · intro hcond
    have hreach : ∀ v, v ∈ (closure symbolic).allRelatedSymbolicExpr ↔ Reaches symbolic (roots symbolic) v := by
      intro v
      rw [hall]
      constructor
      · rintro (hD | ⟨u, hu, hdep⟩)
        · exact ⟨v, hD, .refl⟩
        · obtain ⟨d, hd, hpath⟩ := reaches_of_ascends ((hvisited u).mp hu)
          exact ⟨d, hd, hpath.tail hdep⟩
      · rintro ⟨d, hd, hpath⟩
        cases hpath with
        | refl => exact .inl hd
        | @tail u _ hpath hdep =>
          obtain ⟨store, hstore, htarget, -⟩ := id hdep
          exact .inr ⟨u, (hvisited u).mpr (hcond u ⟨d, hd, hpath⟩ ⟨store, hstore, htarget⟩), hdep⟩
    refine ⟨⟨⟨fun v hv => (hall v).mpr (.inl hv), fun v hv u hdep => ?_⟩, fun S hS v hv => ?_⟩, fun store => ?_⟩
    · obtain ⟨d, hd, hpath⟩ := (hreach v).mp hv
      exact (hreach u).mpr ⟨d, hd, hpath.tail hdep⟩
    · obtain ⟨d, hd, hpath⟩ := (hreach v).mp hv
      induction hpath with
      | refl => exact hS.1 hd
      | tail hpath hdep ih => exact hS.2 _ (ih ((hreach _).mpr ⟨d, hd, hpath⟩)) _ hdep
    · refine (hprocessed.kQuery store).trans (and_congr_right fun hstore => ?_)
      rw [hvisited]
      constructor
      · intro hasc
        exact (hreach _).mpr (reaches_of_ascends hasc)
      · intro hmem
        exact hcond _ ((hreach _).mp hmem) ⟨store, hstore, rfl⟩

/-- A branch on `G2_1`, which is stored from `G1_1`, which is stored from `G3_1`. -/
def descendingExprs : SymbolicExprs where
  storeSymbolicExpr :=
    [{ left := .read ⟨"G1_1L1", by decide⟩, right := .read ⟨"G2_1S1", by decide⟩ },
      { left := .read ⟨"G3_1L1", by decide⟩, right := .read ⟨"G1_1S1", by decide⟩ }]
  brSymbolicExpr := [.read ⟨"G2_1L1", by decide⟩]

theorem not_dependencyClosure_descendingExprs : ¬DependencyClosure {} descendingExprs := by
  rintro ⟨-, hquery⟩
  have hstore := (hquery { left := .read ⟨"G3_1L1", by decide⟩, right := .read ⟨"G1_1S1", by decide⟩ }).mpr
    ⟨by decide +kernel, by decide +kernel⟩
  revert hstore
  decide +kernel

end DealWithSymbolicExpr
end CapTaint
