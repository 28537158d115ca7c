import CapTaint.Klee.IndependentSolver
import CapTaint.Theorems.IndependentSolver

/-! # findReads

The search on objects is a search on the expressions that they stand for. What is skipped because the head of the updates
has been met is marked already. -/

namespace CapTaint.Klee

open Relation Worklist

namespace ExprDag

variable {Obj Node : Type} [DecidableEq Node] {dag : ExprDag Obj Node} {visitUpdates : Bool} {s : ReadSearch Obj Node}
  {e o : Obj} {objects : List Obj}

/-- The parts of an object, with the updates or without them. -/
def partsOf (dag : ExprDag Obj Node) (visitUpdates : Bool) (o : Obj) : List Obj :=
  dag.getKids o ++ if visitUpdates then (dag.updates o).flatMap UpdateNode.parts else []

/-- What can be reached through children and indices of reads, and through updates when these are visited. -/
def Reaches (dag : ExprDag Obj Node) (visitUpdates : Bool) : Obj → Obj → Prop :=
  ReflTransGen fun a b => b ∈ dag.partsOf visitUpdates a

end ExprDag

/-- The expressions that the parts of an object stand for. -/
def Expr.partsWith (visitUpdates : Bool) (e : Expr) : List Expr := e.kids ++ if visitUpdates then e.updateParts else []

/-- What the search of the expressions pushes. -/
def Expr.nextReads (visitUpdates : Bool) (e : Expr) : List Expr := (e.partsWith visitUpdates).filter (!·.isConstant)

def Expr.selfIfRead (e : Expr) : List Expr := if e.isRead then [e] else []

/-- The read as an expression. -/
def ReadExpr.toExpr (re : ReadExpr) : Expr := .read re.updates re.index

/-- The nodes of the updates, each with what is left of the list from it on. -/
def UpdateList.updateNodes : UpdateList → List (UpdateNode Expr UpdateList)
  | .root _ => []
  | .extend next index value => ⟨.extend next index value, index, value⟩ :: next.updateNodes

def Expr.updateNodes : Expr → List (UpdateNode Expr UpdateList)
  | .read updates _ => updates.updateNodes
  | _ => []

namespace ExprDag

variable {Obj Node : Type} [DecidableEq Node] {dag : ExprDag Obj Node} {visitUpdates : Bool} {s : ReadSearch Obj Node}
  {e o : Obj} {objects : List Obj}

omit [DecidableEq Node] in
theorem partsOf_structure (dag : ExprDag Obj Node) (visitUpdates : Bool) (o : Obj) :
    (dag.partsOf visitUpdates o).map dag.structureOf = (dag.structureOf o).partsWith visitUpdates := by
  rw [partsOf, Expr.partsWith, List.map_append, dag.getKids_structure]
  cases visitUpdates with
  | false => rfl
  | true => rw [if_pos rfl, if_pos rfl, dag.updates_structure]

/-! ### Pushes -/

/-- The search of the expressions that the objects stand for. -/
def project (dag : ExprDag Obj Node) (s : ReadSearch Obj Node) : Search Expr := ⟨s.visited, s.stack.map dag.structureOf⟩

omit [DecidableEq Node] in
theorem pushes_project : ∀ (objects : List Obj) (s : ReadSearch Obj Node), dag.project (objects.foldl dag.push s) =
    ((objects.map dag.structureOf).filter (!·.isConstant)).foldl Search.push (dag.project s)
  | [], _ => rfl
  | o :: objects, s => by
    rw [List.foldl_cons, pushes_project objects, List.map_cons, push]
    cases hconstant : (dag.structureOf o).isConstant with
    | true =>
      rw [if_pos (.inl rfl), List.filter_cons_of_neg (by simp [hconstant])]
    | false =>
      rw [List.filter_cons_of_pos (by simp [hconstant]), List.foldl_cons, Search.push]
      by_cases hvisited : dag.structureOf o ∈ s.visited
      · rw [if_pos (.inr hvisited), if_pos (show _ ∈ (dag.project s).marked from hvisited)]
      · rw [if_neg (by simp [hvisited]), if_neg (show _ ∉ (dag.project s).marked from hvisited)]
        rfl

omit [DecidableEq Node] in
theorem pushes_kept : ∀ (objects : List Obj) (s : ReadSearch Obj Node),
    (objects.foldl dag.push s).updates = s.updates ∧ (objects.foldl dag.push s).results = s.results
  | [], _ => ⟨rfl, rfl⟩
  | o :: objects, s => by
    rw [List.foldl_cons, push]
    split_ifs
    · exact pushes_kept objects s
    · exact pushes_kept objects _

omit [DecidableEq Node] in
theorem mem_pushes_stack : ∀ (objects : List Obj) (s : ReadSearch Obj Node), o ∈ (objects.foldl dag.push s).stack →
    o ∈ objects ∨ o ∈ s.stack
  | [], _, h => .inr h
  | o' :: objects, s, h => by
    rw [List.foldl_cons] at h
    rcases mem_pushes_stack objects _ h with hmem | hstack
    · exact .inl (List.mem_cons_of_mem o' hmem)
    · rw [push] at hstack
      split_ifs at hstack
      · exact .inr hstack
      · rcases List.mem_cons.mp hstack with rfl | hold
        · exact .inl List.mem_cons_self
        · exact .inr hold

/-! ### One visit -/

/-- The parts of the updates whose heads have been met are constant or marked. -/
def Remembered (dag : ExprDag Obj Node) (s : ReadSearch Obj Node) : Prop :=
  ∀ o, dag.head o ∈ s.updates → ∀ x ∈ (dag.structureOf o).updateParts, x.isConstant = false → x ∈ s.visited

omit [DecidableEq Node] in
theorem mem_pushes_visited {objects : List Obj} {x : Expr} : x ∈ (objects.foldl dag.push s).visited ↔
    (x ∈ objects.map dag.structureOf ∧ x.isConstant = false) ∨ x ∈ s.visited := by
  have hmarked : x ∈ (((objects.map dag.structureOf).filter (!·.isConstant)).foldl Search.push (dag.project s)).marked ↔
      x ∈ (objects.map dag.structureOf).filter (!·.isConstant) ∨ x ∈ (dag.project s).marked := Search.mem_pushes_marked
  rw [← pushes_project, List.mem_filter, Bool.not_eq_true'] at hmarked
  exact hmarked

theorem pushUpdates_project (hs : dag.Remembered s) (o : Obj) : dag.project (dag.pushUpdates s o) =
    ((dag.structureOf o).updateParts.filter (!·.isConstant)).foldl Search.push (dag.project s) := by
  rw [pushUpdates]
  split_ifs with hmet
  · refine (Search.pushes_of_marked fun x hx => ?_).symm
    obtain ⟨hx, hconstant⟩ := List.mem_filter.mp hx
    exact hs o hmet x hx (by simpa using hconstant)
  · rw [pushes_project, dag.updates_structure]
    rfl

omit [DecidableEq Node] in
theorem Remembered.pushes (hs : dag.Remembered s) (objects : List Obj) : dag.Remembered (objects.foldl dag.push s) := by
  intro o ho x hx hconstant
  rw [(pushes_kept objects s).1] at ho
  exact mem_pushes_visited.mpr (.inr (hs o ho x hx hconstant))

theorem Remembered.pushUpdates (hs : dag.Remembered s) (o : Obj) : dag.Remembered (dag.pushUpdates s o) := by
  rw [ExprDag.pushUpdates]
  split_ifs with hmet
  · exact hs
  intro o' ho' x hx hconstant
  rw [(pushes_kept _ _).1] at ho'
  rw [mem_pushes_visited, dag.updates_structure]
  rcases List.mem_cons.mp ho' with heq | hold
  · -- The same head has the same nodes.
    have hparts : (dag.structureOf o').updateParts = (dag.structureOf o).updateParts := by
      rw [← dag.updates_structure o', ← dag.updates_structure o, dag.updates_shared o' o heq]
    exact .inl ⟨hparts ▸ hx, hconstant⟩
  · exact .inr (hs o' hold x hx hconstant)

theorem updateParts_of_not_read {x : Expr} (h : x.isRead = false) : x.updateParts = [] := by
  cases x with
  | read updates index => cases h
  | _ => rfl

theorem pushUpdates_results (s : ReadSearch Obj Node) (o : Obj) : (dag.pushUpdates s o).results = s.results := by
  rw [pushUpdates]
  split_ifs
  · rfl
  · exact (pushes_kept _ _).2

/-- A visit is one of the search on expressions. -/
theorem visit_project {top : Obj} {stack : List Obj} (hs : dag.Remembered s) (hstack : s.stack = top :: stack) :
    dag.project (dag.visit visitUpdates top { s with stack := stack }) =
      (dag.project s).visit (Expr.nextReads visitUpdates) := by
  have hvisit : (dag.project s).visit (Expr.nextReads visitUpdates) =
      (Expr.nextReads visitUpdates (dag.structureOf top)).foldl Search.push ⟨s.visited, stack.map dag.structureOf⟩ := by
    rw [Search.visit, project, hstack]
    rfl
  rw [hvisit, Expr.nextReads, Expr.partsWith, List.filter_append, List.foldl_append, ← dag.getKids_structure, visit]
  cases hread : (dag.structureOf top).isRead with
  | false =>
    rw [if_neg Bool.false_ne_true, pushes_project, updateParts_of_not_read hread, ite_self]
    rfl
  | true =>
    rw [if_pos rfl]
    cases visitUpdates with
    | false =>
      rw [if_neg Bool.false_ne_true, if_neg Bool.false_ne_true, pushes_project]
      rfl
    | true =>
      have hpushes := Remembered.pushes (s := { s with stack := stack, results := s.results ++ [top] }) hs (dag.getKids top)
      rw [if_pos rfl, if_pos rfl, pushUpdates_project hpushes, pushes_project]
      rfl

theorem Remembered.visit {top : Obj} {stack : List Obj} (hs : dag.Remembered s) :
    dag.Remembered (dag.visit visitUpdates top { s with stack := stack }) := by
  rw [ExprDag.visit]
  have hpushes := Remembered.pushes (s := { s with stack := stack, results := s.results ++ [top] }) hs (dag.getKids top)
  split_ifs
  · exact hpushes.pushUpdates top
  · exact hpushes
  · exact Remembered.pushes (s := { s with stack := stack }) hs (dag.getKids top)

theorem visit_results (top : Obj) (s : ReadSearch Obj Node) :
    (dag.visit visitUpdates top s).results = s.results ++ if (dag.structureOf top).isRead then [top] else [] := by
  rw [visit]
  cases hread : (dag.structureOf top).isRead with
  | false =>
    rw [if_neg Bool.false_ne_true, if_neg Bool.false_ne_true, List.append_nil]
    exact (pushes_kept _ _).2
  | true =>
    rw [if_pos rfl, if_pos rfl]
    split_ifs
    · exact (pushUpdates_results _ top).trans (pushes_kept _ _).2
    · exact (pushes_kept _ _).2

theorem mem_visit_stack {top : Obj} (h : o ∈ (dag.visit visitUpdates top s).stack) :
    o ∈ dag.partsOf visitUpdates top ∨ o ∈ s.stack := by
  rw [visit] at h
  rw [partsOf, List.mem_append]
  split_ifs at h with hread hupdates
  · rw [if_pos hupdates]
    rw [pushUpdates] at h
    split_ifs at h
    · exact (mem_pushes_stack _ _ h).imp_left .inl
    · rcases mem_pushes_stack _ _ h with h | h
      · exact .inl (.inr h)
      · exact (mem_pushes_stack _ _ h).imp_left .inl
  · exact (mem_pushes_stack _ _ h).imp_left .inl
  · exact (mem_pushes_stack _ _ h).imp_left .inl

/-! ### The loop -/

/-- The loop finds what the search of the expressions collects. -/
theorem searchReads_eq : ∀ (fuel : Nat) (s : ReadSearch Obj Node), dag.Remembered s →
    ((dag.project s).run (Expr.nextReads visitUpdates) fuel).stack = [] →
    ∃ results, dag.searchReads visitUpdates fuel s = some results ∧ results.map dag.structureOf =
      (dag.project s).collect (Expr.nextReads visitUpdates) Expr.selfIfRead fuel (s.results.map dag.structureOf)
  | 0, s, _, hend => ⟨s.results, if_pos (List.isEmpty_iff.mpr (List.map_eq_nil_iff.mp hend)), rfl⟩
  | fuel + 1, s, hs, hend => by
    rcases hstack : s.stack with _ | ⟨top, stack⟩
    · have hnil : (dag.project s).stack = [] := List.map_eq_nil_iff.mpr hstack
      refine ⟨s.results, by rw [searchReads, hstack], ?_⟩
      rw [Search.collect, hnil]
    · have hvisit : dag.project (dag.visit visitUpdates top { s with stack := stack }) = _ := visit_project hs hstack
      rw [Search.run, ← hvisit] at hend
      obtain ⟨results, hresults, hmap⟩ := searchReads_eq fuel _ hs.visit hend
      refine ⟨results, by rw [searchReads, hstack]; exact hresults, hmap.trans ?_⟩
      have hcons : (dag.project s).stack = dag.structureOf top :: stack.map dag.structureOf := by rw [project, hstack]; rfl
      have htop : (if (dag.structureOf top).isRead then [top] else []).map dag.structureOf = Expr.selfIfRead (dag.structureOf top) := by
        rw [Expr.selfIfRead]
        split_ifs <;> rfl
      rw [Search.collect, hcons, hvisit, visit_results, List.map_append, htop]

theorem searchReads_succ : ∀ (fuel : Nat) (s : ReadSearch Obj Node) (results : List Obj),
    dag.searchReads visitUpdates fuel s = some results → dag.searchReads visitUpdates (fuel + 1) s = some results
  | 0, s, results, h => by
    rw [searchReads] at h
    rw [searchReads]
    rcases hstack : s.stack with _ | ⟨top, stack⟩
    · rwa [hstack] at h
    · rw [hstack] at h
      cases h
  | fuel + 1, s, results, h => by
    rw [searchReads] at h ⊢
    rcases hstack : s.stack with _ | ⟨top, stack⟩
    · rwa [hstack] at h
    · rw [hstack] at h
      exact searchReads_succ fuel _ results h

theorem searchReads_mono {fuel more : Nat} (hle : fuel ≤ more) {results : List Obj}
    (h : dag.searchReads visitUpdates fuel s = some results) : dag.searchReads visitUpdates more s = some results := by
  induction hle with
  | refl => exact h
  | step _ ih => exact searchReads_succ _ s results ih

/-- Only reads that can be reached are found. -/
theorem searchReads_reaches : ∀ (fuel : Nat) (s : ReadSearch Obj Node) {results : List Obj},
    (∀ o ∈ s.stack, dag.Reaches visitUpdates e o) →
    (∀ o ∈ s.results, (dag.structureOf o).isRead = true ∧ dag.Reaches visitUpdates e o) →
    dag.searchReads visitUpdates fuel s = some results →
    ∀ o ∈ results, (dag.structureOf o).isRead = true ∧ dag.Reaches visitUpdates e o
  | 0, s, results, _, hfound, h => by
    rw [searchReads] at h
    split_ifs at h
    exact Option.some.inj h ▸ hfound
  | fuel + 1, s, results, hstack, hfound, h => by
    rw [searchReads] at h
    rcases hs : s.stack with _ | ⟨top, stack⟩
    · rw [hs] at h
      exact Option.some.inj h ▸ hfound
    · rw [hs] at h hstack
      have htop := hstack top List.mem_cons_self
      refine searchReads_reaches fuel _ (fun o ho => ?_) (fun o ho => ?_) h
      · rcases mem_visit_stack ho with hpart | hold
        · exact htop.tail hpart
        · exact hstack o (List.mem_cons_of_mem top hold)
      · rw [visit_results, List.mem_append] at ho
        rcases ho with hold | hnew
        · exact hfound o hold
        · split_ifs at hnew with hread
          · obtain rfl := List.mem_singleton.mp hnew
            exact ⟨hread, htop⟩
          · cases hnew

/-! ### What is found -/

theorem partsWith_subset (x : Expr) : ∀ y ∈ x.partsWith visitUpdates, y ∈ x.parts := by
  intro y hy
  rw [Expr.partsWith, List.mem_append] at hy
  cases x with
  | read updates index =>
    rcases hy with hkid | hupdate
    · rw [Expr.kids, List.mem_singleton] at hkid
      exact hkid ▸ List.mem_cons_self
    · split_ifs at hupdate
      · exact List.mem_cons_of_mem index hupdate
      · cases hupdate
  | _ =>
    rcases hy with hkid | hupdate
    · exact hkid
    · rw [updateParts_of_not_read rfl, ite_self] at hupdate
      cases hupdate

omit [DecidableEq Node] in
/-- Constants have no parts, so a path to another expression has none. -/
theorem reaches_nextReads {a b : Obj} (h : dag.Reaches visitUpdates a b) (hb : (dag.structureOf b).isConstant = false) :
    ReflTransGen (fun x y => y ∈ Expr.nextReads visitUpdates x) (dag.structureOf a) (dag.structureOf b) := by
  induction h with
  | refl => exact .refl
  | @tail b c _ hbc ih =>
    have hpart : dag.structureOf c ∈ (dag.structureOf b).partsWith visitUpdates := by
      rw [← partsOf_structure]
      exact List.mem_map_of_mem hbc
    have hnot : (dag.structureOf b).isConstant = false := by
      rcases hbody : dag.structureOf b with _ | _ | _ | _ | _ | _ | _ | _ | _ | _ | _
      · rw [hbody] at hpart
        exact absurd (partsWith_subset _ _ hpart) List.not_mem_nil
      all_goals rfl
    exact (ih hnot).tail (List.mem_filter.mpr ⟨hpart, by simp [hb]⟩)

theorem isConstant_of_isRead {x : Expr} (h : x.isRead = true) : x.isConstant = false := by
  cases x with
  | constant => cases h
  | _ => rfl

theorem nextReads_closed (visitUpdates : Bool) (x : Expr) :
    ∀ a ∈ x.subexpressions, ∀ b ∈ Expr.nextReads visitUpdates a, b ∈ x.subexpressions := fun a ha b hb =>
  x.subexpressions_closed a ha b (partsWith_subset a b (List.mem_filter.mp hb).1)

/-- An expression that is not constant: the loop ends, and finds what the search of the expressions collects. -/
theorem findReads_eq (dag : ExprDag Obj Node) (visitUpdates : Bool) {e : Obj} (hconstant : (dag.structureOf e).isConstant = false) :
    ∃ results, dag.searchReads visitUpdates (dag.structureOf e).subexpressions.length ⟨[e], [dag.structureOf e], [], []⟩ =
        some results ∧
      results.map dag.structureOf = Search.collect (Expr.nextReads visitUpdates) Expr.selfIfRead
        (dag.structureOf e).subexpressions.length ⟨[dag.structureOf e], [dag.structureOf e]⟩ [] ∧
      ∀ fuel, (dag.structureOf e).subexpressions.length ≤ fuel → dag.findReads visitUpdates fuel e = some results := by
  have hself : dag.structureOf e ∈ (dag.structureOf e).subexpressions := Expr.mem_subexpressions.mpr (.inl rfl)
  obtain ⟨results, hresults, hmap⟩ := searchReads_eq (dag.structureOf e).subexpressions.length
    ⟨[e], [dag.structureOf e], [], []⟩ (fun o ho => absurd ho List.not_mem_nil)
    (Search.run_from_stack (nextReads_closed visitUpdates (dag.structureOf e)) hself)
  refine ⟨results, hresults, hmap, fun fuel hfuel => ?_⟩
  rw [findReads, hconstant, if_neg Bool.false_ne_true]
  exact searchReads_mono hfuel hresults

/-- With enough steps the search ends, and finds the reads that can be reached, each structure once. -/
theorem findReads_exact (dag : ExprDag Obj Node) (visitUpdates : Bool) (e : Obj) :
    ∃ results enough, (∀ fuel, enough ≤ fuel → dag.findReads visitUpdates fuel e = some results) ∧
      (results.map dag.structureOf).Nodup ∧
      (∀ re ∈ results, (dag.structureOf re).isRead = true ∧ dag.Reaches visitUpdates e re) ∧
      ∀ o, dag.Reaches visitUpdates e o → (dag.structureOf o).isRead = true →
        ∃ re ∈ results, dag.structureOf re = dag.structureOf o := by
  cases hconstant : (dag.structureOf e).isConstant with
  | true =>
    refine ⟨[], 0, fun fuel _ => by rw [findReads, hconstant, if_pos rfl], List.nodup_nil, by simp, fun o ho hread => ?_⟩
    rcases (reaches_nextReads ho (isConstant_of_isRead hread)).cases_head with heq | ⟨y, hy, -⟩
    · rw [← heq] at hread
      exact absurd ((isConstant_of_isRead hread).symm.trans hconstant) Bool.false_ne_true
    · have hpart := partsWith_subset _ y (List.mem_filter.mp hy).1
      cases hbody : dag.structureOf e with
      | constant => rw [hbody] at hpart; exact absurd hpart List.not_mem_nil
      | _ => rw [hbody] at hconstant; cases hconstant
  | false =>
    obtain ⟨results, hresults, hmap, henough⟩ := findReads_eq dag visitUpdates hconstant
    refine ⟨results, _, henough, ?_, ?_, fun o ho hread => ?_⟩
    · rw [hmap]
      refine Search.collect_nodup (fun a => ?_) _ (fun _ h => h) (List.nodup_singleton _) (by simp) List.nodup_nil
      rw [Expr.selfIfRead]
      split_ifs
      · exact .inr rfl
      · exact .inl rfl
    · refine searchReads_reaches _ _ (fun o ho => ?_) (by simp) hresults
      obtain rfl := List.mem_singleton.mp ho
      exact .refl
    · have hfound : dag.structureOf o ∈ results.map dag.structureOf := by
        rw [hmap]
        refine (Search.mem_collect (nextReads_closed visitUpdates _) (Expr.mem_subexpressions.mpr (.inl rfl))).mpr
          ⟨_, reaches_nextReads ho (isConstant_of_isRead hread), ?_⟩
        rw [Expr.selfIfRead, if_pos hread]
        exact List.mem_singleton_self _
      exact List.mem_map.mp hfound

/-! ### Trees

The search of the independent solver, which has no addresses, finds the same reads on every heap. -/

theorem nextReads_eq_toVisit : Expr.nextReads true = Expr.toVisit := by
  funext e
  cases e with
  | read updates index => rfl
  | _ => exact congrArg (List.filter _) (List.append_nil _)

theorem toRead_eq_selfIfRead (e : Expr) : e.toRead.toList.map ReadExpr.toExpr = e.selfIfRead := by
  cases e <;> rfl

theorem findReads_structure (dag : ExprDag Obj Node) (e : Obj) :
    ∃ results enough, (∀ fuel, enough ≤ fuel → dag.findReads true fuel e = some results) ∧
      results.map dag.structureOf = (Klee.findReads (dag.structureOf e)).map ReadExpr.toExpr := by
  rw [Klee.findReads]
  cases hconstant : (dag.structureOf e).isConstant with
  | true => exact ⟨[], 0, fun fuel _ => by rw [findReads, hconstant, if_pos rfl], rfl⟩
  | false =>
    obtain ⟨results, -, hmap, henough⟩ := findReads_eq dag true hconstant
    refine ⟨results, _, henough, hmap.trans ?_⟩
    rw [if_neg Bool.false_ne_true, Search.collect_map, nextReads_eq_toVisit]
    simp only [toRead_eq_selfIfRead]
    rfl

/-! ### Full sharing -/

theorem updateNodes_parts (updates : UpdateList) : updates.updateNodes.flatMap UpdateNode.parts = updates.kids := by
  cases updates with
  | root => rfl
  | extend next index value => exact congrArg (index :: value :: ·) (updateNodes_parts next)

/-- The first node has the whole list for its address. -/
theorem updateNodes_shared {updates updates' : UpdateList}
    (h : updates.updateNodes.head?.map UpdateNode.address = updates'.updateNodes.head?.map UpdateNode.address) :
    updates.updateNodes = updates'.updateNodes := by
  cases updates with
  | root => cases updates' with
    | root => rfl
    | extend => cases h
  | extend => cases updates' with
    | root => cases h
    | extend => exact congrArg UpdateList.updateNodes (Option.some.inj h)

theorem exists_updateNodes (e : Expr) : ∃ updates : UpdateList, e.updateNodes = updates.updateNodes := by
  cases e with
  | read updates index => exact ⟨updates, rfl⟩
  | _ => exact ⟨.root ⟨0, 0, 0, 0, []⟩, rfl⟩

/-- What is equal is one object, and a list of updates is its own address. -/
def shared : ExprDag Expr UpdateList where
  structureOf := id
  getKids := Expr.kids
  updates := Expr.updateNodes
  getKids_structure _ := List.map_id _
  updates_structure e := by
    cases e with
    | read updates index => exact (List.map_id _).trans (updateNodes_parts updates)
    | _ => rfl
  updates_shared e e' h := by
    obtain ⟨updates, heq⟩ := exists_updateNodes e
    obtain ⟨updates', heq'⟩ := exists_updateNodes e'
    rw [heq, heq'] at h ⊢
    exact updateNodes_shared h

/-- Reads of an array with two updates and with the first of them only, and of the bytes that the updates store. -/
def sharedTail : Expr :=
  .concat (.read longer (.constant 32 0)) (.concat (.read longer (.constant 32 1)) (.read tail (.constant 32 0)))
where
  byte (i : BitVec 32) : Expr := .read (.root ⟨0, 4, 32, 8, []⟩) (.constant 32 i)
  tail : UpdateList := .extend (.root ⟨0, 4, 32, 8, []⟩) (.constant 32 0) (byte 1)
  longer : UpdateList := .extend tail (.constant 32 1) (byte 2)

/-- The updates of `longer` are walked through once, and `byte 1` is found once although both lists store it. -/
example : shared.findReads true 9 sharedTail = some [.read sharedTail.tail (.constant 32 0), sharedTail.byte 1,
    .read sharedTail.longer (.constant 32 1), sharedTail.byte 2, .read sharedTail.longer (.constant 32 0)] := by decide +kernel

theorem findReads_exact_sharedTail :
    ∃ results enough, (∀ fuel, enough ≤ fuel → shared.findReads true fuel sharedTail = some results) ∧ results.Nodup ∧
      ∀ re, re ∈ results ↔ re.isRead = true ∧ shared.Reaches true sharedTail re := by
  obtain ⟨results, enough, hresults, hnodup, hsound, hcomplete⟩ := findReads_exact shared true sharedTail
  refine ⟨results, enough, hresults, List.map_id results ▸ hnodup, fun re => ⟨hsound re, fun h => ?_⟩⟩
  obtain ⟨re', hmem, rfl⟩ := hcomplete re h.2 h.1
  exact hmem

end ExprDag

end CapTaint.Klee
