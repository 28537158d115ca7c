import CapTaint.Lib.OptionLoop
import CapTaint.Theorems.CachingSolver
import CapTaint.Theorems.Reads
import CapTaint.Klee.IndependentSolver

/-! # The constraints that are left out

Every byte that an expression reads is in its element set. What is left out shares no byte with the closure of the query, so
an assignment for the constraints that are passed on can be continued by one that satisfies all. -/

namespace CapTaint.Klee
open Relation Worklist

variable {v v' : Valuation} {array : Array} {i : Nat} {e : Expr}

/-! ### The parts of an expression -/

theorem UpdateList.sizeOf_lt_of_mem_kids (ul : UpdateList) : ∀ k ∈ ul.kids, sizeOf k < sizeOf ul := by
  rcases ul with array | ⟨next, index, value⟩
  · exact fun k hk => absurd hk List.not_mem_nil
  intro k hk
  rw [UpdateList.extend.sizeOf_spec]
  rcases List.mem_cons.mp hk with rfl | hk
  · omega
  rcases List.mem_cons.mp hk with rfl | hk
  · omega
  · have := UpdateList.sizeOf_lt_of_mem_kids next k hk
    omega

theorem Expr.sizeOf_lt_of_mem_parts {k : Expr} (hk : k ∈ e.parts) : sizeOf k < sizeOf e := by
  cases e with
  | read ul index =>
    rw [Expr.read.sizeOf_spec]
    rcases List.mem_cons.mp hk with rfl | hk
    · omega
    · have := ul.sizeOf_lt_of_mem_kids k hk
      omega
  | constant => cases hk
  | _ =>
    simp only [Expr.parts, Expr.kids, List.mem_cons, List.not_mem_nil, or_false] at hk
    rcases hk with rfl | rfl | rfl <;> simp +arith

theorem UpdateList.mem_subexpressions (ul : UpdateList) :
    e ∈ ul.subexpressions ↔ ∃ k ∈ ul.kids, e ∈ k.subexpressions := by
  rcases ul with array | ⟨next, index, value⟩
  · simp [UpdateList.subexpressions, UpdateList.kids]
  · rw [UpdateList.subexpressions, List.mem_append, List.mem_append, UpdateList.mem_subexpressions next]
    simp [UpdateList.kids, or_assoc]

theorem Expr.mem_subexpressions {a : Expr} : a ∈ e.subexpressions ↔ a = e ∨ ∃ k ∈ e.parts, a ∈ k.subexpressions := by
  cases e <;> simp [Expr.subexpressions, Expr.parts, Expr.kids, UpdateList.mem_subexpressions]

theorem Expr.subexpressions_closed (e : Expr) : ∀ a ∈ e.subexpressions, ∀ b ∈ a.parts, b ∈ e.subexpressions := by
  intro a ha b hb
  rw [Expr.mem_subexpressions] at ha ⊢
  rcases ha with rfl | ⟨k, hk, hak⟩
  · exact .inr ⟨b, hb, Expr.mem_subexpressions.mpr (.inl rfl)⟩
  · exact .inr ⟨k, hk, k.subexpressions_closed a hak b hb⟩
termination_by sizeOf e
decreasing_by exact Expr.sizeOf_lt_of_mem_parts hk

theorem UpdateList.WellTyped.kid : (ul : UpdateList) → ul.WellTyped → ∀ k ∈ ul.kids, k.WellTyped
  | .root _, _ => nofun
  | .extend next index value, h => by
    obtain ⟨hnext, hindex, hvalue, -⟩ := h
    intro k hk
    rcases List.mem_cons.mp hk with rfl | hk
    · exact hindex
    rcases List.mem_cons.mp hk with rfl | hk
    · exact hvalue
    · exact UpdateList.WellTyped.kid next hnext k hk

theorem Expr.WellTyped.part (h : e.WellTyped) {k : Expr} (hk : k ∈ e.parts) : k.WellTyped := by
  cases e with
  | read ul index =>
    rcases List.mem_cons.mp hk with rfl | hk
    · exact h.2.1
    · exact h.1.kid ul k hk
  | constant => cases hk
  | _ =>
    simp only [Expr.parts, Expr.kids, List.mem_cons, List.not_mem_nil, or_false] at hk
    simp only [Expr.WellTyped] at h
    rcases hk with rfl | rfl | rfl <;> tauto

theorem UpdateList.Reads.kid : (ul : UpdateList) → {n : Nat} → ul.Reads v array i n →
    (ul.array = array ∧ n = i) ∨ ∃ k ∈ ul.kids, k.Reads v array i
  | .root _, _, h => .inl h
  | .extend next index value, _, h => by
    rcases h with hindex | hvalue | hnext
    · exact .inr ⟨index, List.mem_cons_self, hindex⟩
    · exact .inr ⟨value, List.mem_cons_of_mem _ List.mem_cons_self, hvalue⟩
    · refine (UpdateList.Reads.kid next hnext).imp_right fun ⟨k, hk, hreads⟩ => ?_
      exact ⟨k, List.mem_cons_of_mem _ (List.mem_cons_of_mem _ hk), hreads⟩

/-- An element is read by the expression itself or by a part. -/
theorem Expr.Reads.part (h : e.Reads v array i) :
    (∃ ul index, e = .read ul index ∧ ul.array = array ∧ index.value v = i) ∨ ∃ k ∈ e.parts, k.Reads v array i := by
  cases e with
  | read ul index =>
    rcases h with hindex | hul
    · exact .inr ⟨index, List.mem_cons_self, hindex⟩
    rcases hul.kid ul with hroot | ⟨k, hk, hreads⟩
    · exact .inl ⟨ul, index, rfl, hroot⟩
    · exact .inr ⟨k, List.mem_cons_of_mem _ hk, hreads⟩
  | constant => exact h.elim
  | _ => exact .inr (by simpa [Expr.parts, Expr.kids, Expr.Reads] using h)

/-! ### The reads that are found -/

/-- What a search visits from an expression on. -/
def Expr.Visits : Expr → Expr → Prop := ReflTransGen fun a b => b ∈ a.toVisit

theorem mem_findReads {re : ReadExpr} (he : e.isConstant = false) :
    re ∈ findReads e ↔ e.Visits (.read re.updates re.index) := by
  have hclosed : ∀ a ∈ e.subexpressions, ∀ b ∈ a.toVisit, b ∈ e.subexpressions := fun a ha b hb =>
    e.subexpressions_closed a ha b (List.mem_filter.mp hb).1
  rw [findReads, he, if_neg Bool.false_ne_true, Search.mem_collect hclosed (Expr.mem_subexpressions.mpr (.inl rfl))]
  constructor
  · rintro ⟨a, hpath, hre⟩
    cases a with
    | read ul index =>
      obtain rfl : re = ⟨ul, index⟩ := List.mem_singleton.mp hre
      exact hpath
    | _ => cases hre
  · exact fun hpath => ⟨_, hpath, List.mem_singleton_self re⟩

/-- Every element is read by a read that is found. -/
theorem exists_mem_findReads (h : e.Reads v array i) : ∃ re ∈ findReads e, re.updates.array = array ∧ re.index.value v = i := by
  have hvisit : ∀ e : Expr, e.Reads v array i →
      ∃ ul index, e.Visits (.read ul index) ∧ ul.array = array ∧ index.value v = i := by
    intro e
    induction hn : sizeOf e using Nat.strong_induction_on generalizing e with
    | _ n ih =>
      intro h
      rcases h.part with ⟨ul, index, rfl, hread⟩ | ⟨k, hk, hkid⟩
      · exact ⟨ul, index, .refl, hread⟩
      · obtain ⟨ul, index, hpath, hread⟩ := ih _ (hn ▸ Expr.sizeOf_lt_of_mem_parts hk) k rfl hkid
        have hconstant : k.isConstant = false := by
          cases k with
          | constant => exact hkid.elim
          | _ => rfl
        exact ⟨ul, index, .head (List.mem_filter.mpr ⟨hk, by rw [hconstant]; rfl⟩) hpath, hread⟩
  obtain ⟨ul, index, hpath, hread⟩ := hvisit e h
  have hconstant : e.isConstant = false := by
    cases e with
    | constant => exact h.elim
    | _ => rfl
  exact ⟨⟨ul, index⟩, (mem_findReads hconstant).mpr hpath, hread⟩

theorem findReads_wellTyped (h : e.WellTyped) {re : ReadExpr} (hre : re ∈ findReads e) :
    (Expr.read re.updates re.index).WellTyped := by
  by_cases hconstant : e.isConstant = true
  · rw [findReads, if_pos hconstant] at hre
    cases hre
  have hpath := (mem_findReads (Bool.eq_false_of_not_eq_true hconstant)).mp hre
  have hvisit : ∀ a, e.Visits a → a.WellTyped := by
    intro a hpath
    induction hpath with
    | refl => exact h
    | tail _ hmem ih => exact ih.part (List.mem_filter.mp hmem).1
  exact hvisit _ hpath

/-! ### Element sets -/

namespace IndependentElementSet

variable {s s' b : IndependentElementSet}

/-- The byte, or the whole array, is in the set. -/
def Covers (s : IndependentElementSet) (array : Array) (i : Nat) : Prop :=
  array ∈ s.wholeObjects ∨ ∃ dis, s.elements.lookup array = some dis ∧ i ∈ dis

/-- What is in the set stays in it. -/
def Extends (s s' : IndependentElementSet) : Prop := ∀ array i, s.Covers array i → s'.Covers array i

theorem covers_insert {dis : Finset Nat} (hi : i ∈ dis) : Covers { s with elements := s.elements.insert array dis } array i :=
  .inr ⟨dis, AList.lookup_insert _, hi⟩

theorem insert_extends {dis : Finset Nat} (hdis : (s.elements.lookup array).getD ∅ ⊆ dis) :
    s.Extends { s with elements := s.elements.insert array dis } := by
  rintro other i (hwhole | ⟨old, hold, hi⟩)
  · exact .inl hwhole
  by_cases hother : other = array
  · subst hother
    rw [hold] at hdis
    exact covers_insert (hdis hi)
  · exact .inr ⟨old, (AList.lookup_insert_ne hother).trans hold, hi⟩

theorem covers_whole : Covers ⟨s.elements.erase array, s.wholeObjects.insert array⟩ array i :=
  .inl List.mem_insert_self

theorem whole_extends : s.Extends ⟨s.elements.erase array, s.wholeObjects.insert array⟩ := by
  rintro other i (hwhole | ⟨old, hold, hi⟩)
  · exact .inl (List.mem_insert_of_mem hwhole)
  by_cases hother : other = array
  · subst hother
    exact covers_whole
  · exact .inr ⟨old, (AList.lookup_erase_ne hother).trans hold, hi⟩

/-! ### The constructor -/

/-- A constant index fits into `unsigned`. -/
def Indexed (re : ReadExpr) : Prop := ∀ width value, re.index = .constant width value → width ≤ 32

theorem addRead_spec (s : IndependentElementSet) {re : ReadExpr} (hre : Indexed re) :
    ∃ s', s.addRead re = .ok s' ∧ s.Extends s' ∧
      (re.updates.array.isSymbolicArray = true → ∀ v, s'.Covers re.updates.array (re.index.value v)) := by
  unfold addRead
  dsimp only
  split
  case isTrue hconstant =>
    refine ⟨s, rfl, fun _ _ h => h, fun hsymbolic => ?_⟩
    rw [Array.isConstantArray, hsymbolic] at hconstant
    exact absurd hconstant.1 Bool.false_ne_true
  split
  case isTrue hwhole => exact ⟨s, rfl, fun _ _ h => h, fun _ _ => .inl hwhole⟩
  split
  case h_1 width value hindex =>
    rw [if_pos (hre width value hindex)]
    refine ⟨_, rfl, insert_extends (Finset.subset_insert _ _), fun _ v => ?_⟩
    rw [hindex]
    exact covers_insert (Finset.mem_insert_self _ _)
  case h_2 => exact ⟨_, rfl, whole_extends, fun _ _ => covers_whole⟩

theorem foldlM_addRead (reads : List ReadExpr) : ∀ s : IndependentElementSet, (∀ re ∈ reads, Indexed re) →
    ∃ s', reads.foldlM addRead s = .ok s' ∧ s.Extends s' ∧
      ∀ re ∈ reads, re.updates.array.isSymbolicArray = true → ∀ v, s'.Covers re.updates.array (re.index.value v) := by
  induction reads with
  | nil => exact fun s _ => ⟨s, rfl, fun _ _ h => h, nofun⟩
  | cons re reads ih =>
    intro s hreads
    obtain ⟨hre, hreads⟩ := List.forall_mem_cons.mp hreads
    obtain ⟨s₁, hs₁, hextends, hcovers⟩ := s.addRead_spec hre
    obtain ⟨s', hs', hextends', hcovers'⟩ := ih s₁ hreads
    refine ⟨s', ?_, fun a i h => hextends' a i (hextends a i h), List.forall_mem_cons.mpr ⟨?_, hcovers'⟩⟩
    · rw [List.foldlM_cons, hs₁]
      exact hs'
    · exact fun hsymbolic v => hextends' _ _ (hcovers hsymbolic v)

/-- Every byte of a symbolic array that the expression reads is in the set. -/
def CoversReads (s : IndependentElementSet) (e : Expr) : Prop :=
  ∀ v array i, array.isSymbolicArray = true → e.Reads v array i → s.Covers array i

theorem ofExpr_spec (hreads : ∀ re ∈ findReads e, Indexed re) : ∃ s, ofExpr e = .ok s ∧ s.CoversReads e := by
  obtain ⟨s, hs, -, hcovers⟩ := foldlM_addRead (findReads e) ⟨∅, []⟩ hreads
  refine ⟨s, hs, fun v array i hsymbolic hread => ?_⟩
  obtain ⟨re, hre, rfl, rfl⟩ := exists_mem_findReads hread
  exact hcovers re hre hsymbolic v

/-! ### Intersection and union -/

theorem intersects_of_covers (hs : s.Covers array i) (hb : b.Covers array i) : s.intersects b = true := by
  rw [intersects, Bool.or_eq_true, List.any_eq_true, List.any_eq_true]
  rcases hs with hwhole | ⟨dis, hdis, hi⟩
  · refine .inl ⟨array, hwhole, decide_eq_true ?_⟩
    refine hb.imp_right fun ⟨dis, hdis, _⟩ => ?_
    rw [← AList.lookup_isSome, hdis]
    rfl
  · refine .inr ⟨⟨array, dis⟩, AList.mem_lookup_iff.mp hdis, decide_eq_true ?_⟩
    refine hb.imp_right fun ⟨dis', hdis', hi'⟩ => ?_
    rw [hdis', Option.getD_some, Finset.not_disjoint_iff]
    exact ⟨i, hi, hi'⟩

/-- What a step of `add` does: nothing is lost, and nothing is new unless `modified` says so. -/
structure Adds (s s' : IndependentElementSet × Bool) : Prop where
  kept : s.1.Extends s'.1
  unmodified : s'.2 = false → s.2 = false ∧ s'.1.Extends s.1

theorem Adds.refl (s : IndependentElementSet × Bool) : Adds s s := ⟨fun _ _ h => h, fun h => ⟨h, fun _ _ h => h⟩⟩

theorem Adds.trans {s s' s'' : IndependentElementSet × Bool} (h : Adds s s') (h' : Adds s' s'') : Adds s s'' where
  kept a i hs := h'.kept a i (h.kept a i hs)
  unmodified hs'' := by
    obtain ⟨hs', hback'⟩ := h'.unmodified hs''
    obtain ⟨hs, hback⟩ := h.unmodified hs'
    exact ⟨hs, fun a i ha => hback a i (hback' a i ha)⟩

theorem foldl_adds {β : Type} {f : IndependentElementSet × Bool → β → IndependentElementSet × Bool}
    (hf : ∀ s x, Adds s (f s x)) (l : List β) (s : IndependentElementSet × Bool) : Adds s (l.foldl f s) := by
  induction l generalizing s with
  | nil => exact .refl s
  | cons x l ih => exact (hf s x).trans (ih _)

/-- Each step adds to what the loop returns. -/
theorem exists_foldl_adds {β : Type} {f : IndependentElementSet × Bool → β → IndependentElementSet × Bool}
    (hf : ∀ s x, Adds s (f s x)) {l : List β} {x : β} (hx : x ∈ l) (s : IndependentElementSet × Bool) :
    ∃ s', Adds (f s' x) (l.foldl f s) := by
  induction l generalizing s with
  | nil => cases hx
  | cons y l ih =>
    rcases List.mem_cons.mp hx with rfl | hx
    · exact ⟨s, foldl_adds hf l _⟩
    · exact ih hx _

theorem addWhole_adds (s : IndependentElementSet × Bool) (array : Array) : Adds s (addWhole s array) := by
  unfold addWhole
  split
  case isTrue => exact ⟨whole_extends, nofun⟩
  split
  case isTrue hnew =>
    refine ⟨?_, nofun⟩
    rintro other i (hwhole | hdis)
    · exact .inl (List.mem_insert_of_mem hwhole)
    · exact .inr hdis
  case isFalse => exact .refl s

theorem addWhole_covers (s : IndependentElementSet × Bool) : (addWhole s array).1.Covers array i := by
  unfold addWhole
  split
  case isTrue => exact covers_whole
  split
  case isTrue => exact .inl List.mem_insert_self
  case isFalse h => exact .inl (not_not.mp h)

theorem addElements_adds (s : IndependentElementSet × Bool) (array : Array) (dis : Finset Nat) :
    Adds s (addElements s array dis) := by
  unfold addElements
  split
  case isTrue => exact .refl s
  split
  case h_1 hnone => exact ⟨insert_extends (by rw [hnone]; exact Finset.empty_subset _), nofun⟩
  case h_2 old hold =>
    refine ⟨insert_extends (by rw [hold]; exact Finset.subset_union_left), fun hunmodified => ?_⟩
    obtain ⟨hs, hdis⟩ := Bool.or_eq_false_iff.mp hunmodified
    have hsub : dis ⊆ old := by simpa using hdis
    refine ⟨hs, ?_⟩
    rintro other i (hwhole | ⟨found, hfound, hi⟩)
    · exact .inl hwhole
    by_cases hother : other = array
    · subst hother
      rw [AList.lookup_insert, Option.some.injEq] at hfound
      rw [← hfound, Finset.union_eq_left.mpr hsub] at hi
      exact .inr ⟨old, hold, hi⟩
    · exact .inr ⟨found, (AList.lookup_insert_ne hother).symm.trans hfound, hi⟩

theorem addElements_covers (s : IndependentElementSet × Bool) {dis : Finset Nat} (hi : i ∈ dis) :
    (addElements s array dis).1.Covers array i := by
  unfold addElements
  split
  case isTrue hwhole => exact .inl hwhole
  split
  case h_1 => exact covers_insert hi
  case h_2 => exact covers_insert (Finset.mem_union_right _ hi)

theorem add_adds (s b : IndependentElementSet) : Adds (s, false) (s.add b) :=
  (foldl_adds addWhole_adds _ _).trans (foldl_adds (fun s _ => addElements_adds s _ _) _ _)

theorem add_covers (s : IndependentElementSet) (h : b.Covers array i) : (s.add b).1.Covers array i := by
  have helements := fun s : IndependentElementSet × Bool =>
    foldl_adds (fun s (entry : Sigma fun _ : Array => Finset Nat) => addElements_adds s entry.1 entry.2) b.elements.entries s
  rcases h with hwhole | ⟨dis, hdis, hi⟩
  · obtain ⟨s', hs'⟩ := exists_foldl_adds addWhole_adds hwhole (s, false)
    exact (helements _).kept _ _ (hs'.kept _ _ (addWhole_covers s'))
  · obtain ⟨s', hs'⟩ := exists_foldl_adds
      (fun s (entry : Sigma fun _ : Array => Finset Nat) => addElements_adds s entry.1 entry.2)
      (AList.mem_lookup_iff.mp hdis) (b.wholeObjects.foldl addWhole (s, false))
    exact hs'.kept _ _ (addElements_covers s' hi)

end IndependentElementSet

/-! ### The selected constraints -/

open IndependentElementSet

variable {query : Query} {closure closure' : IndependentElementSet} {result : List Expr}
  {worklist rest : List (Expr × IndependentElementSet)}

/-- The constraints are distributed over `result` and the worklist, and the closure has what the query expression and the
    constraints in `result` read. -/
structure Selected (query : Query) (closure : IndependentElementSet) (result : List Expr)
    (worklist : List (Expr × IndependentElementSet)) : Prop where
  expr : closure.CoversReads query.expr
  taken : ∀ c ∈ result, closure.CoversReads c
  entries : ∀ entry ∈ worklist, entry.2.CoversReads entry.1
  mem : ∀ c, c ∈ query.constraints ↔ c ∈ result ∨ c ∈ worklist.map Prod.fst

/-- No entry shares a byte with the closure. -/
def Apart (closure : IndependentElementSet) (worklist : List (Expr × IndependentElementSet)) : Prop :=
  ∀ entry ∈ worklist, ∀ array i, entry.2.Covers array i → ¬closure.Covers array i

theorem Apart.mono (h : Apart closure worklist) (hback : closure'.Extends closure) : Apart closure' worklist :=
  fun entry hentry array i hcovers hclosure => h entry hentry array i hcovers (hback array i hclosure)

/-- The state of the inner loop that has `rest` before it. -/
structure Selection.Inv (query : Query) (st : Selection) (rest : List (Expr × IndependentElementSet)) : Prop where
  selected : Selected query st.eltsClosure st.result (st.newWorklist ++ rest)
  apart : st.done = true → Apart st.eltsClosure st.newWorklist

theorem Selection.Inv.examine {st : Selection} {entry : Expr × IndependentElementSet} (h : st.Inv query (entry :: rest)) :
    (st.examine entry).Inv query rest := by
  have hentry : entry.2.CoversReads entry.1 := h.selected.entries entry (List.mem_append_right _ List.mem_cons_self)
  unfold Selection.examine
  split
  case isTrue =>
    have hadds := add_adds st.eltsClosure entry.2
    refine ⟨⟨?_, ?_, ?_, fun c => ?_⟩, fun hdone => ?_⟩
    · exact fun v array i hsymbolic hread => hadds.kept array i (h.selected.expr v array i hsymbolic hread)
    · intro c hc v array i hsymbolic hread
      rcases List.mem_append.mp hc with hold | hnew
      · exact hadds.kept array i (h.selected.taken c hold v array i hsymbolic hread)
      · obtain rfl := List.mem_singleton.mp hnew
        exact add_covers _ (hentry v array i hsymbolic hread)
    · intro entry' hentry'
      refine h.selected.entries entry' ?_
      rcases List.mem_append.mp hentry' with hnew | hrest
      · exact List.mem_append_left _ hnew
      · exact List.mem_append_right _ (List.mem_cons_of_mem _ hrest)
    · rw [h.selected.mem c]
      simp only [List.map_append, List.map_cons, List.mem_append, List.mem_cons, List.not_mem_nil, or_false]
      tauto
    · obtain ⟨hbefore, hunmodified⟩ := (Bool.and_eq_true _ _).mp hdone
      have hback := (hadds.unmodified (Bool.not_eq_true' _ |>.mp hunmodified)).2
      exact (h.apart hbefore).mono hback
  case isFalse hintersects =>
    refine ⟨⟨h.selected.expr, h.selected.taken, ?_, ?_⟩, fun hdone => ?_⟩
    · exact fun entry' hentry' => h.selected.entries entry' (by simpa using hentry')
    · exact fun c => (h.selected.mem c).trans (by simp)
    · intro entry' hentry'
      rcases List.mem_append.mp hentry' with hold | hnew
      · exact h.apart hdone entry' hold
      · obtain rfl := List.mem_singleton.mp hnew
        exact fun array i hcovers hclosure => hintersects (intersects_of_covers hcovers hclosure)

theorem Selection.Inv.foldl {st : Selection} (h : st.Inv query rest) : (rest.foldl Selection.examine st).Inv query [] := by
  induction rest generalizing st with
  | nil => exact h
  | cons entry rest ih => exact ih h.examine

theorem Selection.examine_cases (st : Selection) (entry : Expr × IndependentElementSet) :
    (st.examine entry).newWorklist = st.newWorklist ∨
      ((st.examine entry).newWorklist = st.newWorklist ++ [entry] ∧ (st.examine entry).done = st.done) := by
  unfold Selection.examine
  split
  · exact .inl rfl
  · exact .inr ⟨rfl, rfl⟩

/-- A round selects an entry unless it is the last. -/
theorem Selection.length_foldl (rest : List (Expr × IndependentElementSet)) (st : Selection) :
    (rest.foldl Selection.examine st).newWorklist.length ≤ st.newWorklist.length + rest.length ∧
      (st.done = true → (rest.foldl Selection.examine st).done = false →
        (rest.foldl Selection.examine st).newWorklist.length < st.newWorklist.length + rest.length) := by
  induction rest generalizing st with
  | nil => exact ⟨Nat.le_refl _, fun hdone hnot => absurd (hdone.symm.trans hnot) Bool.noConfusion⟩
  | cons entry rest ih =>
    obtain ⟨hle, hlt⟩ := ih (st.examine entry)
    rw [List.foldl_cons, List.length_cons]
    rcases Selection.examine_cases st entry with hsame | ⟨happend, hdone⟩
    · rw [hsame] at hle
      exact ⟨by omega, fun _ _ => by omega⟩
    · rw [happend, List.length_append, List.length_singleton] at hle hlt
      rw [hdone] at hlt
      exact ⟨by omega, fun h hnot => by have := hlt h hnot; omega⟩

theorem selectLoop_spec (fuel : Nat) (h : Selected query closure result worklist) (hfuel : worklist.length < fuel) :
    ∃ closure' result' rest, selectLoop fuel closure result worklist = .ok (closure', result') ∧
      Selected query closure' result' rest ∧ Apart closure' rest := by
  induction fuel generalizing closure result worklist with
  | zero => exact absurd hfuel (Nat.not_lt_zero _)
  | succ fuel ih =>
    have hstart : Selection.Inv query ⟨closure, result, [], true⟩ worklist := ⟨h, fun _ => nofun⟩
    have hinv := hstart.foldl
    have hlength := (Selection.length_foldl worklist ⟨closure, result, [], true⟩).2 rfl
    rw [selectLoop]
    generalize worklist.foldl Selection.examine ⟨closure, result, [], true⟩ = st at hinv hlength
    have hselected := hinv.selected
    rw [List.append_nil] at hselected
    split
    case isTrue hdone => exact ⟨_, _, st.newWorklist, rfl, hselected, hinv.apart hdone⟩
    case isFalse hdone =>
      have hlt := hlength (Bool.eq_false_of_not_eq_true hdone)
      rw [List.length_nil, Nat.zero_add] at hlt
      exact ih hselected (Nat.lt_of_lt_of_le hlt (Nat.le_of_lt_succ hfuel))

/-! ### Continuing an assignment -/

open Classical in
/-- `v` where the closure is, `v'` elsewhere. -/
noncomputable def continued (closure : IndependentElementSet) (v v' : Valuation) : Valuation := fun array i =>
  if closure.Covers array i then v array i else v' array i

theorem initial_congr (h : array.isSymbolicArray = true → v array i = v' array i) : array.initial v i = array.initial v' i := by
  unfold Array.initial
  split
  · rfl
  case isFalse hconstant =>
    rw [h (by simpa [Array.isConstantArray] using hconstant)]

theorem value_continued (h : closure.CoversReads e) : e.value (continued closure v v') = e.value v := by
  refine (Expr.value_congr e fun array i hread => initial_congr fun hsymbolic => ?_).symm
  rw [continued, if_pos (h v array i hsymbolic hread)]

theorem value_continued_apart {entry : Expr × IndependentElementSet} (hentry : entry.2.CoversReads entry.1)
    (hapart : ∀ array i, entry.2.Covers array i → ¬closure.Covers array i) :
    entry.1.value (continued closure v v') = entry.1.value v' := by
  refine (Expr.value_congr entry.1 fun array i hread => initial_congr fun hsymbolic => ?_).symm
  rw [continued, if_neg (hapart array i (hentry v' array i hsymbolic hread))]

/-- What satisfies the constraints in `result` can be continued by what satisfies all constraints. -/
theorem Selected.continued (h : Selected query closure result rest) (hapart : Apart closure rest)
    (hv : ∀ c ∈ result, c.Holds v) (hv' : query.Satisfies v') :
    query.Satisfies (continued closure v v') ∧ query.expr.value (continued closure v v') = query.expr.value v := by
  refine ⟨fun c hc => ?_, value_continued h.expr⟩
  rcases (h.mem c).mp hc with hresult | hrest
  · rw [Expr.Holds, value_continued (h.taken c hresult)]
    exact hv c hresult
  · obtain ⟨entry, hentry, rfl⟩ := List.mem_map.mp hrest
    rw [Expr.Holds, value_continued_apart (h.entries entry hentry) (hapart entry hentry)]
    exact hv' entry.1 hc

/-! ### The wrapped solver -/

/-- The values that a solver computes are taken by the expression. -/
def SolverImpl.Evaluates {σ : Type} (impl : SolverImpl σ) : Prop :=
  ∀ (query : Query) (s : σ) (value : Expr), (∀ c ∈ query.constraints, c.Typed 1) → query.expr.WellTyped → query.Satisfiable →
    (impl.computeValue query s).1 = some value →
    ∃ v, query.Satisfies v ∧ value = .constant query.expr.getWidth (query.expr.bits v _)

/-- The indices of the arrays that are read have at most 32 bits. -/
def Query.Indexed (query : Query) : Prop :=
  ∀ e ∈ query.expr :: query.constraints, ∀ re ∈ findReads e, re.updates.array.domain ≤ 32

instance (query : Query) : Decidable query.Indexed := inferInstanceAs (Decidable (∀ e ∈ _, _))

namespace IndependentSolver

variable {σ : Type}

/-- The query that is passed on stands for the whole query. -/
structure Stands (required query : Query) : Prop where
  expr : required.expr = query.expr
  subset : required.constraints ⊆ query.constraints
  continues : ∀ v, required.Satisfies v → ∃ v', query.Satisfies v' ∧ query.expr.value v' = query.expr.value v

theorem ofExpr_coversReads (htyped : e.WellTyped) (hindexed : ∀ re ∈ findReads e, re.updates.array.domain ≤ 32) :
    ∃ s, IndependentElementSet.ofExpr e = .ok s ∧ s.CoversReads e := by
  refine ofExpr_spec fun re hre width value hindex => ?_
  have hread := (findReads_wellTyped htyped hre).2.2
  rw [hindex] at hread
  exact hread.le.trans (hindexed re hre)

theorem mapM_ofExpr (es : List Expr)
    (h : ∀ e ∈ es, e.WellTyped ∧ ∀ re ∈ findReads e, re.updates.array.domain ≤ 32) :
    ∃ sets, es.mapM IndependentElementSet.ofExpr = .ok sets ∧ (es.zip sets).map Prod.fst = es ∧
      ∀ entry ∈ es.zip sets, entry.2.CoversReads entry.1 := by
  induction es with
  | nil => exact ⟨[], rfl, rfl, nofun⟩
  | cons e es ih =>
    obtain ⟨⟨htyped, hindexed⟩, hes⟩ := List.forall_mem_cons.mp h
    obtain ⟨s, hs, hcovers⟩ := ofExpr_coversReads htyped hindexed
    obtain ⟨sets, hsets, hfst, hentries⟩ := ih hes
    refine ⟨s :: sets, ?_, ?_, ?_⟩
    · rw [List.mapM_cons, hs, hsets]
      rfl
    · rw [List.zip_cons_cons, List.map_cons, hfst]
    · rw [List.zip_cons_cons]
      exact List.forall_mem_cons.mpr ⟨hcovers, hentries⟩

/-- The loop takes constraints until what is left does not touch what they read. -/
theorem required_selected (hconstraints : ∀ c ∈ query.constraints, c.Typed 1) (hexpr : query.expr.WellTyped)
    (hindexed : query.Indexed) :
    ∃ closure result rest, required query = .ok ⟨result, query.expr⟩ ∧ Selected query closure result rest ∧
      Apart closure rest := by
  obtain ⟨hindex, hindices⟩ := List.forall_mem_cons.mp hindexed
  obtain ⟨closure, hclosure, hcovers⟩ := ofExpr_coversReads hexpr hindex
  obtain ⟨sets, hsets, hfst, hentries⟩ := mapM_ofExpr query.constraints fun c hc => ⟨(hconstraints c hc).wellTyped, hindices c hc⟩
  have hstart : Selected query closure [] (query.constraints.zip sets) :=
    ⟨hcovers, nofun, hentries, fun c => by rw [hfst]; exact (or_iff_right nofun).symm⟩
  have hlength : (query.constraints.zip sets).length < query.constraints.length + 1 := by
    rw [← congrArg List.length hfst, List.length_map]
    exact Nat.lt_succ_self _
  obtain ⟨closure', result, rest, hloop, hselected, hapart⟩ := selectLoop_spec _ hstart hlength
  refine ⟨closure', result, rest, ?_, hselected, hapart⟩
  simp only [required, getIndependentConstraints, hclosure, hsets, hloop, bind, Except.bind]
  rfl

theorem required_spec (hconstraints : ∀ c ∈ query.constraints, c.Typed 1) (hexpr : query.expr.WellTyped)
    (hindexed : query.Indexed) (hsatisfiable : query.Satisfiable) :
    ∃ q, required query = .ok q ∧ Stands q query := by
  obtain ⟨closure, result, rest, hok, hselected, hapart⟩ := required_selected hconstraints hexpr hindexed
  obtain ⟨v', hv'⟩ := hsatisfiable
  refine ⟨⟨result, query.expr⟩, hok, rfl, fun c hc => (hselected.mem c).mpr (.inl hc), fun v hv => ?_⟩
  exact ⟨continued closure v v', hselected.continued hapart hv hv'⟩

section
variable {required : Query} (h : Stands required query)
include h

theorem Stands.satisfies (hv : query.Satisfies v) : required.Satisfies v := fun c hc => hv c (h.subset hc)

/-- A property of the value that holds under the constraints passed on is one that holds under all constraints. -/
theorem Stands.forall_iff (P : Nat → Prop) :
    (∀ v, required.Satisfies v → P (required.expr.value v)) ↔ ∀ v, query.Satisfies v → P (query.expr.value v) := by
  rw [h.expr]
  refine ⟨fun hall v hv => hall v (h.satisfies hv), fun hall v hv => ?_⟩
  obtain ⟨v', hv', hvalue⟩ := h.continues v hv
  rw [← hvalue]
  exact hall v' hv'

theorem Stands.valid_iff : required.Valid ↔ query.Valid := h.forall_iff (· = 1)

theorem Stands.refuted_iff : required.Refuted ↔ query.Refuted := h.forall_iff (¬· = 1)

theorem Stands.hasValidity_iff (validity : Validity) : required.HasValidity validity ↔ query.HasValidity validity := by
  cases validity with
  | True => exact h.valid_iff
  | False => exact h.refuted_iff
  | Unknown => exact and_congr (not_congr h.valid_iff) (not_congr h.refuted_iff)

end

/-! ### The answers -/

/-- The answers of the solver are those of the wrapped solver to the constraints that are selected, and right for the query
    with all its constraints. -/
structure Transparent (impl : SolverImpl σ) (query : Query) (s : σ) (selected : Query) : Prop where
  selects : ∃ closure, getIndependentConstraints query = .ok (closure, selected.constraints)
  expr : selected.expr = query.expr
  valid_iff : selected.Valid ↔ query.Valid
  hasValidity_iff : ∀ validity, selected.HasValidity validity ↔ query.HasValidity validity
  truth : computeTruth impl query s = .ok (impl.computeTruth selected s)
  truth_right : query.expr.getWidth = 1 → ∀ isValid, (impl.computeTruth selected s).1 = some isValid →
    (isValid = true ↔ query.Valid)
  validity : computeValidity impl query s = .ok (impl.computeValidity selected s)
  validity_right : query.expr.getWidth = 1 → ∀ result, (impl.computeValidity selected s).1 = some result →
    query.HasValidity result
  value : computeValue impl query s = .ok (impl.computeValue selected s)
  value_right : ∀ value, (impl.computeValue selected s).1 = some value →
    ∃ v, query.Satisfies v ∧ value = .constant query.expr.getWidth (query.expr.bits v _)

/-- The call is handed on with the query that is required. -/
theorem passed_on {α : Type} {q : Query} (hq : required query = .ok q) (call : Query → α) :
    (do return call (← required query) : Except Abort α) = .ok (call q) := by
  rw [hq]
  rfl

/-- Whatever solver is wrapped, its answers to the constraints that are selected are those to all constraints, and the
    answers given. -/
theorem independentSolver_transparent (impl : SolverImpl σ) (hdecides : impl.Decides) (hevaluates : impl.Evaluates) (query : Query)
    (hconstraints : ∀ c ∈ query.constraints, c.Typed 1) (hexpr : query.expr.WellTyped) (hindexed : query.Indexed)
    (hsatisfiable : query.Satisfiable) (s : σ) : ∃ selected, Transparent impl query s selected := by
  obtain ⟨⟨constraints, expr⟩, hq, hstands⟩ := required_spec hconstraints hexpr hindexed hsatisfiable
  obtain rfl : expr = query.expr := hstands.expr
  have hsubset : ∀ c ∈ constraints, c.Typed 1 := fun c hc => hconstraints c (hstands.subset hc)
  have hwellFormed : query.expr.getWidth = 1 → Query.WellFormed ⟨constraints, query.expr⟩ := fun hwidth =>
    ⟨hsubset, hexpr, hwidth⟩
  have hsat : Query.Satisfiable ⟨constraints, query.expr⟩ := hsatisfiable.imp fun v => hstands.satisfies
  refine ⟨⟨constraints, query.expr⟩, {
    selects := ?selects
    expr := rfl
    valid_iff := hstands.valid_iff
    hasValidity_iff := hstands.hasValidity_iff
    truth := passed_on hq fun q => impl.computeTruth q s
    truth_right := fun hwidth isValid h => (hdecides.truth _ s isValid (hwellFormed hwidth) hsat h).trans hstands.valid_iff
    validity := passed_on hq fun q => impl.computeValidity q s
    validity_right := fun hwidth result h =>
      (hstands.hasValidity_iff result).mp (hdecides.validity _ s result (hwellFormed hwidth) hsat h)
    value := passed_on hq fun q => impl.computeValue q s
    value_right := ?value }⟩
  case selects =>
    obtain ⟨⟨closure, result⟩, hselect, hquery⟩ := Result.bind_eq_ok.mp hq
    obtain ⟨rfl, -⟩ := Query.mk.inj (Except.ok.inj hquery)
    exact ⟨closure, hselect⟩
  case value =>
    intro value h
    obtain ⟨v, hv, hvalue⟩ := hevaluates ⟨constraints, query.expr⟩ s value hsubset hexpr hsat h
    obtain ⟨v', hv', heq⟩ := hstands.continues v hv
    refine ⟨v', hv', hvalue.trans ?_⟩
    rw [Expr.bits, Expr.bits, heq]

open Classical in
/-- The solver that decides every query and finds a value for every satisfiable one. -/
noncomputable def exactEvaluator : SolverImpl Unit :=
  { CachingSolver.exactSolver with
    computeValue := fun query s =>
      (if h : query.Satisfiable then some (.constant query.expr.getWidth (query.expr.bits h.choose _)) else none, s) }

theorem exactEvaluator_evaluates : exactEvaluator.Evaluates := by
  intro query s value _ _ hsat h
  refine ⟨hsat.choose, hsat.choose_spec, ?_⟩
  have hvalue : (exactEvaluator.computeValue query s).1 =
      some (.constant query.expr.getWidth (query.expr.bits hsat.choose _)) := dif_pos hsat
  exact Option.some.inj (h.symm.trans hvalue)

/-- A byte of an array of four. -/
def byteAt (i : BitVec 32) : Expr := .read (.root ⟨0, 4, 32, 8, []⟩) (.constant 32 i)

/-- Whether the first byte is above 7 if it is above 2 and the second one is 5. -/
def splitQuery : Query := ⟨[.cmp .ult (.constant 8 2) (byteAt 0), .cmp .eq (.constant 8 5) (byteAt 1)],
  .cmp .ult (.constant 8 7) (byteAt 0)⟩

/-- The constraint on the second byte is left out. -/
example : required splitQuery = .ok ⟨[.cmp .ult (.constant 8 2) (byteAt 0)], splitQuery.expr⟩ := by decide

theorem compare_typed (kind : CmpKind) (c : BitVec 8) (i : BitVec 32) : (Expr.cmp kind (.constant 8 c) (byteAt i)).Typed 1 :=
  ⟨⟨Nat.succ_pos 7, ⟨⟨by decide, by decide, nofun⟩, Nat.succ_pos 31, rfl⟩, rfl⟩, rfl⟩

theorem independentSolver_transparent_split : ∃ selected, Transparent exactEvaluator splitQuery () selected := by
  have hdecides : exactEvaluator.Decides :=
    ⟨CachingSolver.exactSolver_decides.truth, CachingSolver.exactSolver_decides.validity⟩
  refine independentSolver_transparent exactEvaluator hdecides exactEvaluator_evaluates splitQuery ?_
    (compare_typed .ult 7 0).wellTyped (by decide) ⟨fun _ _ => 5, ?_⟩ ()
  · exact List.forall_mem_cons.mpr ⟨compare_typed .ult 2 0, List.forall_mem_singleton.mpr (compare_typed .eq 5 1)⟩
  · exact List.forall_mem_cons.mpr ⟨rfl, List.forall_mem_singleton.mpr rfl⟩

end IndependentSolver

end CapTaint.Klee
