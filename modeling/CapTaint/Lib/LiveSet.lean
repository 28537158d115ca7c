import Mathlib

/-! A loop over an ordered set that grows while it is visited. The loop goes up and never back, so what is inserted
    behind it is not visited: it visits what can be reached along ascending elements, and nothing else. -/

namespace CapTaint.LiveSet
open Std

variable {α : Type} [Ord α]

/-- `x` lies behind the last visited element, if there is one. -/
def Behind (last : Option α) (x : α) : Prop := ∀ c ∈ last, compare c x = .lt

/-- The iterator's next element: the first one of the set behind `last`. -/
def next (set : TreeSet α) (last : Option α) : Option α :=
  set.toList.find? fun x => last.all fun c => compare c x == .lt

/-- `for (it = set.begin(); it != set.end(); ++it) body(*it)`, at most `fuel` times. -/
def liveLoop {S : Type} (set : S → TreeSet α) (body : S → α → S) : Nat → Option α → S → S
  | 0, _, s => s
  | fuel + 1, last, s =>
    match next (set s) last with
    | none => s
    | some x => liveLoop set body fuel (some x) (body s x)

/-- What can be reached from `D` by steps to a larger element. -/
inductive AscendingReach (D : Set α) (E : α → Set α) : α → Prop
  | root {x : α} : x ∈ D → AscendingReach D E x
  | step {u x : α} : AscendingReach D E u → x ∈ E u → compare u x = .lt → AscendingReach D E x

theorem AscendingReach.mono {D D' : Set α} {E : α → Set α} {x : α} (hD : ∀ d ∈ D, d ∈ D') (h : AscendingReach D E x) :
    AscendingReach D' E x := by
  induction h with
  | root hx => exact .root (hD _ hx)
  | step _ hE hlt ih => exact .step ih hE hlt

section
variable [TransOrd α] [LawfulEqOrd α]

theorem next_eq_some {set : TreeSet α} {last : Option α} {x : α} (h : next set last = some x) :
    x ∈ set ∧ Behind last x ∧ ∀ y ∈ set, Behind last y → y = x ∨ compare x y = .lt := by
  obtain ⟨hx, before, after, hlist, hbefore⟩ := List.find?_eq_some_iff_append.mp h
  have hmem : x ∈ set.toList := by rw [hlist]; simp
  refine ⟨TreeSet.mem_toList.mp hmem, ?_, ?_⟩
  · intro c hc
    rw [Option.mem_def.mp hc] at hx
    simpa using hx
  · intro y hy hbehind
    have hord : set.toList.Pairwise fun a b => compare a b = .lt := TreeSet.ordered_toList
    have hy' := TreeSet.mem_toList.mpr hy
    rw [hlist] at hy' hord
    rcases List.mem_append.mp hy' with hy' | hy'
    · -- an element before the found one is not behind `last`
      have hno := hbefore y hy'
      cases hlast : last with
      | none => rw [hlast] at hno; simp at hno
      | some c =>
        rw [hlast] at hno hbehind
        simp [hbehind c rfl] at hno
    rcases List.mem_cons.mp hy' with rfl | hy'
    · exact .inl rfl
    · exact .inr (List.rel_of_pairwise_cons (List.pairwise_append.mp hord).2.1 hy')

theorem next_eq_none {set : TreeSet α} {last : Option α} (h : next set last = none) {x : α} (hx : x ∈ set) :
    ¬Behind last x := by
  intro hbehind
  have hno := List.find?_eq_none.mp h x (TreeSet.mem_toList.mpr hx)
  cases hlast : last with
  | none => rw [hlast] at hno; simp at hno
  | some c =>
    rw [hlast] at hno hbehind
    simp [hbehind c rfl] at hno

/-- The state of the loop after it has visited `visited`: the set holds the roots and what the visited elements
    added, and a root or an element added from below is visited once the loop has passed it. -/
structure Visited {S : Type} (set : S → TreeSet α) (D : Set α) (E : α → Set α) (J : List α → S → Prop)
    (visited : List α) (s : S) : Prop where
  invariant : J visited s
  mem_set : ∀ x, x ∈ set s ↔ x ∈ D ∨ ∃ u ∈ visited, x ∈ E u
  ascending : visited.Pairwise fun a b => compare a b = .lt
  reached : ∀ x ∈ visited, AscendingReach D E x
  passed : ∀ x, (x ∈ D ∨ ∃ u ∈ visited, x ∈ E u ∧ compare u x = .lt) → ¬Behind visited.getLast? x → x ∈ visited

section Loop
variable {S : Type} {set : S → TreeSet α} {body : S → α → S} {D : Set α} {E : α → Set α} {J : List α → S → Prop}

omit [LawfulEqOrd α] in
theorem behind_of_ascending {visited : List α} (hasc : visited.Pairwise fun a b => compare a b = .lt) {x : α}
    (hx : Behind visited.getLast? x) : ∀ u ∈ visited, compare u x = .lt := by
  intro u hu
  obtain ⟨init, last, rfl⟩ : ∃ init last, visited = init ++ [last] :=
    (List.eq_nil_or_concat' visited).resolve_left (List.ne_nil_of_mem hu)
  have hlast : compare last x = .lt := hx last (by simp)
  rcases List.mem_append.mp hu with hu | hu
  · exact TransCmp.lt_trans ((List.pairwise_append.mp hasc).2.2 u hu last (by simp)) hlast
  · exact List.mem_singleton.mp hu ▸ hlast

theorem Visited.step {visited : List α} {s : S} {x : α} (v : Visited set D E J visited s)
    (hnext : next (set s) visited.getLast? = some x) (hJ : J (visited ++ [x]) (body s x))
    (hset : ∀ y, y ∈ set (body s x) ↔ y ∈ set s ∨ y ∈ E x) : Visited set D E J (visited ++ [x]) (body s x) := by
  obtain ⟨hmem, hbehind, hleast⟩ := next_eq_some hnext
  have hbelow := behind_of_ascending v.ascending hbehind
  refine ⟨hJ, ?_, ?_, ?_, ?_⟩
  · intro y
    rw [hset y, v.mem_set y]
    simp only [List.mem_append, List.mem_singleton]
    constructor
    · rintro ((hD | ⟨u, hu, hE⟩) | hE)
      · exact .inl hD
      · exact .inr ⟨u, .inl hu, hE⟩
      · exact .inr ⟨x, .inr rfl, hE⟩
    · rintro (hD | ⟨u, hu | rfl, hE⟩)
      · exact .inl (.inl hD)
      · exact .inl (.inr ⟨u, hu, hE⟩)
      · exact .inr hE
  · refine List.pairwise_append.mpr ⟨v.ascending, List.pairwise_singleton _ _, fun u hu y hy => ?_⟩
    exact List.mem_singleton.mp hy ▸ hbelow u hu
  · intro y hy
    rcases List.mem_append.mp hy with hy | hy
    · exact v.reached y hy
    · rw [List.mem_singleton.mp hy]
      rcases (v.mem_set x).mp hmem with hD | ⟨u, hu, hE⟩
      · exact .root hD
      · exact .step (v.reached u hu) hE (hbelow u hu)
  · intro y hy hnot
    rw [List.getLast?_concat] at hnot
    have hnot : ¬compare x y = .lt := fun h => hnot fun c hc => Option.mem_some.mp hc ▸ h
    rw [List.mem_append, List.mem_singleton]
    -- what `x` itself adds from below lies behind it
    have hold : y ∈ D ∨ ∃ u ∈ visited, y ∈ E u ∧ compare u y = .lt := by
      rcases hy with hD | ⟨u, hu, hE, hlt⟩
      · exact .inl hD
      rcases List.mem_append.mp hu with hu | hu
      · exact .inr ⟨u, hu, hE, hlt⟩
      · exact absurd (List.mem_singleton.mp hu ▸ hlt) hnot
    by_cases hb : Behind visited.getLast? y
    · have hset : y ∈ set s := (v.mem_set y).mpr (hold.imp_right fun ⟨u, hu, hE, _⟩ => ⟨u, hu, hE⟩)
      exact .inr ((hleast y hset hb).resolve_right hnot)
    · exact .inl (v.passed y hold hb)

theorem Visited.reach_iff {visited : List α} {s : S} (v : Visited set D E J visited s)
    (hdone : next (set s) visited.getLast? = none) {x : α} : x ∈ visited ↔ AscendingReach D E x := by
  constructor
  · exact v.reached x
  · intro hx
    induction hx with
    | root hD => exact v.passed _ (.inl hD) (next_eq_none hdone ((v.mem_set _).mpr (.inl hD)))
    | step _ hE hlt ih =>
      exact v.passed _ (.inr ⟨_, ih, hE, hlt⟩) (next_eq_none hdone ((v.mem_set _).mpr (.inr ⟨_, ih, hE⟩)))

/-- The loop with enough fuel for a finite universe: what it has visited is what can be reached upwards, and the
    final set holds the roots and what the visited elements added. -/
theorem liveLoop_visited [DecidableEq α] {U : Finset α} {fuel : Nat} {visited : List α} {s : S}
    (v : Visited set D E J visited s)
    (hstep : ∀ {visited : List α} {s : S} {x : α}, J visited s → x ∉ visited →
      J (visited ++ [x]) (body s x) ∧ ∀ y, y ∈ set (body s x) ↔ y ∈ set s ∨ y ∈ E x)
    (hU : ∀ {x : α}, AscendingReach D E x → x ∈ U) (hfuel : U.card < fuel + visited.length) :
    ∃ visited', Visited set D E J visited' (liveLoop set body fuel visited.getLast? s) ∧
      ∀ x, x ∈ visited' ↔ AscendingReach D E x := by
  have hcard : ∀ {visited : List α} {s : S}, Visited set D E J visited s → visited.length ≤ U.card := by
    intro visited s v
    have hnodup : visited.Nodup := v.ascending.imp fun hlt heq => by simp [heq] at hlt
    rw [← List.toFinset_card_of_nodup hnodup]
    exact Finset.card_le_card fun x hx => hU (v.reached x (List.mem_toFinset.mp hx))
  induction fuel generalizing visited s with
  | zero =>
    have := hcard v
    omega
  | succ fuel ih =>
    unfold liveLoop
    cases hnext : next (set s) visited.getLast? with
    | none => exact ⟨visited, v, fun x => v.reach_iff hnext⟩
    | some x =>
      have hnot : x ∉ visited := by
        intro hx
        have hlt := behind_of_ascending v.ascending (next_eq_some hnext).2.1 x hx
        simp at hlt
      obtain ⟨hJ, hset⟩ := hstep v.invariant hnot
      have hnew := v.step hnext hJ hset
      have hrest := ih hnew (by rw [List.length_append, List.length_singleton]; omega)
      rw [List.getLast?_concat] at hrest
      exact hrest

end Loop
end

end CapTaint.LiveSet
