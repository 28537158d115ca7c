import CapTaint.Theorems.SetPaths
import Mathlib.Data.List.TakeWhile

/-! # MapOfSets is a finite map on sets

The searches and the iterator come to the entries in the order of the tree. -/

namespace CapTaint.MapOfSets.Root

variable {K V ε : Type} [LinearOrder K]

/-! ### Filters of the entries -/

section
variable {bound : WithBot K} {node : Node K V} {children rest : Children K V} {key elt : K} {set it next : List K}
  {accum : Finset K}

/-- The entry of a set below the root of the tree. -/
def behind (key : K) (entry : List K × V) : List K × V := (key :: entry.1, entry.2)

/-- The entries with a subset of a set. -/
def within (set : List K) (l : List (List K × V)) : List (List K × V) := l.filter fun entry => entry.1 ⊆ set

/-- The entries with a superset of a set. -/
def above (set : List K) (l : List (List K × V)) : List (List K × V) := l.filter fun entry => set ⊆ entry.1

omit [LinearOrder K] in
theorem below_cons : (Children.cons key node rest).entries = (entries node).map (behind key) ++ rest.entries := rfl

theorem within_append (l₁ l₂ : List (List K × V)) : within set (l₁ ++ l₂) = within set l₁ ++ within set l₂ := List.filter_append ..

theorem above_append (l₁ l₂ : List (List K × V)) : above set (l₁ ++ l₂) = above set l₁ ++ above set l₂ := List.filter_append ..

theorem within_congr {l : List (List K × V)} {set' : List K} (h : ∀ entry ∈ l, (entry.1 ⊆ set ↔ entry.1 ⊆ set')) :
    within set l = within set' l := List.filter_congr fun entry hentry => decide_eq_decide.mpr (h entry hentry)

theorem within_behind {l : List (List K × V)} {set' : List K} (h : ∀ entry ∈ l, (key :: entry.1 ⊆ set ↔ entry.1 ⊆ set')) :
    within set (l.map (behind key)) = (within set' l).map (behind key) := by
  rw [within, List.filter_map]
  exact congrArg _ (List.filter_congr fun entry hentry => decide_eq_decide.mpr (h entry hentry))

theorem above_behind {l : List (List K × V)} {set' : List K} (h : ∀ entry ∈ l, (set ⊆ key :: entry.1 ↔ set' ⊆ entry.1)) :
    above set (l.map (behind key)) = (above set' l).map (behind key) := by
  rw [above, List.filter_map]
  exact congrArg _ (List.filter_congr fun entry hentry => decide_eq_decide.mpr (h entry hentry))

theorem within_eq_nil {l : List (List K × V)} (h : ∀ entry ∈ l, ¬entry.1 ⊆ set) : within set l = [] :=
  List.filter_eq_nil_iff.mpr fun entry hentry hsub => h entry hentry (of_decide_eq_true hsub)

theorem above_eq_nil {l : List (List K × V)} (h : ∀ entry ∈ l, ¬set ⊆ entry.1) : above set l = [] :=
  List.filter_eq_nil_iff.mpr fun entry hentry hsub => h entry hentry (of_decide_eq_true hsub)

/-- The children that come before the set have no subsets of it. -/
theorem within_of_lt {l : List (List K × V)} (h : ∀ k ∈ set, key < k) : within set (l.map (behind key)) = [] := by
  refine within_eq_nil fun _ hmem hsub => ?_
  obtain ⟨entry, -, rfl⟩ := List.mem_map.mp hmem
  exact (h key (hsub List.mem_cons_self)).false

theorem OrderedBelow.within_nil : within [] children.entries = [] :=
  within_eq_nil fun _ hentry hsub => ne_nil_of_mem_below children hentry (List.subset_nil.mp hsub)

omit [LinearOrder K] in
/-- Paths that do not come to an element are subsets with it or without it. -/
theorem subset_cons_iff {path : List K} (h : elt ∉ path) : path ⊆ elt :: it ↔ path ⊆ it :=

  ⟨fun hsub _ hk => (List.mem_cons.mp (hsub hk)).resolve_left fun heq => h (heq ▸ hk), List.subset_cons_of_subset _⟩

theorem OrderedBelow.within_cons (h : OrderedBelow key children) (hle : elt ≤ key) :
    within (elt :: it) children.entries = within it children.entries :=
  within_congr fun _ hentry => subset_cons_iff (h.not_mem hentry hle)

/-- The subsets of `elt :: it` below a child at `elt`. -/
theorem Ordered.within_child (h : Ordered key node) :
    within (key :: it) ((entries node).map (behind key)) = (within it (entries node)).map (behind key) := by
  refine within_behind fun _ hentry => ?_
  rw [List.cons_subset, subset_cons_iff (h.not_mem hentry le_rfl)]
  exact and_iff_right List.mem_cons_self

theorem OrderedBelow.find_none (h : OrderedBelow elt children) : children.find elt = none := by
  cases hfind : children.find elt with
  | none => rfl
  | some node => exact absurd (OrderedBelow.lt_of_find children h hfind) (lt_irrefl elt)

/-- The subsets of a set that begins with `elt` are below the child at `elt`, or they are subsets of the rest. -/
theorem OrderedBelow.within_split : (children : Children K V) → {bound : WithBot K} → OrderedBelow bound children →
    (elt :: it).Pairwise (· < ·) →
    within (elt :: it) children.entries =
      ((children.find elt).elim [] fun node => (within it (entries node)).map (behind elt)) ++ within it children.entries
  | .nil, _, _, _ => rfl
  | .cons key node rest, _, ⟨_, hnode, hne, hrest⟩, hset => by
    obtain ⟨helt, hit⟩ := List.pairwise_cons.mp hset
    rcases lt_trichotomy elt key with hlt | rfl | hgt
    · have helt : OrderedBelow elt (.cons key node rest) := ⟨WithBot.coe_lt_coe.mpr hlt, hnode, hne, hrest⟩
      rw [helt.within_cons le_rfl, helt.find_none, Option.elim_none, List.nil_append]
    · rw [below_cons, within_append, hnode.within_child, hrest.within_cons le_rfl, Children.find, if_pos rfl, Option.elim_some,
        within_append, within_of_lt helt, List.nil_append]
    · rw [below_cons, within_append, within_append, within_of_lt (fun k hk => hgt.trans (helt k hk)), List.nil_append,
        within_of_lt (List.forall_mem_cons.mpr ⟨hgt, fun k hk => hgt.trans (helt k hk)⟩), List.nil_append, Children.find,
        if_neg hgt.ne', OrderedBelow.within_split rest hrest hset]

/-- The superset of a set below a child may have the key of the child as an additional element. -/
def aboveTail (set : List K) (l : List (List K × V)) : List (List K × V) := l.filter fun entry => set ⊆ entry.1.tail

theorem aboveTail_append (l₁ l₂ : List (List K × V)) : aboveTail set (l₁ ++ l₂) = aboveTail set l₁ ++ aboveTail set l₂ :=
  List.filter_append ..

theorem aboveTail_behind (l : List (List K × V)) : aboveTail set (l.map (behind key)) = (above set l).map (behind key) := by
  rw [aboveTail, List.filter_map]
  rfl

theorem OrderedBelow.above_nil (h : OrderedBelow elt children) : above (elt :: it) children.entries = [] :=
  above_eq_nil fun _ hentry hsub => h.not_mem hentry le_rfl (hsub List.mem_cons_self)

theorem OrderedBelow.aboveTail_nil (h : OrderedBelow elt children) : aboveTail (elt :: it) children.entries = [] := by
  refine List.filter_eq_nil_iff.mpr fun entry hentry hsub => ?_
  exact h.not_mem hentry le_rfl (List.mem_of_mem_tail (of_decide_eq_true hsub List.mem_cons_self))

theorem above_child (hset : (key :: it).Pairwise (· < ·)) :
    above (key :: it) ((entries node).map (behind key)) = (above it (entries node)).map (behind key) := by
  refine above_behind fun entry _ => ?_
  rw [List.cons_subset]
  refine ⟨fun hsub k hk => ?_, fun hsub => ⟨List.mem_cons_self, List.subset_cons_of_subset _ hsub⟩⟩
  exact (List.mem_cons.mp (hsub.2 hk)).resolve_left ((List.pairwise_cons.mp hset).1 k hk).ne'

/-- The child does not help with a set that it is not in. -/
theorem above_of_lt {l : List (List K × V)} (h : ∀ k ∈ set, key < k) :
    above set (l.map (behind key)) = (above set l).map (behind key) := by
  refine above_behind fun entry _ => ⟨fun hsub k hk => ?_, List.subset_cons_of_subset _⟩
  exact (List.mem_cons.mp (hsub hk)).resolve_left (h k hk).ne'

theorem OrderedBelow.above_split : (children : Children K V) → {bound : WithBot K} → OrderedBelow bound children →
    (elt :: it).Pairwise (· < ·) →
    above (elt :: it) children.entries = aboveTail (elt :: it) children.entries ++
      ((children.find elt).elim [] fun node => (above it (entries node)).map (behind elt))
  | .nil, _, _, _ => rfl
  | .cons key node rest, _, ⟨_, hnode, hne, hrest⟩, hset => by
    obtain ⟨helt, hit⟩ := List.pairwise_cons.mp hset
    rcases lt_trichotomy elt key with hlt | rfl | hgt
    · have helt : OrderedBelow elt (.cons key node rest) := ⟨WithBot.coe_lt_coe.mpr hlt, hnode, hne, hrest⟩
      rw [helt.above_nil, helt.aboveTail_nil, helt.find_none, Option.elim_none, List.append_nil]
    · have hnone : above (elt :: it) (entries node) = [] :=
        above_eq_nil fun _ hentry hsub => hnode.not_mem hentry le_rfl (hsub List.mem_cons_self)
      rw [below_cons, above_append, aboveTail_append, above_child hset, hrest.above_nil, hrest.aboveTail_nil,
        aboveTail_behind, hnone, Children.find, if_pos rfl, Option.elim_some]
      exact List.append_nil _
    · rw [below_cons, above_append, aboveTail_append, above_of_lt (List.forall_mem_cons.mpr ⟨hgt, fun k hk => hgt.trans (helt k hk)⟩),
        aboveTail_behind, OrderedBelow.above_split rest hrest hset, Children.find, if_neg hgt.ne', List.append_assoc]

end

/-! ### All subsets and supersets -/

section
variable {bound : WithBot K} {node : Node K V} {children rest : Children K V} {key elt : K} {set : List K} {accum : Finset K}

/-- The result for an entry below a node. -/
def under (accum : Finset K) (entry : List K × V) : Finset K × V := (accum ∪ entry.1.toFinset, entry.2)

theorem under_behind : under accum ∘ behind (V := V) key = under (Insert.insert key accum) := by
  funext entry
  rw [Function.comp, under, under, behind, List.toFinset_cons, Finset.union_insert, Finset.insert_union]

theorem within_mk {value : Option V} :
    (within set (entries (.mk value children))).map (under accum) =
      resultAt accum value ++ (within set children.entries).map (under accum) := by
  cases value with
  | none => rfl
  | some value =>
    rw [entries, within_append, List.map_append]
    refine congrArg (· ++ _) ?_
    simp [within, resultAt, under]

theorem findSubsetsBelow_eq (h : OrderedBelow bound children) (hset : set.Pairwise (· < ·)) :
    findSubsetsBelow set children accum = (within set children.entries).map (under accum) := by
  induction set generalizing children accum bound with
  | nil =>
    rw [OrderedBelow.within_nil]
    rfl
  | cons elt it ih =>
    have hit := (List.pairwise_cons.mp hset).2
    rw [findSubsetsBelow, OrderedBelow.within_split children h hset, List.map_append]
    cases hfind : children.find elt with
    | none => exact ih h hit
    | some node =>
      obtain ⟨value, below⟩ := node
      have hbelow : OrderedBelow elt below := OrderedBelow.of_find children h hfind
      rw [Option.elim_some, List.map_map, under_behind, within_mk]
      exact congrArg₂ _ (congrArg _ (ih hbelow hit)) (ih h hit)

theorem findSubsets_eq (h : Ordered bound node) (hset : set.Pairwise (· < ·)) :
    findSubsets node accum set = (within set (entries node)).map (under accum) := by
  obtain ⟨value, children⟩ := node
  rw [findSubsets, within_mk, findSubsetsBelow_eq h hset]

mutual
theorem findSupersets_eq : (node : Node K V) → {bound : WithBot K} → Ordered bound node → (accum : Finset K) →
    (set : List K) → set.Pairwise (· < ·) → findSupersets node accum set = (above set (entries node)).map (under accum)
  | .mk value children, _, h, accum, [], hset => by
    rw [findSupersets, findSupersetsBelow_eq children h accum [] hset]
    cases value with
    | none => rfl
    | some value =>
      rw [entries, above_append, List.map_append]
      refine congrArg (· ++ _) ?_
      simp [above, resultAt, under]
  | .mk value children, _, h, accum, elt :: next, hset => by
    rw [findSupersets, findSupersetsBelow_eq children h accum (elt :: next) hset, entries, above_append]
    have hnone : above (elt :: next) (value.map fun value => (([] : List K), value)).toList = [] := by
      cases value <;> simp [above]
    rw [hnone, List.nil_append]

theorem findSupersetsBelow_eq : (children : Children K V) → {bound : WithBot K} → OrderedBelow bound children →
    (accum : Finset K) → (set : List K) → set.Pairwise (· < ·) →
    findSupersetsBelow children accum set = (above set children.entries).map (under accum)
  | .nil, _, _, _, _, _ => by
    rw [findSupersetsBelow]
    rfl
  | .cons key node rest, _, ⟨_, hnode, _, hrest⟩, accum, [], hset => by
    rw [findSupersetsBelow, findSupersets_eq node hnode _ [] hset, findSupersetsBelow_eq rest hrest _ [] hset, below_cons,
      above_append, List.map_append, above_of_lt (fun _ hk => absurd hk List.not_mem_nil), List.map_map, under_behind]
  | .cons key node rest, _, ⟨_, hnode, hne, hrest⟩, accum, elt :: next, hset => by
    have hnext := List.pairwise_cons.mp hset
    rw [findSupersetsBelow]
    split
    case isTrue heq =>
      subst heq
      rw [findSupersets_eq node hnode _ next hnext.2, findSupersetsBelow_eq rest hrest _ _ hset, below_cons, above_append,
        List.map_append, above_child hset, List.map_map, under_behind]
    case isFalse hneq =>
      split
      case isTrue hlt =>
        rw [findSupersets_eq node hnode _ _ hset, findSupersetsBelow_eq rest hrest _ _ hset, below_cons, above_append,
          List.map_append, above_of_lt (List.forall_mem_cons.mpr ⟨hlt, fun k hk => hlt.trans (hnext.1 k hk)⟩), List.map_map,
          under_behind]
      case isFalse hge =>
        have hlt : elt < key := lt_of_le_of_ne (not_lt.mp hge) hneq
        have helt : OrderedBelow elt (.cons key node rest) := ⟨WithBot.coe_lt_coe.mpr hlt, hnode, hne, hrest⟩
        rw [helt.above_nil]
        rfl
end

end

/-! ### Searches with a test -/

section
variable {bound : WithBot K} {node : Node K V} {children rest : Children K V} {key elt : K} {set : List K} (q : V → Bool)

/-- The value of the first entry that passes the test. -/
def firstOf (l : List (List K × V)) : Option V := (l.find? fun entry => q entry.2).map Prod.snd

omit [LinearOrder K] in
theorem firstOf_append (l₁ l₂ : List (List K × V)) : firstOf q (l₁ ++ l₂) = (firstOf q l₁).or (firstOf q l₂) := by
  rw [firstOf, List.find?_append, firstOf, firstOf]
  cases l₁.find? fun entry => q entry.2 <;> rfl

omit [LinearOrder K] in
theorem firstOf_behind (l : List (List K × V)) : firstOf q (l.map (behind key)) = firstOf q l := by
  rw [firstOf, List.find?_map, Option.map_map]
  rfl

/-- The second search takes place if the first one finds nothing. -/
theorem search_orElse {first next : Except ε (Option V)} {a b : Option V} (hfirst : first = .ok a) (hnext : next = .ok b) :
    (do
      match ← first with
      | some value => return some value
      | none => next) = .ok (a.or b) := by
  subst hfirst hnext
  cases a <;> rfl

/-- The test, which does not fail. -/
def test (value : V) : Except ε Bool := .ok (q value)

omit [LinearOrder K] in
theorem tryValue_eq (value : Option V) :
    CapTaint.MapOfSets.tryValue (test q) value =
      (.ok (firstOf q (value.map fun value => (([] : List K), value)).toList) : Except ε (Option V)) := by
  cases value with
  | none => rfl
  | some value =>
    cases h : q value <;> simp [CapTaint.MapOfSets.tryValue, test, firstOf, h, bind, Except.bind, pure, Except.pure]

/-- The elements before a child are not in its paths. -/
theorem OrderedBelow.within_dropWhile (h : OrderedBelow bound (.cons key node rest)) :
    within set (Children.cons key node rest).entries = within (set.dropWhile (less · key)) (Children.cons key node rest).entries := by
  refine within_congr fun entry hentry => ⟨fun hsub k hk => ?_, fun hsub k hk => (List.dropWhile_suffix _).subset (hsub hk)⟩
  have hmem : k ∈ set.takeWhile (less · key) ++ set.dropWhile (less · key) := by
    rw [List.takeWhile_append_dropWhile]
    exact hsub hk
  refine (List.mem_append.mp hmem).resolve_left fun htake => ?_
  have hless : less k key = true := List.mem_takeWhile_imp (p := (less · key)) htake
  have hlt : k < key := of_decide_eq_true hless
  rcases mem_entries_cons.mp hentry with ⟨tail, heq, htail⟩ | hrest
  · rcases List.mem_cons.mp (heq ▸ hk) with rfl | hk
    · exact lt_irrefl _ hlt
    · exact h.2.1.not_mem htail hlt.le hk
  · exact h.2.2.2.not_mem hrest hlt.le hk

mutual
/-- `findSubset` comes to the entries in their order. -/
theorem findSubset_eq : (node : Node K V) → {bound : WithBot K} → Ordered bound node → (set : List K) →
    set.Pairwise (· < ·) →
    CapTaint.MapOfSets.findSubset less (test q) node set = (.ok (firstOf q (within set (entries node))) : Except ε (Option V))
  | .mk value children, _, h, set, hset => by
    have hvalue : within set (value.map fun value => (([] : List K), value)).toList =
        (value.map fun value => (([] : List K), value)).toList := by
      cases value <;> simp [within]
    rw [CapTaint.MapOfSets.findSubset, entries, within_append, hvalue, firstOf_append]
    refine search_orElse (tryValue_eq q value) ?_
    split
    case isTrue heq =>
      rw [heq, OrderedBelow.within_nil]
      rfl
    case isFalse => exact findSubsetBelow_eq children h set hset

theorem findSubsetBelow_eq : (children : Children K V) → {bound : WithBot K} → OrderedBelow bound children → (set : List K) →
    set.Pairwise (· < ·) →
    children.findSubset less (test q) set = (.ok (firstOf q (within set children.entries)) : Except ε (Option V))
  | .nil, _, _, _, _ => by
    rw [Children.findSubset]
    rfl
  | .cons key node rest, _, h, set, hset => by
    have ⟨_, hnode, _, hrest⟩ := h
    have hsorted : (set.dropWhile (less · key)).Pairwise (· < ·) := hset.sublist (List.dropWhile_sublist _)
    have hhead := List.head?_dropWhile_not (less · key) set
    rw [h.within_dropWhile, Children.findSubset]
    generalize set.dropWhile (less · key) = dropped at hsorted hhead ⊢
    cases dropped with
    | nil =>
      rw [OrderedBelow.within_nil]
      rfl
    | cons k ks =>
      have hks := List.pairwise_cons.mp hsorted
      dsimp only
      split
      case isTrue heq =>
        subst heq
        rw [below_cons, within_append, firstOf_append, hnode.within_child, firstOf_behind, hrest.within_cons le_rfl]
        refine search_orElse (findSubset_eq node hnode ks hks.2) ?_
        split
        case isTrue heq =>
          rw [heq, OrderedBelow.within_nil]
          rfl
        case isFalse => exact findSubsetBelow_eq rest hrest ks hks.2
      case isFalse hneq =>
        have hnot : ¬k < key := of_decide_eq_false (by simpa [less] using hhead)
        have hgt : key < k := lt_of_le_of_ne (not_lt.mp hnot) (Ne.symm hneq)
        rw [below_cons, within_append, within_of_lt (List.forall_mem_cons.mpr ⟨hgt, fun x hx => hgt.trans (hks.1 x hx)⟩),
          List.nil_append]
        exact findSubsetBelow_eq rest hrest (k :: ks) hsorted
end

omit [LinearOrder K] in
theorem aboveTail_empty [DecidableEq K] (l : List (List K × V)) : (l.filter fun entry => ([] : List K) ⊆ entry.1.tail) = l :=
  List.filter_eq_self.mpr fun _ _ => decide_eq_true (List.nil_subset _)

mutual
/-- `findSuperset` comes to the entries in their order. -/
theorem findSuperset_eq : (node : Node K V) → {bound : WithBot K} → Ordered bound node → (set : List K) →
    set.Pairwise (· < ·) →
    CapTaint.MapOfSets.findSuperset (test q) node set = (.ok (firstOf q (above set (entries node))) : Except ε (Option V))
  | .mk value children, _, h, [], hset => by
    have hall : ∀ l : List (List K × V), above [] l = l := fun l =>
      List.filter_eq_self.mpr fun _ _ => decide_eq_true (List.nil_subset _)
    rw [CapTaint.MapOfSets.findSuperset, hall, entries, firstOf_append]
    refine search_orElse (tryValue_eq q value) ?_
    rw [findSupersetBelow_eq children h [] hset, aboveTail, aboveTail_empty]
  | .mk value children, _, h, elt :: next, hset => by
    have hvalue : above (elt :: next) (value.map fun value => (([] : List K), value)).toList = [] := by
      cases value <;> simp [above]
    rw [CapTaint.MapOfSets.findSuperset, entries, above_append, hvalue, List.nil_append, OrderedBelow.above_split children h hset,
      firstOf_append]
    refine search_orElse (findSupersetBelow_eq children h (elt :: next) hset) ?_
    rw [findSupersetAt_eq children h elt next (List.pairwise_cons.mp hset).2]
    cases children.find elt with
    | none => rfl
    | some node => rw [Option.elim_some, Option.elim_some, firstOf_behind]

theorem findSupersetBelow_eq : (children : Children K V) → {bound : WithBot K} → OrderedBelow bound children → (set : List K) →
    set.Pairwise (· < ·) →
    children.findSuperset (test q) set = (.ok (firstOf q (aboveTail set children.entries)) : Except ε (Option V))
  | .nil, _, _, _, _ => by
    rw [Children.findSuperset]
    rfl
  | .cons key node rest, _, ⟨_, hnode, _, hrest⟩, set, hset => by
    rw [Children.findSuperset, below_cons, aboveTail_append, aboveTail_behind, firstOf_append, firstOf_behind]
    exact search_orElse (findSuperset_eq node hnode set hset) (findSupersetBelow_eq rest hrest set hset)

theorem findSupersetAt_eq : (children : Children K V) → {bound : WithBot K} → OrderedBelow bound children → (elt : K) →
    (set : List K) → set.Pairwise (· < ·) →
    children.findSupersetAt (test q) elt set =
      (.ok ((children.find elt).elim none fun node => firstOf q (above set (entries node))) : Except ε (Option V))
  | .nil, _, _, _, _, _ => by
    rw [Children.findSupersetAt]
    rfl
  | .cons key node rest, _, ⟨_, hnode, _, hrest⟩, elt, set, hset => by
    rw [Children.findSupersetAt, Children.find]
    split
    case isTrue => exact findSuperset_eq node hnode set hset
    case isFalse => exact findSupersetAt_eq rest hrest elt set hset
end

end

/-! ### Iteration -/

section
variable {node : Node K V} {stack stack' : List (Place K V)} {it : Iterator K V}

/-- The set of the node that the stack leads to. -/
def pathOf (stack : List (Place K V)) : List K := (stack.map Place.key).reverse

/-- The entry of a path below the node that the stack leads to. -/
def onPath (stack : List (Place K V)) (entry : List K × V) : List K × V := (pathOf stack ++ entry.1, entry.2)

/-- The entries that come when the subtree at the top of the stack is done. -/
def afterTop : List (Place K V) → List (List K × V)
  | [] => []
  | place :: stack => (place.siblings.entries).map (onPath stack) ++ afterTop stack

def childrenOf : Node K V → Children K V
  | .mk _ children => children

/-- The entries that come after the node that the stack leads to. -/
def ahead (node : Node K V) (stack : List (Place K V)) : List (List K × V) :=
  (childrenOf node).entries.map (onPath stack) ++ afterTop stack

/-- Each child on the way and beside it has an entry. -/
def Grown (stack : List (Place K V)) : Prop :=
  ∀ place ∈ stack, (∃ bound, Ordered bound place.node) ∧ ∃ bound, OrderedBelow bound place.siblings

def topOf (root : Node K V) : List (Place K V) → Node K V
  | [] => root
  | place :: _ => place.node

omit [LinearOrder K] in
theorem onPath_behind (place : Place K V) : onPath stack ∘ behind place.key = onPath (place :: stack) := by
  funext entry
  simp [onPath, behind, pathOf]

/-- The stack leads to the first of the entries, and the others follow it. -/
def Leads (root : Node K V) (stack : List (Place K V)) (remaining : List (List K × V)) : Prop :=
  Grown stack ∧ ∃ v, value (topOf root stack) = some v ∧ remaining = (pathOf stack, v) :: ahead (topOf root stack) stack

omit [LinearOrder K] in
theorem afterTop_cons {key : K} {siblings : Children K V} :
    (Children.cons key node siblings).entries.map (onPath stack) ++ afterTop stack =
      (entries node).map (onPath (⟨key, node, siblings⟩ :: stack)) ++ afterTop (⟨key, node, siblings⟩ :: stack) := by
  rw [below_cons, List.map_append, List.map_map, onPath_behind ⟨key, node, siblings⟩, List.append_assoc]
  rfl

omit [LinearOrder K] in
theorem onPath_mk {value : Option V} {children : Children K V} {v : V} (h : value = some v) :
    (entries (.mk value children)).map (onPath stack) ++ afterTop stack = (pathOf stack, v) :: ahead (.mk value children) stack := by
  subst h
  simp [entries, onPath, ahead, childrenOf]

theorem Grown.cons {bound bound' : WithBot K} {place : Place K V} (h : Grown stack) (hnode : Ordered bound place.node)
    (hsiblings : OrderedBelow bound' place.siblings) : Grown (place :: stack) :=
  List.forall_mem_cons.mpr ⟨⟨⟨_, hnode⟩, _, hsiblings⟩, h⟩

mutual
theorem descend_leads (root : Node K V) : (node : Node K V) → {bound : WithBot K} → Ordered bound node →
    (stack : List (Place K V)) → Grown stack →
    (descend node stack = (false, stack) ∧ (childrenOf node).entries = []) ∨
      ∃ stack', descend node stack = (true, stack') ∧ Leads root stack' (ahead node stack)
  | .mk value children, _, h, stack, hstack => by
    rw [descend]
    exact descendInto_leads root children h stack hstack

theorem descendInto_leads (root : Node K V) : (children : Children K V) → {bound : WithBot K} → OrderedBelow bound children →
    (stack : List (Place K V)) → Grown stack →
    (descendInto children stack = (false, stack) ∧ children.entries = []) ∨
      ∃ stack', descendInto children stack = (true, stack') ∧
        Leads root stack' (children.entries.map (onPath stack) ++ afterTop stack)
  | .nil, _, _, stack, _ => by
    rw [descendInto]
    exact .inl ⟨rfl, rfl⟩
  | .cons key node siblings, _, ⟨_, hnode, hne, hsiblings⟩, stack, hstack => by
    have hgrown : Grown (⟨key, node, siblings⟩ :: stack) := hstack.cons hnode hsiblings
    rw [descendInto, afterTop_cons]
    split
    case isTrue hsome =>
      obtain ⟨v, hv⟩ := Option.isSome_iff_exists.mp hsome
      refine .inr ⟨_, rfl, hgrown, v, hv, ?_⟩
      obtain ⟨value, children⟩ := node
      exact onPath_mk hv
    case isFalse hnone =>
      obtain ⟨value, children⟩ := node
      have hentries : entries (.mk value children) = children.entries := by
        cases value with
        | none => rfl
        | some v => exact absurd rfl hnone
      rcases descend_leads root (.mk value children) hnode _ hgrown with ⟨-, hnil⟩ | hfound
      · exact absurd (hentries.trans hnil) hne
      · rw [hentries]
        exact .inr hfound
end

mutual
theorem settle_leads (root : Node K V) : (node : Node K V) → {bound : WithBot K} → Ordered bound node → entries node ≠ [] →
    (stack : List (Place K V)) → Grown stack → topOf root stack = node →
    ∃ stack', settle node stack = some stack' ∧ Leads root stack' ((entries node).map (onPath stack) ++ afterTop stack)
  | .mk value children, _, h, hne, stack, hstack, htop => by
    rw [settle]
    split
    case isTrue hsome =>
      obtain ⟨v, rfl⟩ := Option.isSome_iff_exists.mp hsome
      refine ⟨stack, rfl, hstack, v, ?_, ?_⟩
      · rw [htop]
        rfl
      · rw [htop]
        exact onPath_mk rfl
    case isFalse hnone =>
      have hentries : entries (.mk value children) = children.entries := by
        cases value with
        | none => rfl
        | some v => exact absurd rfl hnone
      rw [hentries] at hne ⊢
      exact settleInto_leads root children h hne stack hstack

theorem settleInto_leads (root : Node K V) : (children : Children K V) → {bound : WithBot K} → OrderedBelow bound children →
    children.entries ≠ [] → (stack : List (Place K V)) → Grown stack →
    ∃ stack', settleInto children stack = some stack' ∧
      Leads root stack' (children.entries.map (onPath stack) ++ afterTop stack)
  | .nil, _, _, hne, _, _ => absurd rfl hne
  | .cons key node siblings, _, ⟨_, hnode, hne, hsiblings⟩, _, stack, hstack => by
    rw [settleInto, afterTop_cons]
    exact settle_leads root node hnode hne _ (hstack.cons hnode hsiblings) rfl
end

theorem advance_leads (root : Node K V) (hstack : Grown stack) :
    (advance stack = some (false, []) ∧ afterTop stack = []) ∨
      ∃ stack', advance stack = some (true, stack') ∧ Leads root stack' (afterTop stack) := by
  induction stack with
  | nil => exact .inl ⟨rfl, rfl⟩
  | cons place stack ih =>
    obtain ⟨⟨-, bound, hsiblings⟩, hbelow⟩ := List.forall_mem_cons.mp hstack
    obtain ⟨key, node, siblings⟩ := place
    cases siblings with
    | nil => exact ih hbelow
    | cons key' node' siblings' =>
      obtain ⟨-, hnode, hne, hsiblings⟩ := hsiblings
      obtain ⟨stack', hsettle, hleads⟩ :=
        settle_leads root node' hnode hne (⟨key', node', siblings'⟩ :: stack)
          (Grown.cons hbelow hnode hsiblings) rfl
      refine .inr ⟨stack', ?_, ?_⟩
      · rw [advance, hsettle]
        rfl
      · rwa [afterTop, afterTop_cons]

/-- The iterator is at the first of the entries, or at the end if there are none. -/
def Iterator.At (it : Iterator K V) (remaining : List (List K × V)) : Prop :=
  (it.isEnd = true ∧ remaining = []) ∨ (it.onEntry = true ∧ Leads it.root it.stack remaining)

omit [LinearOrder K] in
theorem top_eq (it : Iterator K V) : it.top = topOf it.root it.stack := by
  obtain ⟨root, onEntry, stack⟩ := it
  cases stack <;> rfl

theorem step_at {bound : WithBot K} (hroot : Ordered bound it.root) (hentry : it.onEntry = true) (hstack : Grown it.stack) :
    ∃ next, it.step = some next ∧ next.root = it.root ∧ next.At (ahead it.top it.stack) := by
  have htop : ∃ bound, Ordered bound it.top := by
    obtain ⟨root, onEntry, stack⟩ := it
    cases stack with
    | nil => exact ⟨_, hroot⟩
    | cons place stack => exact (hstack place List.mem_cons_self).1
  obtain ⟨_, htop⟩ := htop
  rcases descend_leads it.root it.top htop it.stack hstack with ⟨hdescend, hnil⟩ | ⟨stack', hdescend, hleads⟩
  · have hahead : ahead it.top it.stack = afterTop it.stack := by rw [ahead, hnil, List.map_nil, List.nil_append]
    rw [hahead]
    rcases advance_leads it.root hstack with ⟨hadvance, hdone⟩ | ⟨stack', hadvance, hleads⟩
    · exact ⟨{ it with onEntry := false, stack := [] }, by simp [Iterator.step, hentry, hdescend, hadvance], rfl, .inl ⟨rfl, hdone⟩⟩
    · exact ⟨{ it with onEntry := true, stack := stack' }, by simp [Iterator.step, hentry, hdescend, hadvance], rfl, .inr ⟨rfl, hleads⟩⟩
  · exact ⟨{ it with onEntry := true, stack := stack' }, by simp [Iterator.step, hentry, hdescend], rfl, .inr ⟨rfl, hleads⟩⟩

/-- The set and the value of an entry of the tree. -/
def asSet (entry : List K × V) : Finset K × V := (entry.1.toFinset, entry.2)

theorem visit_at {bound : WithBot K} {remaining : List (List K × V)} (hroot : Ordered bound it.root) (h : it.At remaining) :
    it.visit (remaining.length + 1) = some (remaining.map asSet) := by
  induction remaining generalizing it with
  | nil =>
    rcases h with ⟨hend, -⟩ | ⟨-, -, v, -, heq⟩
    · simp [Iterator.visit, hend]
    · cases heq
  | cons entry remaining ih =>
    rcases h with ⟨-, heq⟩ | ⟨hentry, hstack, v, hv, heq⟩
    · cases heq
    · obtain ⟨rfl, rfl⟩ := List.cons.inj heq
      obtain ⟨next, hstep, hnext, hat⟩ := step_at hroot hentry hstack
      rw [top_eq] at hat
      have hend : it.isEnd = false := by simp [Iterator.isEnd, hentry]
      have hset : (it.stack.map Place.key).toFinset = (pathOf it.stack).toFinset := (List.toFinset_reverse).symm
      rw [List.length_cons, Iterator.visit, hend]
      simp [Iterator.deref, hend, top_eq, hv, hset, hstep, ih (hnext ▸ hroot) hat, asSet]

theorem first_at {map : Root K V} {bound : WithBot K} (hroot : Ordered bound map.root) :
    ∃ it, map.first = some it ∧ it.root = map.root ∧ it.At (entries map.root) := by
  have hpath : onPath ([] : List (Place K V)) = id := by
    funext entry
    rfl
  have hnil : Grown ([] : List (Place K V)) := fun _ h => absurd h List.not_mem_nil
  have hall : (entries map.root).map (onPath []) ++ afterTop [] = entries map.root := by simp [hpath, afterTop]
  obtain ⟨⟨value', children⟩⟩ := map
  cases value' with
  | some v => exact ⟨_, rfl, rfl, .inr ⟨rfl, hnil, v, rfl, hall ▸ onPath_mk rfl⟩⟩
  | none =>
    obtain ⟨next, hstep, hnext, hat⟩ := @step_at K V _ ⟨.mk none children, true, []⟩ _ hroot rfl hnil
    exact ⟨next, hstep, hnext, hall ▸ hat⟩

end

/-! ### Finite maps -/

/-- The tree has the entries of a finite map, each at the path of its set. -/
structure Represents (map : Root K V) (f : Finset K → Option V) : Prop where
  ordered : Ordered ⊥ map.root
  mem : ∀ set value, (set.sort, value) ∈ entries map.root ↔ f set = some value

section
variable {map : Root K V} {f : Finset K → Option V} {set : Finset K} {value : V} {path : List K}

theorem sort_pairwise (set : Finset K) : set.sort.Pairwise (· < ·) := set.sortedLT_sort.pairwise

theorem toFinset_sort (set : Finset K) : set.sort.toFinset = set := Finset.sort_toFinset set _

theorem Represents.empty : Represents ({} : Root K V) fun _ => none where
  ordered := .empty
  mem set value := by simp

theorem Represents.insert (h : Represents map f) (set : Finset K) (value : V) :
    Represents (map.insert set value) (Function.update f set (some value)) where
  ordered := h.ordered.insert (sort_pairwise set) fun k _ => WithBot.bot_lt_coe k
  mem set' value' := by
    rw [Root.insert, mem_insert h.ordered, h.mem]
    by_cases heq : set' = set
    · subst heq
      rw [Function.update_self, Option.some.injEq]
      exact ⟨fun hor => hor.elim (fun hand => hand.2.symm) fun hand => absurd rfl hand.1, fun hv => .inl ⟨rfl, hv.symm⟩⟩
    · have hne : set'.sort ≠ set.sort := fun hsort => heq (by rw [← toFinset_sort set', hsort, toFinset_sort])
      rw [Function.update_of_ne heq]
      exact ⟨fun hor => hor.elim (fun hand => absurd hand.1 hne) And.right, fun hf => .inr ⟨hne, hf⟩⟩

/-- A path is the list of the elements of its set. -/
theorem Represents.path_eq (h : Represents map f) (hmem : (path, value) ∈ entries map.root) :
    path.toFinset.sort = path ∧ f path.toFinset = some value := by
  have hsorted := (Ordered.path map.root h.ordered _ hmem).1
  have hsort : path.toFinset.sort = path := (List.toFinset_sort (· ≤ ·) (hsorted.imp LT.lt.ne)).mpr (hsorted.imp LT.lt.le)
  exact ⟨hsort, (h.mem _ _).mp (hsort.symm ▸ hmem)⟩

/-- The entries with a property of their sets are these sets of the map. -/
theorem Represents.mem_map (h : Represents map f) {l : List (List K × V)} {P : Finset K → Prop}
    (hl : ∀ entry, entry ∈ l ↔ entry ∈ entries map.root ∧ P entry.1.toFinset) :
    (set, value) ∈ l.map asSet ↔ P set ∧ f set = some value := by
  rw [List.mem_map]
  constructor
  · rintro ⟨⟨path, v⟩, hmem, heq⟩
    obtain ⟨rfl, rfl⟩ := Prod.mk.inj heq
    obtain ⟨hroot, hP⟩ := (hl _).mp hmem
    exact ⟨hP, (h.path_eq hroot).2⟩
  · rintro ⟨hP, hf⟩
    refine ⟨(set.sort, value), (hl _).mpr ⟨(h.mem _ _).mpr hf, ?_⟩, ?_⟩
    · rwa [toFinset_sort]
    · rw [asSet, toFinset_sort]

theorem Represents.nodup_map (h : Represents map f) {l : List (List K × V)} (hl : l.Sublist (entries map.root)) :
    ((l.map asSet).map Prod.fst).Nodup := by
  have hnodup : (l.map Prod.fst).Nodup := h.ordered.nodup.sublist (hl.map _)
  rw [List.map_map]
  have heq : (Prod.fst ∘ asSet : List K × V → Finset K) = List.toFinset ∘ Prod.fst := rfl
  rw [heq, ← List.map_map]
  refine List.Nodup.map_on (fun path hpath path' hpath' hsets => ?_) hnodup
  obtain ⟨entry, hentry, rfl⟩ := List.mem_map.mp hpath
  obtain ⟨entry', hentry', rfl⟩ := List.mem_map.mp hpath'
  rw [← (h.path_eq (hl.subset hentry)).1, ← (h.path_eq (hl.subset hentry')).1, hsets]

/-- What a search for a set with `P` and a value that passes the test comes to. -/
def Answers (f : Finset K → Option V) (P : Finset K → Prop) (q : V → Bool) (found : Option V) : Prop :=
  (found.isSome = true ↔ ∃ set value, P set ∧ f set = some value ∧ q value = true) ∧
    ∀ value, found = some value → ∃ set, P set ∧ f set = some value ∧ q value = true

theorem Represents.answers (h : Represents map f) {l : List (List K × V)} {P : Finset K → Prop}
    (hl : ∀ entry, entry ∈ l ↔ entry ∈ entries map.root ∧ P entry.1.toFinset) (q : V → Bool) :
    Answers f P q (firstOf q l) := by
  have hfound : ∀ value, firstOf q l = some value → ∃ set, P set ∧ f set = some value ∧ q value = true := by
    intro value hvalue
    obtain ⟨entry, hentry, rfl⟩ := Option.map_eq_some_iff.mp hvalue
    obtain ⟨hroot, hP⟩ := (hl entry).mp (List.mem_of_find?_eq_some hentry)
    have hq := List.find?_some hentry
    exact ⟨entry.1.toFinset, hP, (h.path_eq hroot).2, hq⟩
  refine ⟨⟨fun hsome => ?_, fun ⟨set, value, hP, hf, hq⟩ => ?_⟩, hfound⟩
  · obtain ⟨value, hvalue⟩ := Option.isSome_iff_exists.mp hsome
    obtain ⟨set, hset⟩ := hfound value hvalue
    exact ⟨set, value, hset⟩
  · have hmem : (set.sort, value) ∈ l := (hl _).mpr ⟨(h.mem _ _).mpr hf, by rwa [toFinset_sort]⟩
    rw [firstOf, Option.isSome_map]
    exact List.find?_isSome.mpr ⟨_, hmem, hq⟩

/-- What the class promises. -/
structure IsMap (map : Root K V) (f : Finset K → Option V) : Prop where
  lookup : ∀ set, map.lookup set = f set
  subsets : ∀ set set' value, (set', value) ∈ map.subsets set ↔ set' ⊆ set ∧ f set' = some value
  subsets_once : ∀ set, ((map.subsets set).map Prod.fst).Nodup
  supersets : ∀ set set' value, (set', value) ∈ map.supersets set ↔ set ⊆ set' ∧ f set' = some value
  supersets_once : ∀ set, ((map.supersets set).map Prod.fst).Nodup
  findSubset : ∀ {ε : Type} set (q : V → Bool),
    ∃ found, map.findSubset set (test q) = (.ok found : Except ε (Option V)) ∧ Answers f (· ⊆ set) q found
  findSuperset : ∀ {ε : Type} set (q : V → Bool),
    ∃ found, map.findSuperset set (test q) = (.ok found : Except ε (Option V)) ∧ Answers f (set ⊆ ·) q found
  iteration : ∃ it n visited, map.first = some it ∧ it.visit n = some visited ∧ (visited.map Prod.fst).Nodup ∧
    ∀ set value, (set, value) ∈ visited ↔ f set = some value

theorem under_empty : under (K := K) (V := V) ∅ = asSet := by
  funext entry
  rw [under, Finset.empty_union, asSet]

theorem mem_within {set : Finset K} {l : List (List K × V)} {entry : List K × V} :
    entry ∈ within set.sort l ↔ entry ∈ l ∧ entry.1.toFinset ⊆ set := by
  rw [within, List.mem_filter, decide_eq_true_eq]
  refine and_congr_right fun _ => ⟨fun hsub k hk => ?_, fun hsub k hk => ?_⟩
  · exact (set.mem_sort (· ≤ ·)).mp (hsub (List.mem_toFinset.mp hk))
  · exact (set.mem_sort (· ≤ ·)).mpr (hsub (List.mem_toFinset.mpr hk))

theorem mem_above {set : Finset K} {l : List (List K × V)} {entry : List K × V} :
    entry ∈ above set.sort l ↔ entry ∈ l ∧ set ⊆ entry.1.toFinset := by
  rw [above, List.mem_filter, decide_eq_true_eq]
  refine and_congr_right fun _ => ⟨fun hsub k hk => ?_, fun hsub k hk => ?_⟩
  · exact List.mem_toFinset.mpr (hsub ((set.mem_sort (· ≤ ·)).mpr hk))
  · exact List.mem_toFinset.mp (hsub ((set.mem_sort (· ≤ ·)).mp hk))

theorem Represents.isMap (h : Represents map f) : IsMap map f where
  lookup set := by
    refine Option.ext fun value => ?_
    exact (lookup_iff h.ordered).trans (h.mem set value)
  subsets set set' value := by
    rw [Root.subsets, findSubsets_eq h.ordered (sort_pairwise set), under_empty]
    exact h.mem_map (P := (· ⊆ set)) fun _ => mem_within
  subsets_once set := by
    rw [Root.subsets, findSubsets_eq h.ordered (sort_pairwise set), under_empty]
    exact h.nodup_map List.filter_sublist
  supersets set set' value := by
    rw [Root.supersets, findSupersets_eq map.root h.ordered ∅ _ (sort_pairwise set), under_empty]
    exact h.mem_map (P := (set ⊆ ·)) fun _ => mem_above
  supersets_once set := by
    rw [Root.supersets, findSupersets_eq map.root h.ordered ∅ _ (sort_pairwise set), under_empty]
    exact h.nodup_map List.filter_sublist
  findSubset set q := ⟨_, findSubset_eq q map.root h.ordered _ (sort_pairwise set), h.answers (fun _ => mem_within) q⟩
  findSuperset set q :=
    ⟨_, findSuperset_eq q map.root h.ordered _ (sort_pairwise set), h.answers (fun _ => mem_above) q⟩
  iteration := by
    obtain ⟨it, hfirst, hroot, hat⟩ := first_at h.ordered
    refine ⟨it, _, _, hfirst, visit_at (hroot ▸ h.ordered) hat, h.nodup_map (List.Sublist.refl _), fun set value => ?_⟩
    exact (h.mem_map (P := fun _ => True) fun _ => (and_iff_left trivial).symm).trans (and_iff_right trivial)

end

/-! ### Sequences of insertions -/

/-- The map after insertions. -/
def inserts (l : List (Finset K × V)) : Root K V := l.foldl (fun map entry => map.insert entry.1 entry.2) {}

/-- The value that was inserted last for a set. -/
def lastInserted (l : List (Finset K × V)) (set : Finset K) : Option V :=
  (l.reverse.find? fun entry => entry.1 = set).map Prod.snd

theorem inserts_represents (l : List (Finset K × V)) : Represents (inserts l) (lastInserted l) := by
  induction l using List.reverseRecOn with
  | nil => exact .empty
  | append_singleton l entry ih =>
    have hlast : lastInserted (l ++ [entry]) = Function.update (lastInserted l) entry.1 (some entry.2) := by
      funext set
      rw [lastInserted, List.reverse_append, List.reverse_singleton, List.singleton_append, List.find?_cons]
      by_cases heq : entry.1 = set
      · subst heq
        simp
      · rw [Function.update_of_ne (Ne.symm heq)]
        simp [heq, lastInserted]
    rw [hlast, inserts, List.foldl_append]
    exact ih.insert entry.1 entry.2

/-- After every sequence of insertions the class is the finite map of the values that were inserted last. -/
theorem inserts_isMap (l : List (Finset K × V)) : IsMap (inserts l) (lastInserted l) := (inserts_represents l).isMap

end CapTaint.MapOfSets.Root
