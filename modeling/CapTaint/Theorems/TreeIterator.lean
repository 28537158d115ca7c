import CapTaint.Klee.TreeIterator
import CapTaint.Theorems.ImmutableTree

/-! # Iterators are the places of a tree

The stack of an iterator is the path to the element at its place, and has the height of the tree as its capacity. -/

namespace CapTaint.Klee.ImmutableTree

open RefCount HeightTree.Tree

variable {K V : Type} {h : NodeHeap V} {p n cap : Nat} {roots : List Nat} {t : HeightTree.Tree (Nat × V)} {above : List (Nat × V)}

/-! ### Paths -/

/-- The nodes below `p` with their numbers. -/
inductive Places (h : NodeHeap V) : Nat → HeightTree.Tree (Nat × V) → Prop
  | nil : Places h terminator .nil
  | node {p : Nat} {c : Cell (Node V)} {l r : HeightTree.Tree (Nat × V)} (hp : p ≠ terminator) (hc : h.cell p = some c)
      (hl : Places h c.data.left l) (hr : Places h c.data.right r) :
      Places h p (.node l (p, c.data.value) r c.data.height)

theorem Rep.places {s : HeightTree.Tree V} (ht : Rep h p s) : ∃ t, Places h p t ∧ t.map Prod.snd = s := by
  induction ht with
  | nil => exact ⟨.nil, .nil, rfl⟩
  | node hp hc _ _ ihl ihr =>
    obtain ⟨l, hl, rfl⟩ := ihl
    obtain ⟨r, hr, rfl⟩ := ihr
    exact ⟨_, .node hp hc hl hr, rfl⟩

theorem Places.unique {t' : HeightTree.Tree (Nat × V)} (ht : Places h p t) (ht' : Places h p t') : t = t' := by
  induction ht generalizing t' with
  | nil =>
    cases ht' with
    | nil => rfl
    | node hp => exact absurd rfl hp
  | node hp hc _ _ ihl ihr =>
    cases ht' with
    | nil => exact absurd rfl hp
    | node _ hc' hl' hr' =>
      obtain rfl := Option.some.inj (hc.symm.trans hc')
      rw [ihl hl', ihr hr']

theorem Places.value {x : Nat × V} (ht : Places h p t) (hx : x ∈ t.toList) : ∃ c, ImmutableTree.node h x.1 = some c ∧ c.value = x.2 := by
  induction ht with
  | nil => cases hx
  | node hp hc _ _ ihl ihr =>
    rcases List.mem_append.mp hx with hx | hx
    · exact ihl hx
    · rcases List.mem_cons.mp hx with rfl | hx
      · exact ⟨_, by rw [ImmutableTree.node, hc, Option.map_some], rfl⟩
      · exact ihr hx

/-- The stack at a place, on top of the nodes above the tree. -/
def stackAt (cap : Nat) (t : HeightTree.Tree (Nat × V)) (i : Nat) (above : List (Nat × V)) : FixedStack Nat :=
  ⟨cap, (t.path i above).map Prod.fst⟩

theorem stackAt_length (cap : Nat) (t : HeightTree.Tree (Nat × V)) (i : Nat) (above : List (Nat × V)) :
    (stackAt cap t i above).elts.length ≤ above.length + t.depth := by
  rw [stackAt, List.length_map]
  exact length_path_le t i above

theorem push_stack (p : Nat) (x : V) (hroom : above.length < cap) :
    FixedStack.push_back ⟨cap, above.map Prod.fst⟩ p = some ⟨cap, ((p, x) :: above).map Prod.fst⟩ := by
  rw [FixedStack.push_back, if_pos (by rwa [List.length_map])]
  rfl

theorem stackAt_left {l r : HeightTree.Tree (Nat × V)} {x : Nat × V} {height i : Nat} (hi : i < l.size) :
    stackAt cap (.node l x r height) i above = stackAt cap l i (x :: above) := by rw [stackAt, stackAt, path_left hi]

theorem stackAt_here {l r : HeightTree.Tree (Nat × V)} {x : Nat × V} {height : Nat} :
    stackAt cap (.node l x r height) l.size above = ⟨cap, x.1 :: above.map Prod.fst⟩ := by rw [stackAt, path_here, List.map_cons]

theorem stackAt_right {l r : HeightTree.Tree (Nat × V)} {x : Nat × V} {height : Nat} (i : Nat) :
    stackAt cap (.node l x r height) (l.size + 1 + i) above = stackAt cap r i (x :: above) := by rw [stackAt, stackAt, path_right]

/-- The loops of the moves start with a node that has been pushed before. -/
theorem pushAll_start {side : Node V → Nat} {stack stack' : FixedStack Nat} (hp : p ≠ terminator)
    (heq : pushAll side (n + 1) h stack p = some stack') :
    ∃ stack₁ c, stack.push_back p = some stack₁ ∧ node h p = some c ∧ pushAll side n h stack₁ (side c) = some stack' := by
  rw [pushAll, if_neg hp] at heq
  obtain ⟨stack₁, hpush, heq⟩ := Option.bind_eq_some_iff.mp heq
  obtain ⟨c, hc, heq⟩ := Option.bind_eq_some_iff.mp heq
  exact ⟨stack₁, c, hpush, hc, heq⟩

theorem climb_stop {side : Node V → Nat} {c : Node V} {below : List Nat} (hc : node h p = some c) :
    climb side h (side c) (p :: below) = some (p :: below) := by
  simp only [climb, hc, Option.bind_eq_bind, Option.bind_some, if_pos]
  rfl

theorem climb_on {side : Node V → Nat} {c : Node V} {prev : Nat} {below : List Nat} (hc : node h p = some c) (hne : prev ≠ side c) :
    climb side h prev (p :: below) = climb side h p below := by
  simp only [climb, hc, Option.bind_eq_bind, Option.bind_some, if_neg hne]

/-- Subtrees of a search tree are at different nodes, if they are not both empty. -/
theorem Places.left_ne_right [LinearOrder K] {key : V → K} {c : Cell (Node V)} {l r : HeightTree.Tree (Nat × V)}
    (hl : Places h c.data.left l) (hr : Places h c.data.right r)
    (hsorted : (HeightTree.Tree.node l (p, c.data.value) r c.data.height).Sorted fun x => key x.2) (hpos : 0 < l.size + r.size) :
    c.data.left ≠ c.data.right := by
  intro heq
  rw [heq] at hl
  obtain rfl := hl.unique hr
  obtain ⟨-, -, hbelow, habove⟩ := hsorted.split
  obtain ⟨x, hx⟩ := List.exists_mem_of_length_pos (show 0 < l.toList.length by rw [← size_eq]; omega)
  exact lt_asymm (hbelow x hx) (habove x hx)

theorem Places.terminator_of_size (ht : Places h p t) (hzero : t.size = 0) : p = terminator ∧ t = .nil := by
  cases ht with
  | nil => exact ⟨rfl, rfl⟩
  | node =>
    rw [size_node] at hzero
    omega

theorem size_pos_of_ne {q : Nat} (ht : Places h q t) (hq : q ≠ terminator) : 0 < t.size := by
  cases ht with
  | nil => exact absurd rfl hq
  | node =>
    rw [size_node]
    omega

section
variable [Inhabited V]

theorem pushAll_left (hv : Valid h roots) (ht : Places h p t) (hn : p < n) (hroom : above.length + t.depth ≤ cap) :
    pushAll Node.left n h ⟨cap, above.map Prod.fst⟩ p = some (stackAt cap t 0 above) := by
  induction n generalizing p t above with
  | zero => exact absurd hn (Nat.not_lt_zero p)
  | succ n ih =>
    cases ht with
    | nil =>
      rw [pushAll, if_pos rfl]
      rfl
    | @node p c l r hp hc hl hr =>
      have hlt := (hv.kids_lt hc hp).1
      have hnode : node h p = some c.data := by rw [node, hc, Option.map_some]
      rw [depth] at hroom
      simp only [pushAll, if_neg hp, push_stack p c.data.value (show above.length < cap by omega), hnode, Option.bind_eq_bind,
        Option.bind_some]
      rw [ih hl (by omega) (by rw [List.length_cons]; omega), stackAt, stackAt, path_first]

theorem pushAll_right (hv : Valid h roots) (ht : Places h p t) (hn : p < n) (hroom : above.length + t.depth ≤ cap) :
    pushAll Node.right n h ⟨cap, above.map Prod.fst⟩ p = some (stackAt cap t (t.size - 1) above) := by
  induction n generalizing p t above with
  | zero => exact absurd hn (Nat.not_lt_zero p)
  | succ n ih =>
    cases ht with
    | nil =>
      rw [pushAll, if_pos rfl]
      rfl
    | @node p c l r hp hc hl hr =>
      have hlt := (hv.kids_lt hc hp).2
      have hnode : node h p = some c.data := by rw [node, hc, Option.map_some]
      rw [depth] at hroom
      simp only [pushAll, if_neg hp, push_stack p c.data.value (show above.length < cap by omega), hnode, Option.bind_eq_bind,
        Option.bind_some]
      rw [ih hr (by omega) (by rw [List.length_cons]; omega), stackAt, stackAt, path_last]

/-! ### Moves -/

section
variable [LinearOrder K] {key : V → K} {k : K} {i : Nat}

/-- A step to the next place of a tree, or out of it. -/
theorem incr_spec (root : Nat) (hv : Valid h roots) (ht : Places h p t) (hsorted : t.Sorted fun x => key x.2) (hi : i < t.size)
    (hroom : above.length + t.depth ≤ cap) :
    Iterator.incr h ⟨root, stackAt cap t i above⟩ =
      if i + 1 < t.size then some ⟨root, stackAt cap t (i + 1) above⟩
      else (climb Node.left h p (above.map Prod.fst)).map fun elts => ⟨root, ⟨cap, elts⟩⟩ := by
  induction ht generalizing i above with
  | nil => exact absurd hi (Nat.not_lt_zero i)
  | @node p c l r hp hc hl hr ihl ihr =>
    have hnode : node h p = some c.data := by rw [node, hc, Option.map_some]
    rw [size_node] at hi ⊢
    rw [depth] at hroom
    have hroom' : ((p, c.data.value) :: above).length + max l.depth r.depth ≤ cap := by
      rw [List.length_cons]
      omega
    rcases Nat.lt_trichotomy i l.size with hlt | rfl | hgt
    · rw [stackAt_left hlt, ihl hsorted.left hlt (by omega)]
      by_cases hnext : i + 1 < l.size
      · rw [if_pos hnext, if_pos (by omega), stackAt_left hnext]
      · rw [if_neg hnext, if_pos (by omega), show i + 1 = l.size by omega, stackAt_here, List.map_cons, climb_stop hnode,
          Option.map_some]
    · rw [stackAt_here]
      simp only [Iterator.incr, hnode, Option.bind_eq_bind, Option.bind_some]
      split
      case isTrue hright =>
        rw [hright] at hr
        obtain rfl := hr.unique .nil
        rw [size_nil, Nat.add_zero, if_neg (Nat.lt_irrefl _)]
        cases climb Node.left h p (above.map Prod.fst) <;> rfl
      case isFalse hright =>
        have hpos := size_pos_of_ne hr hright
        have hpush := pushAll_left (n := c.data.right + 2) hv hr (by omega)
          (show ((p, c.data.value) :: above).length + r.depth ≤ cap by omega)
        obtain ⟨stack, c', hpush, hc', hrest⟩ := pushAll_start hright hpush
        rw [List.map_cons] at hpush
        simp only [hpush, hc', hrest, Option.bind_some]
        have hplace : stackAt cap (.node l (p, c.data.value) r c.data.height) (l.size + 1) above =
            stackAt cap r 0 ((p, c.data.value) :: above) := stackAt_right 0
        rw [if_pos (by omega), hplace]
        rfl
    · obtain ⟨j, rfl⟩ : ∃ j, i = l.size + 1 + j := ⟨i - (l.size + 1), by omega⟩
      rw [stackAt_right, ihr hsorted.right (by omega) (by omega)]
      by_cases hnext : j + 1 < r.size
      · rw [if_pos hnext, if_pos (by omega), Nat.add_assoc, stackAt_right]
      · have hne := hl.left_ne_right hr hsorted (by omega)
        rw [if_neg hnext, if_neg (by omega), List.map_cons, climb_on hnode hne.symm]

/-- A step back to the place before in a tree, or out of it. -/
theorem decr_spec (root : Nat) (hv : Valid h roots) (ht : Places h p t) (hsorted : t.Sorted fun x => key x.2) (hi : i < t.size)
    (hroom : above.length + t.depth ≤ cap) :
    Iterator.decr h ⟨root, stackAt cap t i above⟩ =
      if 0 < i then some ⟨root, stackAt cap t (i - 1) above⟩
      else (climb Node.right h p (above.map Prod.fst)).map fun elts => ⟨root, ⟨cap, elts⟩⟩ := by
  induction ht generalizing i above with
  | nil => exact absurd hi (Nat.not_lt_zero i)
  | @node p c l r hp hc hl hr ihl ihr =>
    have hnode : node h p = some c.data := by rw [node, hc, Option.map_some]
    rw [size_node] at hi
    rw [depth] at hroom
    have hroom' : ((p, c.data.value) :: above).length + max l.depth r.depth ≤ cap := by
      rw [List.length_cons]
      omega
    rcases Nat.lt_trichotomy i l.size with hlt | rfl | hgt
    · rw [stackAt_left hlt, ihl hsorted.left hlt (by omega)]
      by_cases hfirst : 0 < i
      · rw [if_pos hfirst, if_pos hfirst, stackAt_left (by omega)]
      · have hne := hl.left_ne_right hr hsorted (by omega)
        rw [if_neg hfirst, if_neg hfirst, List.map_cons, climb_on hnode hne]
    · rw [stackAt_here]
      simp only [Iterator.decr, hnode, Option.bind_eq_bind, Option.bind_some]
      split
      case isTrue hleft =>
        rw [hleft] at hl
        obtain rfl := hl.unique .nil
        rw [size_nil, if_neg (Nat.lt_irrefl _)]
        cases climb Node.right h p (above.map Prod.fst) <;> rfl
      case isFalse hleft =>
        have hpos := size_pos_of_ne hl hleft
        have hpush := pushAll_right (n := c.data.left + 2) hv hl (by omega)
          (show ((p, c.data.value) :: above).length + l.depth ≤ cap by omega)
        obtain ⟨stack, c', hpush, hc', hrest⟩ := pushAll_start hleft hpush
        rw [List.map_cons] at hpush
        simp only [hpush, hc', hrest, Option.bind_some]
        rw [if_pos hpos, stackAt_left (by omega)]
        rfl
    · obtain ⟨j, rfl⟩ : ∃ j, i = l.size + 1 + j := ⟨i - (l.size + 1), by omega⟩
      rw [stackAt_right, ihr hsorted.right (by omega) (by omega), if_pos (show 0 < l.size + 1 + j by omega)]
      by_cases hfirst : 0 < j
      · rw [if_pos hfirst, show l.size + 1 + j - 1 = l.size + 1 + (j - 1) by omega, stackAt_right]
      · rw [if_neg hfirst, show l.size + 1 + j - 1 = l.size by omega, stackAt_here, List.map_cons, climb_stop hnode, Option.map_some]

/-! ### Searches -/

/-- The place of the first element that is not below the key. -/
def lowerPlace (key : V → K) (k : K) (t : HeightTree.Tree (Nat × V)) : Nat := t.toList.findIdx fun x => decide (k ≤ key x.2)

omit [Inhabited V] in
theorem lowerPlace_left {l r : HeightTree.Tree (Nat × V)} {x : Nat × V} {height : Nat} (hle : k ≤ key x.2) :
    lowerPlace key k (.node l x r height) = lowerPlace key k l := by
  rw [lowerPlace, toList, List.findIdx_append, List.findIdx_cons, decide_eq_true hle, cond_true, Nat.zero_add]
  split
  case isTrue => rfl
  case isFalse hge => exact le_antisymm (not_lt.mp hge) List.findIdx_le_length

omit [Inhabited V] in
theorem lowerPlace_of_below (hbelow : ∀ y ∈ t.toList, key y.2 < k) : lowerPlace key k t = t.size := by
  rw [size_eq]
  exact List.findIdx_eq_length_of_false fun y hy => decide_eq_false (hbelow y hy).not_ge

omit [Inhabited V] in
theorem lowerPlace_right {l r : HeightTree.Tree (Nat × V)} {x : Nat × V} {height : Nat} (hbelow : ∀ y ∈ l.toList, key y.2 < key x.2)
    (hlt : key x.2 < k) : lowerPlace key k (.node l x r height) = l.size + 1 + lowerPlace key k r := by
  have hleft : lowerPlace key k l = l.size := lowerPlace_of_below fun y hy => (hbelow y hy).trans hlt
  rw [size_eq, lowerPlace] at hleft
  rw [lowerPlace, toList, List.findIdx_append, hleft, if_neg (Nat.lt_irrefl _), List.findIdx_cons, decide_eq_false hlt.not_ge,
    cond_false, size_eq, lowerPlace]
  omega

omit [Inhabited V] in
theorem descend_terminator (stack : FixedStack Nat) (hn : 0 < n) : descend key k n h stack terminator = some (stack, false) := by
  obtain ⟨n, rfl⟩ := Nat.exists_eq_succ_of_ne_zero hn.ne'
  rw [descend, if_pos rfl]
  rfl

/-- The loop ends at that place or one before. -/
theorem descend_spec (hv : Valid h roots) (ht : Places h p t) (hsorted : t.Sorted fun x => key x.2) (hn : p < n)
    (hpos : 0 < t.size) (hroom : above.length + t.depth ≤ cap) :
    ∃ i returned, descend key k n h ⟨cap, above.map Prod.fst⟩ p = some (stackAt cap t i above, returned) ∧ i < t.size ∧
      (i = lowerPlace key k t ∨ i + 1 = lowerPlace key k t ∧ returned = false) := by
  induction n generalizing p t above with
  | zero => exact absurd hn (Nat.not_lt_zero p)
  | succ n ih =>
    cases ht with
    | nil => exact absurd hpos (Nat.lt_irrefl 0)
    | @node p c l r hp hc hl hr =>
      obtain ⟨hleft, hright⟩ := hv.kids_lt hc hp
      obtain ⟨-, -, hbelow, habove⟩ := hsorted.split
      have hnode : node h p = some c.data := by rw [node, hc, Option.map_some]
      rw [depth] at hroom
      have hroom' : ((p, c.data.value) :: above).length + max l.depth r.depth ≤ cap := by
        rw [List.length_cons]
        omega
      simp only [descend, if_neg hp, push_stack p c.data.value (show above.length < cap by omega), hnode, Option.bind_eq_bind,
        Option.bind_some]
      rw [size_node]
      rcases lt_trichotomy k (key c.data.value) with hlt | rfl | hgt
      · rw [if_pos hlt, lowerPlace_left hlt.le]
        rcases Nat.eq_zero_or_pos l.size with hzero | hposl
        · obtain ⟨hnil, rfl⟩ := hl.terminator_of_size hzero
          refine ⟨0, false, ?_, by omega, .inl rfl⟩
          rw [hnil, descend_terminator _ (by omega), stackAt, path_first]
          rfl
        · obtain ⟨i, returned, heq, hi, hplace⟩ := ih hl hsorted.left (by omega) hposl
            (show ((p, c.data.value) :: above).length + l.depth ≤ cap by omega)
          exact ⟨i, returned, by rw [stackAt_left hi]; exact heq, by omega, hplace⟩
      · rw [if_neg (lt_irrefl _), if_neg (lt_irrefl _)]
        refine ⟨l.size, true, by rw [stackAt_here]; rfl, by omega, .inl ?_⟩
        rw [lowerPlace_left (le_refl (key (p, c.data.value).2)), lowerPlace_of_below hbelow]
      · rw [if_neg hgt.not_gt, if_pos hgt, lowerPlace_right hbelow hgt]
        rcases Nat.eq_zero_or_pos r.size with hzero | hposr
        · obtain ⟨hnil, rfl⟩ := hr.terminator_of_size hzero
          refine ⟨l.size, false, ?_, by omega, .inr ⟨rfl, rfl⟩⟩
          rw [hnil, descend_terminator _ (by omega), stackAt_here]
          rfl
        · obtain ⟨i, returned, heq, hi, hplace⟩ := ih hr hsorted.right (by omega) hposr
            (show ((p, c.data.value) :: above).length + r.depth ≤ cap by omega)
          exact ⟨l.size + 1 + i, returned, by rw [stackAt_right]; exact heq, by omega, hplace.imp (by omega) (And.imp_left (by omega))⟩

/-! ### Iterators -/

/-- The iterator at a place. The end is behind all elements. -/
def placeAt (p : Nat) (t : HeightTree.Tree (Nat × V)) (i : Nat) : Iterator :=
  ⟨p, if i < t.size then stackAt t.height t i [] else ⟨t.height, []⟩⟩

omit [Inhabited V] in
theorem placeAt_of_lt (p : Nat) {i : Nat} (hi : i < t.size) : placeAt p t i = ⟨p, stackAt t.height t i []⟩ := by
  rw [placeAt, if_pos hi]

omit [Inhabited V] in
theorem placeAt_size (p : Nat) (t : HeightTree.Tree (Nat × V)) : placeAt p t t.size = ⟨p, ⟨t.height, []⟩⟩ := by
  rw [placeAt, if_neg (Nat.lt_irrefl _)]

theorem Places.read (hv : Valid h roots) (ht : Places h p t) : ∃ n, ImmutableTree.node h p = some n ∧ n.height = t.height := by
  cases ht with
  | nil =>
    obtain ⟨c, hc, hdata⟩ := hv.terminator
    exact ⟨c.data, by rw [ImmutableTree.node, hc, Option.map_some], by rw [hdata]; rfl⟩
  | @node p c l r hp hc hl hr => exact ⟨c.data, by rw [ImmutableTree.node, hc, Option.map_some], rfl⟩

/-- A search tree on the heap that is balanced. -/
structure Searchable (key : V → K) (h : NodeHeap V) (p : Nat) (t : HeightTree.Tree (Nat × V)) : Prop where
  places : Places h p t
  sorted : t.Sorted fun x => key x.2
  balanced : t.Balanced

omit [Inhabited V] in
theorem Searchable.room (hs : Searchable key h p t) : ([] : List (Nat × V)).length + t.depth ≤ t.height := by
  rw [hs.balanced.depth, List.length_nil, Nat.zero_add]

theorem Searchable.begin_eq (hs : Searchable key h p t) (hv : Valid h roots) : Root.begin h p = some (placeAt p t 0) := by
  obtain ⟨n, hnode, hheight⟩ := hs.places.read hv
  have hpush := pushAll_left hv hs.places (Nat.lt_succ_self p) hs.room
  rw [List.map_nil] at hpush
  simp only [Root.begin, Iterator.new, hnode, hheight, hpush, if_pos, Option.bind_eq_bind, Option.bind_some, placeAt]
  split
  case isTrue => rfl
  case isFalse hempty =>
    obtain ⟨-, rfl⟩ := hs.places.terminator_of_size (Nat.eq_zero_of_not_pos hempty)
    rfl

theorem Searchable.end_eq (hs : Searchable key h p t) (hv : Valid h roots) : Root.end h p = some (placeAt p t t.size) := by
  obtain ⟨n, hnode, hheight⟩ := hs.places.read hv
  simp only [Root.end, Iterator.new, hnode, hheight, Option.bind_eq_bind, Option.bind_some, placeAt_size]
  rfl

omit [Inhabited V] in
theorem Searchable.deref_eq (hs : Searchable key h p t) {i : Nat} (hi : i < t.toList.length) :
    (placeAt p t i).deref h = some t.toList[i].2 := by
  obtain ⟨rest, hpath⟩ := path_eq_cons [] hi
  obtain ⟨c, hc, hvalue⟩ := hs.places.value (List.getElem_mem hi)
  rw [placeAt_of_lt p (size_eq t ▸ hi), Iterator.deref, stackAt, hpath, List.map_cons, List.head?_cons, Option.bind_eq_bind,
    Option.bind_some, hc, Option.bind_eq_bind, Option.bind_some, hvalue]
  rfl

theorem Searchable.incr_eq (hs : Searchable key h p t) (hv : Valid h roots) {i : Nat} (hi : i < t.size) :
    (placeAt p t i).incr h = some (placeAt p t (i + 1)) := by
  rw [placeAt_of_lt p hi, incr_spec p hv hs.places hs.sorted hi hs.room, placeAt]
  split <;> rfl

theorem Searchable.decr_eq (hs : Searchable key h p t) (hv : Valid h roots) {i : Nat} (hi : i < t.size) :
    (placeAt p t (i + 1)).decr h = some (placeAt p t i) := by
  rw [placeAt_of_lt p hi]
  rcases Nat.lt_or_eq_of_le hi with hlt | hlast
  · rw [placeAt_of_lt p hlt, decr_spec p hv hs.places hs.sorted hlt hs.room, if_pos (Nat.succ_pos i), Nat.succ_sub_one]
  · have hpush := pushAll_right hv hs.places (Nat.lt_succ_self p) hs.room
    rw [List.map_nil, ← hlast, Nat.succ_sub_one] at hpush
    rw [show i + 1 = t.size from hlast, placeAt_size]
    simp only [Iterator.decr, hpush, Option.bind_eq_bind, Option.bind_some]
    rfl

theorem findIdx_unique {α : Type} {f : α → Bool} {xs : List α} {i : Nat} (hi : i ≤ xs.length)
    (hbefore : ∀ j (hlt : j < xs.length), j < i → f xs[j] = false) (hhere : ∀ hlt : i < xs.length, f xs[i] = true) :
    xs.findIdx f = i := by
  rcases Nat.lt_or_eq_of_le hi with hlt | rfl
  · exact (List.findIdx_eq hlt).mpr ⟨hhere hlt, fun j hj => hbefore j (hj.trans hlt) hj⟩
  · refine List.findIdx_eq_length_of_false fun x hx => ?_
    obtain ⟨j, hj, rfl⟩ := List.getElem_of_mem hx
    exact hbefore j hj hj

omit [Inhabited V] in
theorem key_lt_of_lt_lowerPlace {j : Nat} (hlt : j < t.toList.length) (hj : j < lowerPlace key k t) : key t.toList[j].2 < k :=
  not_le.mp (of_decide_eq_false (List.not_of_lt_findIdx hj))

omit [Inhabited V] in
theorem le_key_lowerPlace (hlt : lowerPlace key k t < t.toList.length) : k ≤ key t.toList[lowerPlace key k t].2 :=
  of_decide_eq_true (List.findIdx_getElem (w := hlt))

theorem Searchable.lower_bound_eq (hs : Searchable key h p t) (hv : Valid h roots) (k : K) :
    Root.lower_bound key h p k = some (placeAt p t (lowerPlace key k t)) := by
  have hend := hs.end_eq hv
  rw [Root.end, placeAt_size] at hend
  rw [Root.lower_bound, hend]
  simp only [Option.bind_eq_bind, Option.bind_some]
  rcases Nat.eq_zero_or_pos t.size with hzero | hpos
  · obtain ⟨rfl, rfl⟩ := hs.places.terminator_of_size hzero
    rw [descend_terminator _ (Nat.succ_pos _)]
    rfl
  · obtain ⟨i, returned, heq, hi, hplace⟩ := descend_spec (k := k) hv hs.places hs.sorted (Nat.lt_succ_self p) hpos hs.room
    rw [List.map_nil] at heq
    simp only [heq, Option.bind_some]
    have hi' : i < t.toList.length := size_eq t ▸ hi
    obtain ⟨rest, hpath⟩ := path_eq_cons [] hi'
    obtain ⟨c, hc, hvalue⟩ := hs.places.value (List.getElem_mem hi')
    have hstack : (stackAt t.height t i []).elts = t.toList[i].1 :: rest.map Prod.fst := by rw [stackAt, hpath, List.map_cons]
    rcases hplace with rfl | ⟨hnext, rfl⟩
    · have hle : ¬ key c.value < k := hvalue ▸ not_lt.mpr (le_key_lowerPlace hi')
      rw [placeAt_of_lt p hi]
      split
      case isTrue => rfl
      case isFalse =>
        simp only [hstack, hc, Option.bind_some, if_neg hle]
        rfl
    · have hlt : key c.value < k := hvalue ▸ key_lt_of_lt_lowerPlace hi' (hnext ▸ Nat.lt_succ_self i)
      have hincr := hs.incr_eq hv hi
      rw [placeAt_of_lt p hi, hnext] at hincr
      simp only [hstack, hc, Option.bind_some, if_pos hlt, Bool.false_eq_true, if_false]
      exact hincr

omit [Inhabited V] in
theorem Searchable.key_lt (hs : Searchable key h p t) {i j : Nat} (hi : i < t.toList.length) (hj : j < t.toList.length) (hij : i < j) :
    key t.toList[i].2 < key t.toList[j].2 := List.pairwise_iff_getElem.mp hs.sorted i j hi hj hij

omit [Inhabited V] in
theorem deref_end (p : Nat) (t : HeightTree.Tree (Nat × V)) : (placeAt p t t.size).deref h = none := by
  rw [placeAt_size]
  rfl

omit [Inhabited V] in
/-- Iterators at different places are different. -/
theorem Searchable.eq_iff (hs : Searchable key h p t) {i j : Nat} (hi : i ≤ t.size) (hj : j ≤ t.size) :
    (placeAt p t i).eq (placeAt p t j) = decide (i = j) := by
  have hless : ∀ i j, i < j → j ≤ t.size → (placeAt p t i).stack.elts ≠ (placeAt p t j).stack.elts := by
    intro i j hij hj heq
    have hderef : (placeAt p t i).deref h = (placeAt p t j).deref h := by rw [Iterator.deref, Iterator.deref, heq]
    have hi' : i < t.toList.length := size_eq t ▸ hij.trans_le hj
    rw [hs.deref_eq hi'] at hderef
    rcases Nat.lt_or_eq_of_le hj with hlt | rfl
    · rw [hs.deref_eq (size_eq t ▸ hlt)] at hderef
      exact (hs.key_lt hi' (size_eq t ▸ hlt) hij).ne (congrArg key (Option.some.inj hderef))
    · rw [deref_end] at hderef
      cases hderef
  rw [Iterator.eq, Bool.eq_iff_iff, beq_iff_eq, decide_eq_true_eq]
  rcases Nat.lt_trichotomy i j with hij | rfl | hij
  · exact iff_of_false (hless i j hij hj) hij.ne
  · exact iff_of_true rfl rfl
  · exact iff_of_false (hless j i hij hi).symm hij.ne'

theorem Searchable.find_eq (hs : Searchable key h p t) (hv : Valid h roots) (k : K) :
    Root.find key h p k = some (placeAt p t (t.toList.findIdx fun x => decide (key x.2 = k))) := by
  have hle : lowerPlace key k t ≤ t.size := size_eq t ▸ List.findIdx_le_length
  rw [Root.find, hs.end_eq hv, hs.lower_bound_eq hv]
  simp only [Option.bind_eq_bind, Option.bind_some, hs.eq_iff hle le_rfl, decide_eq_true_eq]
  split
  case isTrue hlast =>
    have hnone : t.toList.findIdx (fun x => decide (key x.2 = k)) = t.size := by
      rw [size_eq] at hlast ⊢
      exact findIdx_unique le_rfl (fun j hj hlt => decide_eq_false (key_lt_of_lt_lowerPlace hj (hlast ▸ hlt)).ne)
        fun hlt => absurd hlt (Nat.lt_irrefl _)
    rw [hnone]
    rfl
  case isFalse hne =>
    have hlt : lowerPlace key k t < t.toList.length := size_eq t ▸ lt_of_le_of_ne hle hne
    rw [hs.deref_eq hlt, Option.bind_some]
    split
    case isTrue habove =>
      have hnone : t.toList.findIdx (fun x => decide (key x.2 = k)) = t.size := by
        rw [size_eq]
        refine findIdx_unique le_rfl (fun j hj _ => decide_eq_false ?_) fun hlt => absurd hlt (Nat.lt_irrefl _)
        rcases Nat.lt_trichotomy j (lowerPlace key k t) with hjl | rfl | hjl
        · exact (key_lt_of_lt_lowerPlace hj hjl).ne
        · exact habove.ne'
        · exact (habove.trans (hs.key_lt hlt hj hjl)).ne'
      rw [hnone]
      rfl
    case isFalse hnot =>
      have hhere : t.toList.findIdx (fun x => decide (key x.2 = k)) = lowerPlace key k t :=
        findIdx_unique hlt.le (fun j hj hjl => decide_eq_false (key_lt_of_lt_lowerPlace hj hjl).ne)
          fun hlt => decide_eq_true (le_antisymm (not_lt.mp hnot) (le_key_lowerPlace hlt))
      rw [hhere]
      rfl

theorem Searchable.upper_bound_eq (hs : Searchable key h p t) (hv : Valid h roots) (k : K) :
    Root.upper_bound key h p k = some (placeAt p t (t.toList.findIdx fun x => decide (k < key x.2))) := by
  have hle : lowerPlace key k t ≤ t.size := size_eq t ▸ List.findIdx_le_length
  rw [Root.upper_bound, hs.end_eq hv, hs.lower_bound_eq hv]
  simp only [Option.bind_eq_bind, Option.bind_some, hs.eq_iff hle le_rfl, decide_eq_true_eq]
  split
  case isTrue hlast =>
    have hnone : t.toList.findIdx (fun x => decide (k < key x.2)) = lowerPlace key k t := by
      rw [size_eq] at hlast
      rw [hlast]
      exact findIdx_unique le_rfl (fun j hj hlt => decide_eq_false (key_lt_of_lt_lowerPlace hj (hlast ▸ hlt)).not_gt)
        fun hlt => absurd hlt (Nat.lt_irrefl _)
    rw [hnone]
    rfl
  case isFalse hne =>
    have hlt : lowerPlace key k t < t.toList.length := size_eq t ▸ lt_of_le_of_ne hle hne
    rw [hs.deref_eq hlt, Option.bind_some]
    split
    case isTrue habove =>
      have hhere : t.toList.findIdx (fun x => decide (k < key x.2)) = lowerPlace key k t :=
        findIdx_unique hlt.le (fun j hj hjl => decide_eq_false (key_lt_of_lt_lowerPlace hj hjl).not_gt) fun _ => decide_eq_true habove
      rw [hhere]
      rfl
    case isFalse hnot =>
      have hhere : t.toList.findIdx (fun x => decide (k < key x.2)) = lowerPlace key k t + 1 := by
        refine findIdx_unique hlt (fun j hj hjl => decide_eq_false ?_) fun hnext => decide_eq_true ?_
        · rcases Nat.lt_or_eq_of_le (Nat.le_of_lt_succ hjl) with hjl | rfl
          · exact (key_lt_of_lt_lowerPlace hj hjl).not_gt
          · exact hnot
        · exact (le_key_lowerPlace hlt).trans_lt (hs.key_lt hlt hnext (Nat.lt_succ_self _))
      rw [hhere]
      exact hs.incr_eq hv (size_eq t ▸ hlt)

/-- The iterators of a tree are at the places of the map's entries, in their order, and at the end. -/
structure Iterates (key : V → K) (h : NodeHeap V) (p : Nat) (m : SortedList key) (place : Nat → Iterator) : Prop where
  begin_eq : Root.begin h p = some (place 0)
  end_eq : Root.end h p = some (place m.entries.length)
  deref : ∀ i (hi : i < m.entries.length), (place i).deref h = some m.entries[i]
  incr : ∀ i < m.entries.length, (place i).incr h = some (place (i + 1))
  decr : ∀ i < m.entries.length, (place (i + 1)).decr h = some (place i)
  eq : ∀ i ≤ m.entries.length, ∀ j ≤ m.entries.length, (place i).eq (place j) = decide (i = j)
  find : ∀ k, Root.find key h p k = some (place (m.entries.findIdx (key · = k)))
  lower_bound : ∀ k, Root.lower_bound key h p k = some (place (m.entries.findIdx (k ≤ key ·)))
  upper_bound : ∀ k, Root.upper_bound key h p k = some (place (m.entries.findIdx (k < key ·)))
  capacity : ∃ n, node h p = some n ∧ ∀ i, (place i).stack.max = n.height ∧ (place i).stack.elts.length ≤ n.height

theorem Stands.iterates {m : SortedList key} (hv : Valid h roots) (hs : Stands h p m) : ∃ place, Iterates key h p m place := by
  obtain ⟨s, hrep, hb, heq⟩ := hs
  obtain ⟨t, ht, rfl⟩ := hrep.places
  rw [toList_map] at heq
  have hsorted : t.Sorted fun x => key x.2 := by
    have hpairs := m.sorted
    rw [← heq, List.pairwise_map] at hpairs
    exact hpairs
  have hst : Searchable key h p t := ⟨ht, hsorted, hb.map _⟩
  have hlength : m.entries.length = t.size := by rw [← heq, List.length_map, size_eq]
  have hfind : ∀ f : V → Bool, m.entries.findIdx f = t.toList.findIdx fun x => f x.2 := fun f => by rw [← heq, List.findIdx_map]; rfl
  obtain ⟨n, hnode, hheight⟩ := ht.read hv
  refine ⟨placeAt p t, hst.begin_eq hv, ?_, fun i hi => ?_, fun i hi => ?_, fun i hi => ?_, fun i hi j hj => ?_, fun k => ?_,
    fun k => ?_, fun k => ?_, n, hnode, fun i => ?_⟩
  · rw [hlength]
    exact hst.end_eq hv
  · simp only [← heq, List.getElem_map]
    exact hst.deref_eq (by rwa [hlength, size_eq] at hi)
  · exact hst.incr_eq hv (hlength ▸ hi)
  · exact hst.decr_eq hv (hlength ▸ hi)
  · exact hst.eq_iff (hlength ▸ hi) (hlength ▸ hj)
  · rw [hfind]
    exact hst.find_eq hv k
  · rw [hfind]
    exact hst.lower_bound_eq hv k
  · rw [hfind]
    exact hst.upper_bound_eq hv k
  · rw [hheight, placeAt]
    split
    case isTrue =>
      refine ⟨rfl, (stackAt_length _ _ _ _).trans ?_⟩
      rw [hst.balanced.depth, List.length_nil, Nat.zero_add]
    case isFalse => exact ⟨rfl, Nat.zero_le _⟩

variable (key) in
/-- Every tree that there is after a sequence of operations has such iterators. -/
theorem Root.run_iterates (commands : List (Nat × Command K V)) :
    ∃ s, run key commands = some s ∧
      List.Forall₂ (fun p m => ∃ place, Iterates key s.heap p m place) s.trees (Maps.run key commands).trees := by
  obtain ⟨s, heq, hinv⟩ := Inv.run key commands
  exact ⟨s, heq, hinv.stands.imp fun p m hst => hst.iterates hinv.valid⟩

end

end

end CapTaint.Klee.ImmutableTree
