import Mathlib.Data.List.Nodup
import Mathlib.Data.List.Basic

/-! # Trees of linked nodes

Binary trees on a heap whose nodes have pointers to their parents and children. A path of frames leads from a place in
the tree up to its root. -/

namespace CapTaint.LinkedTree

variable {α γ : Type}

inductive Side
  | left
  | right
  deriving DecidableEq

def Side.other : Side → Side
  | left => right
  | right => left

/-- The pointers of a node. -/
structure Links where
  parent : Option Nat
  left : Option Nat
  right : Option Nat

def Links.child (l : Links) : Side → Option Nat
  | .left => l.left
  | .right => l.right

def Links.setChild (l : Links) (side : Side) (p : Option Nat) : Links :=
  match side with
  | .left => { l with left := p }
  | .right => { l with right := p }

/-- The links of a node with the child `p` at its side. -/
def Side.links (side : Side) (parent p q : Option Nat) : Links :=
  match side with
  | .left => ⟨parent, p, q⟩
  | .right => ⟨parent, q, p⟩

inductive Tree (α : Type)
  | nil
  | node (left : Tree α) (id : Nat) (value : α) (right : Tree α)

namespace Tree

def ptr : Tree α → Option Nat
  | nil => none
  | node _ id _ _ => some id

def toList : Tree α → List (Nat × α)
  | nil => []
  | node left id value right => left.toList ++ (id, value) :: right.toList

def ids (t : Tree α) : List Nat := t.toList.map Prod.fst

/-- A node with the subtree `t` at its side. -/
def join (side : Side) (t : Tree α) (id : Nat) (value : α) (other : Tree α) : Tree α :=
  match side with
  | .left => node t id value other
  | .right => node other id value t

end Tree

open LinkedTree.Tree

/-- A node above a place, with the subtree on the other side. -/
structure Frame (α : Type) where
  side : Side
  id : Nat
  value : α
  other : Tree α

def Frame.fill (f : Frame α) (t : Tree α) : Tree α := join f.side t f.id f.value f.other

/-- The whole tree. -/
def plug : List (Frame α) → Tree α → Tree α
  | [], t => t
  | f :: fs, t => plug fs (f.fill t)

def parent (fs : List (Frame α)) : Option Nat := fs.head?.map Frame.id

/-- The elements before a place. -/
def before : List (Frame α) → List (Nat × α)
  | [] => []
  | ⟨.left, _, _, _⟩ :: fs => before fs
  | ⟨.right, id, value, other⟩ :: fs => before fs ++ other.toList ++ [(id, value)]

/-- The elements after a place. -/
def after : List (Frame α) → List (Nat × α)
  | [] => []
  | ⟨.left, id, value, other⟩ :: fs => (id, value) :: other.toList ++ after fs
  | ⟨.right, _, _, _⟩ :: fs => after fs

/-- The nodes of the frames. -/
def idsAbove : List (Frame α) → List Nat
  | [] => []
  | f :: fs => f.id :: f.other.ids ++ idsAbove fs

/-- How a heap's nodes are read. -/
structure View (γ α : Type) where
  links : γ → Links
  value : γ → α

/-- There is a node with these links and this value. -/
def View.At (v : View γ α) (nodes : Nat → Option γ) (i : Nat) (links : Links) (value : α) : Prop :=
  ∃ c, nodes i = some c ∧ v.links c = links ∧ v.value c = value

/-- The nodes of the tree below a parent. -/
def View.Shape (v : View γ α) (nodes : Nat → Option γ) : Option Nat → Tree α → Prop
  | _, nil => True
  | above, node left id value right => v.At nodes id ⟨above, left.ptr, right.ptr⟩ value ∧
      View.Shape v nodes (some id) left ∧ View.Shape v nodes (some id) right

/-- The nodes above a place, whose child there is `p`. -/
def View.Above (v : View γ α) (nodes : Nat → Option γ) (root : Option Nat) : List (Frame α) → Option Nat → Prop
  | [], p => root = p
  | f :: fs, p => v.At nodes f.id (f.side.links (parent fs) p f.other.ptr) f.value ∧ v.Shape nodes (some f.id) f.other ∧
      View.Above v nodes root fs (some f.id)

/-- The tree is on the heap, seen from a place in it. -/
structure View.Holds (v : View γ α) (nodes : Nat → Option γ) (root : Option Nat) (fs : List (Frame α)) (t : Tree α) : Prop where
  shape : v.Shape nodes (parent fs) t
  above : v.Above nodes root fs t.ptr
  nodup : (plug fs t).ids.Nodup

variable {v : View γ α} {nodes nodes' : Nat → Option γ} {root root' : Option Nat} {f : Frame α} {fs gs : List (Frame α)}
  {t a b : Tree α} {i n : Nat} {value : α} {side : Side} {p q : Option Nat} {l : Links}

/-! ### Sides -/

@[simp] theorem child_links (above : Option Nat) : (side.links above p q).child side = p := by cases side <;> rfl

@[simp] theorem child_other_links (above : Option Nat) : (side.links above p q).child side.other = q := by cases side <;> rfl

@[simp] theorem parent_links (above : Option Nat) : (side.links above p q).parent = above := by cases side <;> rfl

@[simp] theorem child_with_parent (l : Links) : ({ l with parent := p } : Links).child side = l.child side := by cases side <;> rfl

theorem with_parent_links (above : Option Nat) {r : Option Nat} :
    ({ side.links above p q with parent := r } : Links) = side.links r p q := by cases side <;> rfl

theorem setChild_links (above : Option Nat) {r : Option Nat} : (side.links above p q).setChild side r = side.links above r q := by
  cases side <;> rfl

theorem setChild_other_links (above : Option Nat) {r : Option Nat} :
    (side.links above p q).setChild side.other r = side.links above p r := by cases side <;> rfl

theorem child_links_eq {side' : Side} (above : Option Nat) (hne : q ≠ p) : (side.links above p q).child side' = p ↔ side' = side := by
  cases side <;> cases side' <;> simp [Side.links, Links.child, hne]

theorem Side.eq_other {side' : Side} (hne : side ≠ side') : side = side'.other := by
  cases side <;> cases side' <;> first | rfl | exact absurd rfl hne

theorem join_other : join side.other a n value b = join side b n value a := by cases side <;> rfl

@[simp] theorem ptr_join : (join side a n value b).ptr = some n := by cases side <;> rfl

theorem ids_node {left right : Tree α} : (node left n value right).ids = left.ids ++ n :: right.ids := by simp [ids, toList]

theorem mem_ids_node {left right : Tree α} : i ∈ (node left n value right).ids ↔ i ∈ left.ids ∨ i = n ∨ i ∈ right.ids := by
  rw [ids_node, List.mem_append, List.mem_cons]

theorem mem_ids_join : i ∈ (join side a n value b).ids ↔ i ∈ a.ids ∨ i = n ∨ i ∈ b.ids := by
  cases side with
  | left => simp [join, ids, toList]
  | right =>
    simp only [join, ids, toList, List.map_append, List.map_cons, List.mem_append, List.mem_cons]
    tauto

@[simp] theorem parent_cons : parent (f :: fs) = some f.id := rfl

theorem plug_cons : plug (f :: fs) t = plug fs (f.fill t) := rfl

theorem exists_join (side : Side) {t : Tree α} (ht : t.ptr = some n) : ∃ a value b, t = join side a n value b := by
  cases t with
  | nil => cases ht
  | node left id value right =>
    obtain rfl := Option.some.inj ht
    cases side with
    | left => exact ⟨left, value, right, rfl⟩
    | right => exact ⟨right, value, left, rfl⟩

theorem shape_join {above : Option Nat} : v.Shape nodes above (join side a n value b) ↔
    v.At nodes n (side.links above a.ptr b.ptr) value ∧ v.Shape nodes (some n) a ∧ v.Shape nodes (some n) b := by
  cases side with
  | left => exact Iff.rfl
  | right => exact and_congr_right' and_comm

/-! ### Lists -/

theorem toList_plug : (fs : List (Frame α)) → (t : Tree α) → (plug fs t).toList = before fs ++ t.toList ++ after fs
  | [], t => by simp [plug, before, after]
  | ⟨.left, id, value, other⟩ :: fs, t => by
    rw [plug_cons, toList_plug fs]
    simp [Frame.fill, join, toList, before, after]
  | ⟨.right, id, value, other⟩ :: fs, t => by
    rw [plug_cons, toList_plug fs]
    simp [Frame.fill, join, toList, before, after]

theorem before_subset (f : Frame α) (fs : List (Frame α)) : before fs ⊆ before (f :: fs) := by
  obtain ⟨_ | _, id, value, other⟩ := f
  · exact fun x hx => hx
  · exact List.Subset.trans (List.subset_append_left _ _) (List.subset_append_left _ _)

theorem after_subset (f : Frame α) (fs : List (Frame α)) : after fs ⊆ after (f :: fs) := by
  obtain ⟨_ | _, id, value, other⟩ := f
  · exact List.subset_append_right _ _
  · exact fun x hx => hx

theorem plug_append (fs gs : List (Frame α)) (t : Tree α) : plug (fs ++ gs) t = plug gs (plug fs t) := by
  induction fs generalizing t with
  | nil => rfl
  | cons f fs ih => exact ih _

theorem mem_plug (hi : i ∈ t.ids) : i ∈ (plug fs t).ids := by
  obtain ⟨x, hx, rfl⟩ := List.mem_map.mp hi
  refine List.mem_map_of_mem ?_
  rw [toList_plug]
  exact List.mem_append_left _ (List.mem_append_right _ hx)

/-- Every node is at a place. -/
theorem exists_plug (hi : i ∈ t.ids) : ∃ fs a value b, t = plug fs (node a i value b) := by
  induction t with
  | nil => cases hi
  | node left id value right ihl ihr =>
    rw [mem_ids_node] at hi
    rcases hi with hi | rfl | hi
    · obtain ⟨fs, a, x, b, heq⟩ := ihl hi
      exact ⟨fs ++ [⟨.left, id, value, right⟩], a, x, b, by rw [plug_append, ← heq]; rfl⟩
    · exact ⟨[], left, value, right, rfl⟩
    · obtain ⟨fs, a, x, b, heq⟩ := ihr hi
      exact ⟨fs ++ [⟨.right, id, value, left⟩], a, x, b, by rw [plug_append, ← heq]; rfl⟩

theorem ids_join_perm : (join side a n value b).ids.Perm (a.ids ++ n :: b.ids) := by
  cases side with
  | left => simp [join, ids, toList]
  | right =>
    simp only [join, ids, toList, List.map_append, List.map_cons]
    exact List.perm_append_comm.trans (List.perm_middle.symm)

theorem ids_plug_perm (fs : List (Frame α)) (t : Tree α) : (plug fs t).ids.Perm (t.ids ++ idsAbove fs) := by
  induction fs generalizing t with
  | nil => simp [plug, idsAbove]
  | cons f fs ih =>
    refine (ih (f.fill t)).trans ((ids_join_perm.append_right _).trans ?_)
    simp [idsAbove]

theorem ids_place_perm {x : α} (fs : List (Frame α)) :
    (plug fs (join side a n x b)).ids.Perm (a.ids ++ n :: b.ids ++ idsAbove fs) :=
  (ids_plug_perm _ _).trans (ids_join_perm.append_right _)

/-- The nodes around a link are different. -/
theorem nodup_around {x : α} (h : (plug (f :: fs) (join side a n x b)).ids.Nodup) :
    (a.ids ++ n :: b.ids ++ (f.id :: f.other.ids ++ idsAbove fs)).Nodup :=
  (ids_place_perm _).nodup_iff.mp h

theorem mem_around {x : α} : i ∈ (plug (f :: fs) (join side a n x b)).ids ↔
    i ∈ a.ids ++ n :: b.ids ++ (f.id :: f.other.ids ++ idsAbove fs) :=
  (ids_place_perm _).mem_iff

theorem ptr_mem (ht : t.ptr = some i) : i ∈ t.ids := by
  cases t with
  | nil => cases ht
  | node =>
    obtain rfl := Option.some.inj ht
    simp [ids, toList]

theorem parent_mem (ht : parent fs = some i) : i ∈ idsAbove fs := by
  cases fs with
  | nil => cases ht
  | cons f fs =>
    obtain rfl := Option.some.inj ht
    exact List.mem_cons_self

theorem mem_idsAbove (hf : f ∈ fs) (hi : i ∈ f.other.ids) : i ∈ idsAbove fs := by
  induction fs with
  | nil => cases hf
  | cons g gs ih =>
    rw [idsAbove, List.mem_append, List.mem_cons]
    rcases List.mem_cons.mp hf with rfl | hf
    · exact .inl (.inr hi)
    · exact .inr (ih hf)

/-! ### Changes -/

/-- What is read of the nodes is kept. -/
theorem View.Shape.congr {above : Option Nat} (ht : v.Shape nodes above t)
    (hkeep : ∀ i ∈ t.ids, ∀ l x, v.At nodes i l x → v.At nodes' i l x) : v.Shape nodes' above t := by
  induction t generalizing above with
  | nil => trivial
  | node left id value right ihl ihr =>
    obtain ⟨hat, hl, hr⟩ := ht
    have hmem : ∀ {i}, i ∈ left.ids ∨ i = id ∨ i ∈ right.ids → i ∈ (Tree.node left id value right).ids := mem_ids_node.mpr
    exact ⟨hkeep id (hmem (.inr (.inl rfl))) _ _ hat, ihl hl fun i hi => hkeep i (hmem (.inl hi)),
      ihr hr fun i hi => hkeep i (hmem (.inr (.inr hi)))⟩

theorem View.Above.congr (ht : v.Above nodes root fs p) (hkeep : ∀ i ∈ idsAbove fs, ∀ l x, v.At nodes i l x → v.At nodes' i l x) :
    v.Above nodes' root fs p := by
  induction fs generalizing p with
  | nil => exact ht
  | cons f fs ih =>
    obtain ⟨hat, hother, habove⟩ := ht
    have hmem : ∀ {i}, i ∈ f.other.ids ∨ i ∈ idsAbove fs → i ∈ idsAbove (f :: fs) := fun hi =>
      List.mem_cons_of_mem _ (List.mem_append.mpr hi)
    exact ⟨hkeep _ List.mem_cons_self _ _ hat, hother.congr fun i hi => hkeep i (hmem (.inl hi)),
      ih habove fun i hi => hkeep i (hmem (.inr hi))⟩

theorem View.Holds.congr (h : v.Holds nodes root fs t)
    (hkeep : ∀ i ∈ (plug fs t).ids, ∀ l x, v.At nodes i l x → v.At nodes' i l x) : v.Holds nodes' root fs t := by
  have hmem : ∀ {i}, i ∈ t.ids ∨ i ∈ idsAbove fs → i ∈ (plug fs t).ids := fun hi =>
    (ids_plug_perm fs t).mem_iff.mpr (List.mem_append.mpr hi)
  exact ⟨h.shape.congr fun i hi => hkeep i (hmem (.inl hi)), h.above.congr fun i hi => hkeep i (hmem (.inr hi)), h.nodup⟩

/-! ### Places -/

/-- The place of a node and that of its child. -/
theorem holds_cons : v.Holds nodes root (f :: fs) t ↔ v.Holds nodes root fs (f.fill t) := by
  constructor
  · rintro ⟨hshape, ⟨hat, hother, habove⟩, hnodup⟩
    exact ⟨shape_join.mpr ⟨hat, hshape, hother⟩, by rw [Frame.fill, ptr_join]; exact habove, hnodup⟩
  · rintro ⟨hshape, habove, hnodup⟩
    obtain ⟨hat, ht, hother⟩ := shape_join.mp hshape
    rw [Frame.fill, ptr_join] at habove
    exact ⟨ht, ⟨hat, hother, habove⟩, hnodup⟩

theorem holds_plug : v.Holds nodes root fs t ↔ v.Holds nodes root [] (plug fs t) := by
  induction fs generalizing t with
  | nil => rfl
  | cons f fs ih => rw [holds_cons, ih, plug_cons]

theorem View.Holds.root_eq (h : v.Holds nodes root fs t) : root = (plug fs t).ptr := (holds_plug.mp h).above

theorem View.Holds.at (h : v.Holds nodes root fs (join side a n value b)) :
    v.At nodes n (side.links (parent fs) a.ptr b.ptr) value := (shape_join.mp h.shape).1

/-- A heap has one tree at a pointer. -/
theorem View.Shape.unique {above above' : Option Nat} {t' : Tree α} (ht : v.Shape nodes above t) (ht' : v.Shape nodes above' t')
    (hptr : t.ptr = t'.ptr) : t = t' := by
  induction t generalizing above above' t' with
  | nil =>
    cases t' with
    | nil => rfl
    | node => cases hptr
  | node left n value right ihl ihr =>
    cases t' with
    | nil => cases hptr
    | node left' n' value' right' =>
      obtain rfl := Option.some.inj hptr
      obtain ⟨⟨c, hc, hlinks, hvalue⟩, hl, hr⟩ := ht
      obtain ⟨⟨c', hc', hlinks', hvalue'⟩, hl', hr'⟩ := ht'
      obtain rfl := Option.some.inj (hc.symm.trans hc')
      have hsame := hlinks.symm.trans hlinks'
      rw [ihl hl hl' (congrArg Links.left hsame), ihr hr hr' (congrArg Links.right hsame), hvalue.symm.trans hvalue']

theorem View.Holds.unique {t' : Tree α} (h : v.Holds nodes root fs t) (h' : v.Holds nodes root gs t') : plug fs t = plug gs t' :=
  (holds_plug.mp h).shape.unique (holds_plug.mp h').shape (h.root_eq.symm.trans h'.root_eq)

/-- The root of a subtree has got another parent. -/
theorem View.Shape.reparent {above above' : Option Nat} (ht : v.Shape nodes above t) (hnodup : t.ids.Nodup)
    (htop : ∀ i, t.ptr = some i → ∀ l y, v.At nodes i l y → v.At nodes' i { l with parent := above' } y)
    (hrest : ∀ i ∈ t.ids, t.ptr ≠ some i → ∀ l y, v.At nodes i l y → v.At nodes' i l y) : v.Shape nodes' above' t := by
  cases t with
  | nil => trivial
  | node left n value right =>
    obtain ⟨hat, hl, hr⟩ := ht
    have hbelow : ∀ i, i ∈ left.ids ∨ i ∈ right.ids → ∀ l y, v.At nodes i l y → v.At nodes' i l y := fun i hi => by
      have hmem : i ∈ (Tree.node left n value right).ids := mem_ids_node.mpr (hi.imp_right .inr)
      have hne : i ≠ n := by
        rw [ids_node] at hnodup
        grind
      exact hrest i hmem fun heq => hne (Option.some.inj heq).symm
    exact ⟨htop n rfl _ _ hat, hl.congr fun i hi => hbelow i (.inl hi), hr.congr fun i hi => hbelow i (.inr hi)⟩

/-- The node above a place has got another child there. -/
theorem View.Above.relink (h : v.Above nodes root fs q) (hnodup : (idsAbove fs).Nodup)
    (hg : ∀ g gs, fs = g :: gs → v.At nodes' g.id (g.side.links (parent gs) p g.other.ptr) g.value)
    (hrest : ∀ i ∈ idsAbove fs, parent fs ≠ some i → ∀ l y, v.At nodes i l y → v.At nodes' i l y) :
    v.Above nodes' (if fs = [] then p else root) fs p := by
  cases fs with
  | nil => rfl
  | cons g gs =>
    obtain ⟨-, hgother, hgs⟩ := h
    have hup : ∀ i, i ∈ g.other.ids ∨ i ∈ idsAbove gs → ∀ l y, v.At nodes i l y → v.At nodes' i l y := fun i hi => by
      have hmem : i ∈ idsAbove (g :: gs) := List.mem_cons_of_mem _ (List.mem_append.mpr hi)
      have hne : i ≠ g.id := by
        rw [idsAbove] at hnodup
        grind
      exact hrest i hmem fun heq => hne (Option.some.inj heq).symm
    rw [if_neg (List.cons_ne_nil _ _)]
    exact ⟨hg g gs rfl, hgother.congr fun i hi => hup i (.inl hi), hgs.congr fun i hi => hup i (.inr hi)⟩

/-- The node of a place has got another value. -/
theorem View.Holds.setValue {x y : α} (h : v.Holds nodes root fs (join side a n x b))
    (hn : v.At nodes' n (side.links (parent fs) a.ptr b.ptr) y)
    (hrest : ∀ i, i ≠ n → ∀ l z, v.At nodes i l z → v.At nodes' i l z) : v.Holds nodes' root fs (join side a n y b) := by
  have hdistinct := (ids_place_perm fs).nodup_iff.mp h.nodup
  obtain ⟨-, ha, hb⟩ := shape_join.mp h.shape
  have habove := h.above
  rw [ptr_join] at habove
  exact ⟨shape_join.mpr ⟨hn, ha.congr fun i hi => hrest i (by grind), hb.congr fun i hi => hrest i (by grind)⟩,
    ptr_join ▸ habove.congr fun i hi => hrest i (by grind), (ids_place_perm fs).nodup_iff.mpr hdistinct⟩

/-! ### Rotations -/

theorem toList_rotate {x y : α} {c : Tree α} {m : Nat} :
    (join side a n x (join side b m y c)).toList = (join side (join side a n x b) m y c).toList := by
  cases side <;> simp [join, toList]

/-- A node has taken the place of its parent, which has got its inner child. -/
theorem View.Holds.rotate {x : α} (h : v.Holds nodes root (f :: fs) (join f.side a n x b))
    (hn : v.At nodes' n (f.side.links (parent fs) a.ptr (some f.id)) x)
    (hp : v.At nodes' f.id (f.side.links (some n) b.ptr f.other.ptr) f.value)
    (hb : ∀ i, b.ptr = some i → ∀ l y, v.At nodes i l y → v.At nodes' i { l with parent := some f.id } y)
    (hg : ∀ g gs, fs = g :: gs → v.At nodes' g.id (g.side.links (parent gs) (some n) g.other.ptr) g.value)
    (hrest : ∀ i, i ≠ n → i ≠ f.id → b.ptr ≠ some i → parent fs ≠ some i → ∀ l y, v.At nodes i l y → v.At nodes' i l y) :
    v.Holds nodes' (if fs = [] then some n else root) fs (join f.side a n x (join f.side b f.id f.value f.other)) := by
  have hdistinct := nodup_around h.nodup
  have hnodup : (plug fs (join f.side a n x (join f.side b f.id f.value f.other))).ids.Nodup := by
    have hold := h.nodup
    rw [ids, plug_cons, Frame.fill, toList_plug, ← toList_rotate, ← toList_plug] at hold
    exact hold
  obtain ⟨hshape, ⟨-, hother, habove⟩, -⟩ := h
  obtain ⟨-, ha, hbshape⟩ := shape_join.mp hshape
  have hb' : ∀ i, b.ptr = some i → i ∈ b.ids := fun i hi => ptr_mem hi
  have hfs : ∀ i, parent fs = some i → i ∈ idsAbove fs := fun i hi => parent_mem hi
  have hfar : ∀ i, i ∈ a.ids ∨ i ∈ f.other.ids → ∀ l y, v.At nodes i l y → v.At nodes' i l y := fun i hi =>
    hrest i (by grind) (by grind) (by grind) (by grind)
  refine ⟨shape_join.mpr ⟨by rw [ptr_join]; exact hn, ha.congr fun i hi => hfar i (.inl hi),
    shape_join.mpr ⟨hp, hbshape.reparent (by grind) hb ?_, hother.congr fun i hi => hfar i (.inr hi)⟩⟩, ?_, hnodup⟩
  · exact fun i hi hne => hrest i (by grind) (by grind) hne (by grind)
  · rw [ptr_join]
    exact habove.relink (by grind) hg fun i hi hne => hrest i (by grind) (by grind) (by grind) hne

/-! ### Leaves -/

/-- A new node is at a place that was empty. -/
theorem View.Holds.attach {x : α} (h : v.Holds nodes root fs .nil) (hfresh : n ∉ idsAbove fs)
    (hn : v.At nodes' n ⟨parent fs, none, none⟩ x)
    (hg : ∀ g gs, fs = g :: gs → v.At nodes' g.id (g.side.links (parent gs) (some n) g.other.ptr) g.value)
    (hrest : ∀ i, i ≠ n → parent fs ≠ some i → ∀ l y, v.At nodes i l y → v.At nodes' i l y) :
    v.Holds nodes' (if fs = [] then some n else root) fs (.node .nil n x .nil) := by
  have hdistinct : (idsAbove fs).Nodup := by simpa [ids, toList] using (ids_plug_perm fs (.nil : Tree α)).nodup_iff.mp h.nodup
  refine ⟨⟨hn, trivial, trivial⟩, h.above.relink hdistinct hg fun i hi hne => hrest i (fun heq => hfresh (heq ▸ hi)) hne,
    (ids_plug_perm fs _).nodup_iff.mpr ?_⟩
  simpa [ids, toList] using ⟨hfresh, hdistinct⟩

/-- The only child of a node, or nothing, has taken its place. -/
theorem View.Holds.splice {x : α} (h : v.Holds nodes root fs (join side a n x .nil))
    (ha : ∀ i, a.ptr = some i → ∀ l y, v.At nodes i l y → v.At nodes' i { l with parent := parent fs } y)
    (hg : ∀ g gs, fs = g :: gs → v.At nodes' g.id (g.side.links (parent gs) a.ptr g.other.ptr) g.value)
    (hrest : ∀ i, i ≠ n → a.ptr ≠ some i → parent fs ≠ some i → ∀ l y, v.At nodes i l y → v.At nodes' i l y) :
    v.Holds nodes' (if fs = [] then a.ptr else root) fs a := by
  have hdistinct := (ids_place_perm fs).nodup_iff.mp h.nodup
  obtain ⟨-, ha', -⟩ := shape_join.mp h.shape
  have hptr : ∀ i, a.ptr = some i → i ∈ a.ids := fun i hi => ptr_mem hi
  have hfs : ∀ i, parent fs = some i → i ∈ idsAbove fs := fun i hi => parent_mem hi
  exact ⟨ha'.reparent (by grind) ha fun i hi hne => hrest i (by grind) hne (by grind),
    h.above.relink (by grind) hg fun i hi hne => hrest i (by grind) (by grind) hne, (ids_plug_perm fs a).nodup_iff.mpr (by grind)⟩

end CapTaint.LinkedTree
