import CapTaint.Lib.RedBlack
import CapTaint.Theorems.PdfTree

/-! # The balance of a DiscretePDF

Whatever `split` and `lengthen` do, the tree keeps its elements and its sums away from the place of the change. The root
stays black, and so there is a parent above each red node. -/

namespace CapTaint.Klee.DiscretePDF

open LinkedTree LinkedTree.Tree

variable {T : Type} {s s' : DiscretePDF T} {f : Frame (T × ℚ)} {fs : List (Frame (T × ℚ))} {t a b l r : LinkedTree.Tree (T × ℚ)}
  {i n q : Nat} {x : T × ℚ} {Q : List Nat} {side : Side} {L : List (Nat × T × ℚ)}

/-! ### Marks -/

def RootBlack (s : DiscretePDF T) : Prop := ∀ i, s.m_root = some i → s.isRed i = false

def redAt (red : Nat → Bool) (p : Option Nat) : Bool := p.elim false red

/-- The marks when the child has been made black. -/
def unmark (red : Nat → Bool) : Option Nat → Nat → Bool
  | none => red
  | some i => Function.update red i false

/-- The number of red nodes. -/
def reds (s : DiscretePDF T) (L : List (Nat × T × ℚ)) : Nat := (L.map Prod.fst).countP s.isRed

theorem countP_update {ids : List Nat} (hnodup : ids.Nodup) (hi : i ∈ ids) (red : Nat → Bool) (value : Bool) :
    ids.countP (Function.update red i value) + (if red i then 1 else 0) = ids.countP red + if value then 1 else 0 := by
  induction ids with
  | nil => cases hi
  | cons j ids ih =>
    obtain ⟨hj, hids⟩ := List.nodup_cons.mp hnodup
    rw [List.countP_cons, List.countP_cons]
    rcases List.mem_cons.mp hi with rfl | hi
    · have hsame : ids.countP (Function.update red i value) = ids.countP red :=
        List.countP_congr fun k hk => by rw [Function.update_of_ne (ne_of_mem_of_not_mem hk hj)]
      rw [hsame, Function.update_self]
      omega
    · have hne : j ≠ i := fun heq => hj (heq ▸ hi)
      rw [Function.update_of_ne hne]
      have := ih hids hi
      omega

theorem Inv.nodup (h : Inv s L Q fs t) : (L.map Prod.fst).Nodup := h.ids ▸ h.holds.nodup

theorem Inv.reds_red (h : Inv s L Q fs t) (hi : i ∈ L.map Prod.fst) (hred : s'.isRed = Function.update s.isRed i true) :
    reds s' L ≤ reds s L + 1 := by
  have hcount := countP_update h.nodup hi s.isRed true
  rw [← hred, if_pos rfl] at hcount
  exact (Nat.le_add_right _ _).trans hcount.le

theorem Inv.reds_black (h : Inv s L Q fs t) (hi : i ∈ L.map Prod.fst) (hwas : s.isRed i = true)
    (hred : s'.isRed = Function.update s.isRed i false) : reds s' L + 1 = reds s L := by
  have hcount := countP_update h.nodup hi s.isRed false
  rwa [← hred, if_pos hwas, if_neg Bool.false_ne_true] at hcount

theorem Inv.isBlack_eq (h : Inv s L Q fs t) (hi : i ∈ L.map Prod.fst) : s.isBlack i = some (!s.isRed i) := by
  obtain ⟨c, hc⟩ := h.live hi
  rw [isBlack, isRed, hc]
  rfl

theorem Inv.node (h : Inv s L Q fs (join side a n x b)) :
    ∃ c, s.nodes n = some c ∧ c.toLinks = side.links (parent fs) a.ptr b.ptr := by
  obtain ⟨c, hc, hlinks, -⟩ := h.holds.at
  exact ⟨c, hc, hlinks⟩

theorem Inv.mem_child (h : Inv s L Q fs (join side a n x b)) (hi : a.ptr = some i) : i ∈ L.map Prod.fst :=
  h.mem (mem_ids_join.mpr (.inl (ptr_mem hi)))

theorem Inv.mem_self (h : Inv s L Q fs (join side a n x b)) : n ∈ L.map Prod.fst := h.mem (mem_ids_join.mpr (.inr (.inl rfl)))

theorem Inv.mem_above (h : Inv s L Q fs t) (hi : i ∈ idsAbove fs) : i ∈ L.map Prod.fst :=
  h.ids ▸ (ids_plug_perm fs t).mem_iff.mpr (List.mem_append_right _ hi)

theorem Inv.childIsBlack_eq (h : Inv s L Q fs (join side a n x b)) :
    s.childIsBlack side n = some (!redAt s.isRed a.ptr) := by
  obtain ⟨c, hc, hlinks⟩ := h.node
  have hchild : c.child side = a.ptr := by rw [hlinks, child_links]
  simp only [childIsBlack, hc, hchild, Option.bind_eq_bind, Option.bind_some]
  cases hptr : a.ptr with
  | none => rfl
  | some i => exact h.isBlack_eq (h.mem_child hptr)

theorem Inv.markChild (h : Inv s L Q fs (join side a n x b)) :
    ∃ s', s.markChildBlack side n = some s' ∧ Inv s' L Q fs (join side a n x b) ∧ Within s s' L ∧
      s'.isRed = unmark s.isRed a.ptr := by
  obtain ⟨c, hc, hlinks⟩ := h.node
  have hchild : c.child side = a.ptr := by rw [hlinks, child_links]
  simp only [markChildBlack, hc, hchild, Option.bind_eq_bind, Option.bind_some]
  cases hptr : a.ptr with
  | none => exact ⟨s, rfl, h, .refl s L, rfl⟩
  | some i => exact h.setMark (h.mem_child hptr) false

/-- Every place but the top one is below the root. -/
theorem ptr_plug_cons (f : Frame (T × ℚ)) (fs : List (Frame (T × ℚ))) :
    ∃ i ∈ idsAbove (f :: fs), ∀ t, (plug (f :: fs) t).ptr = some i := by
  induction fs generalizing f with
  | nil => exact ⟨f.id, List.mem_cons_self, fun t => ptr_join⟩
  | cons g gs ih =>
    obtain ⟨i, hi, hptr⟩ := ih g
    exact ⟨i, List.mem_append_right _ hi, fun t => hptr (f.fill t)⟩

theorem RootBlack.unmark {p : Option Nat} (h : RootBlack s) (hroot : s'.m_root = s.m_root) (hred : s'.isRed = unmark s.isRed p) :
    RootBlack s' := by
  intro i hi
  rw [hred]
  rw [hroot] at hi
  cases p with
  | none => exact h i hi
  | some j =>
    rw [DiscretePDF.unmark, Function.update_apply]
    split
    case isTrue => rfl
    case isFalse => exact h i hi

theorem Inv.root_eq (h : Inv s L Q fs t) : s.m_root = (plug fs t).ptr := h.holds.root_eq

/-! ### Splits -/

/-- What is left of a node at a place after a split. The node may have gone up. -/
structure Split (s s' : DiscretePDF T) (L : List (Nat × T × ℚ)) (fs : List (Frame (T × ℚ))) (n : Nat) (x : T × ℚ)
    (fs' : List (Frame (T × ℚ))) (l' r' : LinkedTree.Tree (T × ℚ)) : Prop where
  inv : Inv s' L [n] fs' (.node l' n x r')
  within : Within s s' L
  root : RootBlack s'
  before : before fs' ⊆ before fs
  after : after fs' ⊆ after fs

theorem RootBlack.keep {Q' : List Nat} {t' : LinkedTree.Tree (T × ℚ)} (hroot : RootBlack s) (h : Inv s L Q fs t) (h' : Inv s' L Q' fs t')
    (htop : fs = [] → ∀ i, t'.ptr = some i → s'.isRed i = false) (hsame : ∀ i ∈ idsAbove fs, s'.isRed i = s.isRed i) : RootBlack s' := by
  intro i hi
  rw [h'.root_eq] at hi
  cases fs with
  | nil => exact htop rfl i hi
  | cons f fs =>
    obtain ⟨j, hj, hptr⟩ := ptr_plug_cons f fs
    obtain rfl := Option.some.inj ((hptr t').symm.trans hi)
    rw [hsame j hj]
    exact hroot j (h.root_eq.trans (hptr t))

/-- What a split has done at the place of the node `n`, from the marks `red` of a red node with black children: nothing more, a
rotation of its red parent, or two rotations of the node. -/
inductive Raised (red red' : Nat → Bool) (n : Nat) (x : T × ℚ) (l r : LinkedTree.Tree (T × ℚ)) :
    List (Frame (T × ℚ)) → List (Frame (T × ℚ)) → LinkedTree.Tree (T × ℚ) → LinkedTree.Tree (T × ℚ) → Prop
  | stay {fs : List (Frame (T × ℚ))} (hp : ∀ f ∈ fs.head?, red f.id = false) (hred : red' = red) : Raised red red' n x l r fs fs l r
  | straight {f g : Frame (T × ℚ)} {gs : List (Frame (T × ℚ))} (hp : red f.id = true) (hside : f.side = g.side)
      (hred : red' = Function.update (Function.update red g.id true) f.id false) :
      Raised red red' n x l r (f :: g :: gs) (⟨g.side, f.id, f.value, join g.side f.other g.id g.value g.other⟩ :: gs) l r
  | bent {f g : Frame (T × ℚ)} {gs : List (Frame (T × ℚ))} {a b l' r' : LinkedTree.Tree (T × ℚ)} (hp : red f.id = true)
      (hside : f.side ≠ g.side) (hred : red' = Function.update (Function.update red g.id true) n false)
      (hold : join f.side a n x b = .node l n x r)
      (hnew : join g.side (join f.side b f.id f.value f.other) n x (join g.side a g.id g.value g.other) = .node l' n x r') :
      Raised red red' n x l r (f :: g :: gs) gs l' r'

/-- The grandparent is marked, and the directions are compared. -/
theorem splitBelowRed_eq {g : Frame (T × ℚ)} {gs : List (Frame (T × ℚ))} (h : Inv s L Q (f :: g :: gs) t) (hn : t.ptr = some n) :
    ∃ s₁, Inv s₁ L Q (f :: g :: gs) t ∧ Within s s₁ L ∧ s₁.isRed = Function.update s.isRed g.id true ∧
      s.splitBelowRed n f.id = if f.side = g.side then (s₁.rotate f.id).bind fun s => s.markBlack f.id
        else (s₁.rotate n).bind fun s => (s.rotate n).bind fun s => s.markBlack n := by
  have hdistinct := (ids_plug_perm _ _).nodup_iff.mp h.holds.nodup
  simp only [idsAbove] at hdistinct
  obtain ⟨cp, hcp, hplinks⟩ := (inv_cons.mp h).node
  obtain ⟨s₁, heq₁, h₁, hw₁, hred₁⟩ := h.setMark (h.mem_above (i := g.id) (by simp [idsAbove])) true
  obtain ⟨cg, hcg, hglinks⟩ := (inv_cons.mp (inv_cons.mp h₁)).node
  have htmem := ptr_mem hn
  have hpn : ∀ side, cp.child side = some n ↔ side = f.side := fun side => by
    rw [hplinks, hn]
    exact child_links_eq _ fun heq => by have := ptr_mem heq; grind
  have hgp : ∀ side, cg.child side = some f.id ↔ side = g.side := fun side => by
    rw [hglinks, show (f.fill t).ptr = some f.id from ptr_join]
    exact child_links_eq _ fun heq => by have := ptr_mem heq; grind
  have hcond : (cp.left = some n ∧ cg.left = some f.id ∨ cp.right = some n ∧ cg.right = some f.id) ↔ f.side = g.side := by
    change (cp.child .left = some n ∧ cg.child .left = some f.id ∨ cp.child .right = some n ∧ cg.child .right = some f.id) ↔ _
    rw [hpn, hgp, hpn, hgp]
    cases f.side <;> cases g.side <;> simp
  have hparent : cp.parent = some g.id := by rw [hplinks, parent_links, parent_cons]
  have hmark : s.markRed g.id = some s₁ := heq₁
  refine ⟨s₁, h₁, hw₁, hred₁, ?_⟩
  simp only [splitBelowRed, hcp, hparent, hmark, hcg, hcond, Option.bind_eq_bind, Option.bind_some]

theorem splitBelowRed_straight {g : Frame (T × ℚ)} {gs : List (Frame (T × ℚ))} (h : Inv s L [n] (f :: g :: gs) (.node l n x r))
    (hside : f.side = g.side) : ∃ s', s.splitBelowRed n f.id = some s' ∧
      Inv s' L [n] (⟨g.side, f.id, f.value, join g.side f.other g.id g.value g.other⟩ :: gs) (.node l n x r) ∧ Within s s' L ∧
      s'.isRed = Function.update (Function.update s.isRed g.id true) f.id false := by
  obtain ⟨s₁, h₁, hw₁, hred₁, hsplit⟩ := splitBelowRed_eq h rfl
  have hturn : Inv s₁ L [n] (g :: gs) (join g.side (.node l n x r) f.id f.value f.other) := hside ▸ inv_cons.mp h₁
  obtain ⟨s₂, heq₂, h₂, hw₂, hred₂⟩ := hturn.rotate
    ⟨n, mem_ids_join.mpr (.inl (mem_ids_join.mpr (.inl (mem_ids_node.mpr (.inr (.inl rfl)))))), List.mem_singleton_self n⟩
  obtain ⟨s₃, heq₃, h₃, hw₃, hred₃⟩ := h₂.setMark h₂.mem_self false
  refine ⟨s₃, ?_, inv_cons.mpr h₃, hw₁.trans (hw₂.trans hw₃), by rw [hred₃, hred₂, hred₁]⟩
  rw [hsplit, if_pos hside, heq₂, Option.bind_some]
  exact heq₃

theorem splitBelowRed_bent {g : Frame (T × ℚ)} {gs : List (Frame (T × ℚ))} (h : Inv s L [n] (f :: g :: gs) (join f.side a n x b))
    (hside : f.side ≠ g.side) : ∃ s', s.splitBelowRed n f.id = some s' ∧
      Inv s' L [n] gs (join g.side (join f.side b f.id f.value f.other) n x (join g.side a g.id g.value g.other)) ∧ Within s s' L ∧
      s'.isRed = Function.update (Function.update s.isRed g.id true) n false := by
  obtain ⟨s₁, h₁, hw₁, hred₁, hsplit⟩ := splitBelowRed_eq h ptr_join
  have hswap : f.side = g.side.other := Side.eq_other hside
  obtain ⟨s₂, heq₂, h₂, hw₂, hred₂⟩ := h₁.rotate ⟨n, mem_ids_join.mpr (.inl (mem_ids_join.mpr (.inr (.inl rfl)))),
    List.mem_singleton_self n⟩
  rw [hswap, join_other, ← hswap] at h₂
  obtain ⟨s₃, heq₃, h₃, hw₃, hred₃⟩ := h₂.rotate ⟨n, mem_ids_join.mpr (.inl (mem_ids_join.mpr (.inr (.inl rfl)))),
    List.mem_singleton_self n⟩
  obtain ⟨s₄, heq₄, h₄, hw₄, hred₄⟩ := h₃.setMark h₃.mem_self false
  refine ⟨s₄, ?_, h₄, hw₁.trans (hw₂.trans (hw₃.trans hw₄)), by rw [hred₄, hred₃, hred₂, hred₁]⟩
  rw [hsplit, if_neg hside, heq₂, Option.bind_some, heq₃, Option.bind_some]
  exact heq₄

theorem splitBelowRed_spec (h : Inv s L [n] (f :: fs) (.node l n x r)) (hn : s.isRed n = true) (hp : s.isRed f.id = true)
    (hroot : RootBlack s) : ∃ s' fs' l' r', s.splitBelowRed n f.id = some s' ∧ Split s s' L (f :: fs) n x fs' l' r' ∧
      reds s' L ≤ reds s L ∧ Raised s.isRed s'.isRed n x l r (f :: fs) fs' l' r' := by
  have hdistinct := (ids_plug_perm _ _).nodup_iff.mp h.holds.nodup
  rw [ids_node] at hdistinct
  cases fs with
  | nil =>
    have hblack := hroot f.id (h.root_eq.trans ptr_join)
    rw [hp] at hblack
    cases hblack
  | cons g gs =>
    simp only [idsAbove] at hdistinct
    have hstart : Inv s L [n] gs (g.fill (f.fill (.node l n x r))) := inv_cons.mp (inv_cons.mp h)
    have hgmem : g.id ∈ L.map Prod.fst := h.mem_above (by simp [idsAbove])
    -- one node has become red, and the one on top, which was red, is black
    have hreds : ∀ {s' : DiscretePDF T} {j : Nat}, j ≠ g.id → j ∈ L.map Prod.fst → s.isRed j = true →
        s'.isRed = Function.update (Function.update s.isRed g.id true) j false → reds s' L ≤ reds s L := by
      intro s' j hj hmem hwas hred
      have hg := countP_update h.nodup hgmem s.isRed true
      have hcount := countP_update h.nodup hmem (Function.update s.isRed g.id true) false
      rw [← hred, Function.update_of_ne hj, if_pos hwas, if_neg Bool.false_ne_true] at hcount
      rw [if_pos rfl] at hg
      rw [reds, reds]
      omega
    by_cases hside : f.side = g.side
    · obtain ⟨s', heq, h', hw, hred⟩ := splitBelowRed_straight h hside
      refine ⟨s', _, l, r, heq, ⟨h', hw, ?_, ?_, ?_⟩, hreds (by grind) (h.mem_above List.mem_cons_self) hp hred,
        .straight hp hside hred⟩
      · refine hroot.keep hstart (inv_cons.mp h') (fun _ i hi => ?_) fun i hi => ?_
        · obtain rfl := Option.some.inj (ptr_join.symm.trans hi)
          rw [hred, Function.update_self]
        · rw [hred, Function.update_of_ne (by grind), Function.update_of_ne (by grind)]
      · obtain ⟨side, p, y, other⟩ := f
        obtain ⟨side', pp, z, other'⟩ := g
        obtain rfl : side = side' := hside
        cases side <;> simp [before, join, toList]
      · obtain ⟨side, p, y, other⟩ := f
        obtain ⟨side', pp, z, other'⟩ := g
        obtain rfl : side = side' := hside
        cases side <;> simp [after, join, toList]
    · obtain ⟨a, y, b, heq⟩ := exists_join f.side (t := .node l n x r) rfl
      obtain rfl : y = x := by
        revert heq
        cases f.side <;> simp +contextual [join]
      obtain ⟨s', heq', h', hw, hred⟩ := splitBelowRed_bent (heq ▸ h) hside
      obtain ⟨l', r', hnode⟩ : ∃ l' r', join g.side (join f.side b f.id f.value f.other) n y (join g.side a g.id g.value g.other) =
          .node l' n y r' := by cases g.side <;> exact ⟨_, _, rfl⟩
      refine ⟨s', gs, l', r', heq', ⟨hnode ▸ h', hw, ?_, ?_, ?_⟩,
        hreds (by grind) (h.mem (mem_ids_node.mpr (.inr (.inl rfl)))) hn hred, .bent hp hside hred heq.symm hnode⟩
      · refine hroot.keep hstart h' (fun _ i hi => ?_) fun i hi => ?_
        · obtain rfl := Option.some.inj (ptr_join.symm.trans hi)
          rw [hred, Function.update_self]
        · rw [hred, Function.update_of_ne (by grind), Function.update_of_ne (by grind)]
      · exact List.Subset.trans (before_subset g gs) (before_subset f (g :: gs))
      · exact List.Subset.trans (after_subset g gs) (after_subset f (g :: gs))

theorem Inv.reds_unmark (h : Inv s L Q fs (join side a n x b)) (hred : s'.isRed = unmark s.isRed a.ptr)
    (hwas : redAt s.isRed a.ptr = true) : reds s' L + 1 = reds s L := by
  cases hptr : a.ptr with
  | none =>
    rw [hptr] at hwas
    cases hwas
  | some i =>
    rw [hptr] at hred hwas
    exact h.reds_black (h.mem_child hptr) hwas hred

theorem redAt_unmark {red : Nat → Bool} {p p' : Option Nat} (hp : redAt red p = true) (hne : ∀ i, p = some i → p' ≠ some i) :
    redAt (unmark red p') p = true := by
  cases p with
  | none => cases hp
  | some i =>
    cases p' with
    | none => exact hp
    | some j =>
      rw [redAt, unmark, Option.elim_some, Function.update_of_ne fun heq => hne i rfl (congrArg some heq.symm)]
      exact hp

theorem nodup_kids (h : Inv s L Q fs (.node l n x r)) (i : Nat) (hr : r.ptr = some i) : l.ptr ≠ some i := by
  have hdistinct := (ids_plug_perm _ _).nodup_iff.mp h.holds.nodup
  rw [ids_node] at hdistinct
  intro hl
  have := ptr_mem hl
  have := ptr_mem hr
  grind

/-- The marks when the children of the node are black and it is red, unless it is the root. -/
def splitMarks (red : Nat → Bool) (fs : List (Frame (T × ℚ))) (l : LinkedTree.Tree (T × ℚ)) (n : Nat) (r : LinkedTree.Tree (T × ℚ)) :
    Nat → Bool :=
  if fs = [] then unmark (unmark red l.ptr) r.ptr else Function.update (unmark (unmark red l.ptr) r.ptr) n true

theorem split_spec (h : Inv s L [n] fs (.node l n x r)) (hroot : RootBlack s) :
    ∃ s' fs' l' r', s.split n = some s' ∧ Split s s' L fs n x fs' l' r' ∧
      (redAt s.isRed l.ptr = true → redAt s.isRed r.ptr = true → reds s' L < reds s L) ∧
        Raised (splitMarks s.isRed fs l n r) s'.isRed n x l r fs fs' l' r' := by
  have hleft : Inv s L [n] fs (join .left l n x r) := h
  obtain ⟨s₁, heq₁, h₁, hw₁, hred₁⟩ := hleft.markChild
  have hright : Inv s₁ L [n] fs (join .right r n x l) := h₁
  obtain ⟨s₂, heq₂, h₂, hw₂, hred₂⟩ := hright.markChild
  obtain ⟨c, hc, hlinks⟩ := h₂.node
  have hparent : c.parent = parent fs := by rw [hlinks, parent_links]
  have hroot₂ : RootBlack s₂ :=
    (hroot.unmark (h₁.root_eq.trans h.root_eq.symm) hred₁).unmark (h₂.root_eq.trans h₁.root_eq.symm) hred₂
  have hreds₂ : redAt s.isRed l.ptr = true → redAt s.isRed r.ptr = true → reds s₂ L + 2 = reds s L := by
    intro hl hr
    have hreds₁ := hleft.reds_unmark hred₁ hl
    have hr₁ : redAt s₁.isRed r.ptr = true := by
      rw [hred₁]
      exact redAt_unmark hr (nodup_kids h)
    have := hright.reds_unmark hred₂ hr₁
    omega
  have hsplit : s.split n = (c.parent.elim (some s₂) fun p => do
      let s ← s₂.markRed n
      if ← s.isBlack p then return s else s.splitBelowRed n p) := by
    simp only [split, heq₁, heq₂, hc, Option.bind_eq_bind, Option.bind_some]
    cases c.parent <;> rfl
  rw [hsplit, hparent]
  cases fs with
  | nil =>
    refine ⟨s₂, [], l, r, rfl, ⟨h₂, hw₁.trans hw₂, hroot₂, List.Subset.refl _, List.Subset.refl _⟩, fun hl hr => ?_,
      .stay (fun f hf => by cases hf) (by rw [splitMarks, if_pos rfl, hred₂, hred₁])⟩
    have := hreds₂ hl hr
    omega
  | cons f fs =>
    obtain ⟨s₃, heq₃, h₃, hw₃, hred₃⟩ := h₂.setMark h₂.mem_self true
    have hmark : s₂.markRed n = some s₃ := heq₃
    have hreds₃ := h₂.reds_red h₂.mem_self hred₃
    have hdistinct := nodup_around h₂.holds.nodup
    have hroot₃ : RootBlack s₃ := hroot₂.keep h₂ h₃ (fun hnil => absurd hnil (List.cons_ne_nil _ _)) fun i hi => by
      rw [hred₃, Function.update_of_ne]
      rw [idsAbove] at hi
      grind
    have hmarks : splitMarks s.isRed (f :: fs) l n r = s₃.isRed := by
      rw [splitMarks, if_neg (List.cons_ne_nil _ _), hred₃, hred₂, hred₁]
    rw [hmarks]
    simp only [parent_cons, Option.elim_some, hmark, h₃.isBlack_eq (h₃.mem_above List.mem_cons_self), Option.bind_eq_bind,
      Option.bind_some]
    cases hp : s₃.isRed f.id with
    | false =>
      refine ⟨s₃, f :: fs, l, r, rfl, ⟨h₃, hw₁.trans (hw₂.trans hw₃), hroot₃, List.Subset.refl _, List.Subset.refl _⟩,
        fun hl hr => ?_, .stay (fun g hg => by obtain rfl := Option.some.inj hg; exact hp) rfl⟩
      have := hreds₂ hl hr
      omega
    | true =>
      have hn : s₃.isRed n = true := by rw [hred₃, Function.update_self]
      obtain ⟨s₄, fs', l', r', heq₄, ⟨h₄, hw₄, hroot₄, hbefore, hafter⟩, hreds₄, hraised⟩ :=
        splitBelowRed_spec h₃ hn hp hroot₃
      refine ⟨s₄, fs', l', r', heq₄, ⟨h₄, hw₁.trans (hw₂.trans (hw₃.trans hw₄)), hroot₄, hbefore, hafter⟩, fun hl hr => ?_,
        hraised⟩
      have := hreds₂ hl hr
      omega

/-! ### Siblings -/

theorem Inv.sibling_eq (h : Inv s L Q (f :: fs) t) (hn : t.ptr = some n) : s.sibling n = some f.other.ptr := by
  obtain ⟨a, x, b, rfl⟩ := exists_join f.side hn
  have hdistinct := nodup_around h.holds.nodup
  obtain ⟨c, hc, hlinks⟩ := h.node
  obtain ⟨cp, hcp, hplinks⟩ := (inv_cons.mp h).node
  have hparent : c.parent = some f.id := by rw [hlinks, parent_links, parent_cons]
  rw [ptr_join] at hplinks
  simp only [sibling, hc, hparent, hcp, hplinks, Option.bind_eq_bind, Option.bind_some]
  cases f.side with
  | left => exact congrArg some (if_pos rfl)
  | right => exact congrArg some (if_neg fun heq => by have := ptr_mem heq; grind)

/-- The other view of a parent and its two subtrees. -/
theorem inv_other : Inv s L Q (f :: fs) t ↔ Inv s L Q (⟨f.side.other, f.id, f.value, t⟩ :: fs) f.other := by
  rw [inv_cons, inv_cons, Frame.fill, Frame.fill, join_other]

/-- The node `q` hangs below the parent on the side of the place, or is the parent. -/
def Toward (q : Nat) (fs : List (Frame (T × ℚ))) (t : LinkedTree.Tree (T × ℚ)) : Prop := ∀ f ∈ fs.head?, q = f.id ∨ q ∈ t.ids

theorem Toward.mem_fill (h : Toward q (f :: fs) t) : q ∈ (f.fill t).ids := by
  rcases h f rfl with heq | hmem
  · exact mem_ids_join.mpr (.inr (.inl heq))
  · exact mem_ids_join.mpr (.inl hmem)

theorem blackSibling_spec (h : Inv s L [q] (f :: fs) t) (hn : t.ptr = some n) (hq : Toward q (f :: fs) t) (hroot : RootBlack s) :
    ∃ s' f' fs', s.blackSibling n f.id = some s' ∧ Inv s' L [q] (f' :: fs') t ∧ f'.id = f.id ∧ Within s s' L ∧ RootBlack s' ∧
      (fs' = [] → redAt s'.isRed f'.other.ptr = false) ∧ (s' = s ∧ f' = f ∧ fs' = fs ∨ s'.isRed f.id = true) := by
  simp only [blackSibling, h.sibling_eq hn, Option.bind_eq_bind, Option.bind_some]
  cases hother : f.other.ptr with
  | none => exact ⟨s, f, fs, rfl, h, rfl, .refl s L, hroot, fun _ => by rw [hother]; rfl, .inl ⟨rfl, rfl, rfl⟩⟩
  | some i =>
    obtain ⟨a, x, b, hsibling⟩ := exists_join f.side.other hother
    have hother' := inv_other.mp h
    rw [hsibling] at hother'
    simp only [h.isBlack_eq hother'.mem_self, Option.bind_some]
    cases hred : s.isRed i with
    | false => exact ⟨s, f, fs, rfl, h, rfl, .refl s L, hroot, fun _ => by rw [hother]; exact hred, .inl ⟨rfl, rfl, rfl⟩⟩
    | true =>
      have hdistinct := nodup_around hother'.holds.nodup
      obtain ⟨s₁, heq₁, h₁, hw₁, hred₁⟩ := hother'.setMark (hother'.mem_above List.mem_cons_self) true
      obtain ⟨s₂, heq₂, h₂, hw₂, hred₂⟩ := h₁.setMark h₁.mem_self false
      have hq₂ : q ∈ ((⟨f.side.other, f.id, f.value, t⟩ : Frame (T × ℚ)).fill (join f.side.other a i x b)).ids := by
        rcases hq f rfl with heq | hmem
        · exact mem_ids_join.mpr (.inr (.inl heq))
        · exact mem_ids_join.mpr (.inr (.inr hmem))
      obtain ⟨s₃, heq₃, h₃, hw₃, hred₃⟩ := h₂.rotate ⟨q, hq₂, List.mem_singleton_self q⟩
      have hp₃ : s₃.isRed f.id = true := by
        rw [hred₃, hred₂, Function.update_of_ne (by grind), hred₁, Function.update_self]
      have hroot₃ : RootBlack s₃ := by
        refine hroot.keep (inv_cons.mp h) h₃ (fun _ j hj => ?_) fun j hj => ?_
        · obtain rfl := Option.some.inj (ptr_join.symm.trans hj)
          rw [hred₃, hred₂, Function.update_self]
        · rw [hred₃, hred₂, Function.update_of_ne (by grind), hred₁, Function.update_of_ne (by grind)]
      rw [join_other, join_other] at h₃
      refine ⟨s₃, ⟨f.side, f.id, f.value, b⟩, ⟨f.side, i, x, a⟩ :: fs, ?_, inv_cons.mpr (inv_cons.mpr h₃), rfl,
        hw₁.trans (hw₂.trans hw₃), hroot₃, fun hnil => absurd hnil (List.cons_ne_nil _ _), .inr hp₃⟩
      have hmark₁ : s.markRed f.id = some s₁ := heq₁
      have hmark₂ : s₁.markBlack i = some s₂ := heq₂
      simp only [hmark₁, hmark₂, Option.bind_some, Bool.not_true, Bool.false_eq_true, if_false]
      exact heq₃

theorem turnSibling_spec {near far : LinkedTree.Tree (T × ℚ)} {sv : T × ℚ} {m : Nat} (h : Inv s L Q (f :: fs) t)
    (hother : f.other = join f.side near i sv far) (hnear : near.ptr = some m) (hroot : RootBlack s) :
    ∃ s' na nv nb, s.turnSibling f.side i = some (s', m) ∧
      Inv s' L (m :: Q) (⟨f.side, f.id, f.value, join f.side.other (join f.side nb i sv far) m nv na⟩ :: fs) t ∧ Within s s' L ∧
        RootBlack s' ∧ s'.isRed m = false := by
  obtain ⟨na, nv, nb, rfl⟩ := exists_join f.side hnear
  have hmore : Inv s L (m :: Q) (f :: fs) t := h.weaken fun j _ hj => List.mem_cons_of_mem _ hj
  have hsib := inv_other.mp hmore
  rw [hother] at hsib
  obtain ⟨c, hc, hlinks⟩ := hsib.node
  have hchild : c.child f.side = some m := by rw [hlinks, child_links, ptr_join]
  have hbelow : Inv s L (m :: Q) (⟨f.side, i, sv, far⟩ :: ⟨f.side.other, f.id, f.value, t⟩ :: fs) (join f.side na m nv nb) :=
    inv_cons.mpr hsib
  have hdistinct := nodup_around hbelow.holds.nodup
  simp only [idsAbove] at hdistinct
  obtain ⟨s₁, heq₁, h₁, hw₁, hred₁⟩ := hbelow.rotate
    ⟨m, mem_ids_join.mpr (.inl (mem_ids_join.mpr (.inr (.inl rfl)))), List.mem_cons_self⟩
  obtain ⟨s₂, heq₂, h₂, hw₂, hred₂⟩ := h₁.setMark (hsib.mem_self) true
  have h₂' : Inv s₂ L (m :: Q) (⟨f.side.other, m, nv, na⟩ :: ⟨f.side.other, f.id, f.value, t⟩ :: fs) (join f.side nb i sv far) := by
    rw [inv_cons, Frame.fill, join_other]
    exact h₂
  obtain ⟨c₂, hc₂, hlinks₂⟩ := h₂'.node
  have hparent : c₂.parent = some m := by rw [hlinks₂, parent_links, parent_cons]
  obtain ⟨s₃, heq₃, h₃, hw₃, hred₃⟩ := h₂.setMark h₂.mem_self false
  have h₃' : Inv s₃ L (m :: Q) (⟨f.side, f.id, f.value, join f.side.other (join f.side nb i sv far) m nv na⟩ :: fs) t := by
    rw [inv_other, join_other]
    exact h₃
  refine ⟨s₃, na, nv, nb, ?_, h₃', hw₁.trans (hw₂.trans hw₃), ?_, by rw [hred₃, Function.update_self]⟩
  · have hmark₂ : s₁.markRed i = some s₂ := heq₂
    have hmark₃ : s₂.markBlack m = some s₃ := heq₃
    simp only [turnSibling, hc, hchild, heq₁, hmark₂, hc₂, hparent, hmark₃, Option.bind_eq_bind, Option.bind_some]
    rfl
  · have hp : s₃.isRed f.id = s.isRed f.id := by
      rw [hred₃, Function.update_of_ne (by grind), hred₂, Function.update_of_ne (by grind), hred₁]
    refine hroot.keep (inv_cons.mp h) (inv_cons.mp h₃') (fun hnil j hj => ?_) fun j hj => ?_
    · obtain rfl := Option.some.inj (ptr_join.symm.trans hj)
      subst hnil
      rw [hp]
      exact hroot _ (h.root_eq.trans ptr_join)
    · rw [hred₃, Function.update_of_ne (by grind), hred₂, Function.update_of_ne (by grind), hred₁]

/-- The node that has gone up is above one of `Q`, and does not count. -/
theorem Inv.drop {m : Nat} (h : Inv s L (m :: Q) fs (join side a m x b)) (hQ : ∃ j ∈ b.ids, j ∈ Q) :
    Inv s L Q fs (join side a m x b) := by
  obtain ⟨j, hj, hjQ⟩ := hQ
  have hmem : j ∈ (join side a m x b).ids := mem_ids_join.mpr (.inr (.inr hj))
  have hdistinct := (ids_place_perm _).nodup_iff.mp h.holds.nodup
  have hsums := (offPath_plug ⟨j, hmem, List.mem_cons_of_mem _ hjQ⟩).mp h.sums
  obtain ⟨hhere, habove⟩ := hsums
  obtain ⟨-, ha, hb⟩ := offPath_join.mp hhere
  have hdrop : ∀ i, i ≠ m → i ∈ m :: Q → i ∈ Q := fun i hne hi => (List.mem_cons.mp hi).resolve_left hne
  refine ⟨h.holds, (offPath_plug ⟨j, hmem, hjQ⟩).mpr ⟨offPath_join.mpr ⟨fun hnone => absurd hjQ (hnone j hmem), ?_, ?_⟩, ?_⟩,
    h.toList⟩
  · exact ha.weaken fun i hi => hdrop i (by grind)
  · exact hb.weaken fun i hi => hdrop i (by grind)
  · refine fun g hg => (habove g hg).weaken fun i hi => hdrop i ?_
    have := mem_idsAbove hg hi
    grind

theorem raiseSibling_spec {near far : LinkedTree.Tree (T × ℚ)} {sv : T × ℚ} {z : Nat} (h : Inv s L Q (f :: fs) t) (hn : t.ptr = some n)
    (hother : f.other = join f.side near i sv far) (hfar : far.ptr = some z) (hQ : q ∈ Q) (hq : Toward q (f :: fs) t)
    (hroot : RootBlack s) (hblack : fs = [] → s.isRed i = false) :
    ∃ s', s.raiseSibling n i = some s' ∧ Within s s' L ∧ RootBlack s' ∧
      Inv s' L Q fs (join f.side.other far i sv (join f.side t f.id f.value near)) := by
  have hsib := inv_other.mp h
  rw [hother, ← join_other] at hsib
  have hdistinct := nodup_around hsib.holds.nodup
  have hzfar := ptr_mem hfar
  have hq₁ : q ∈ ((⟨f.side.other, f.id, f.value, t⟩ : Frame (T × ℚ)).fill (join f.side.other far i sv near)).ids := by
    rcases hq f rfl with heq | hmem
    · exact mem_ids_join.mpr (.inr (.inl heq))
    · exact mem_ids_join.mpr (.inr (.inr hmem))
  obtain ⟨s₁, heq₁, h₁, hw₁, hred₁⟩ := hsib.rotate ⟨q, hq₁, hQ⟩
  rw [join_other (a := near)] at h₁
  have hdown : Inv s₁ L Q (⟨f.side, f.id, f.value, near⟩ :: ⟨f.side, i, sv, far⟩ :: fs) t := by
    rw [inv_cons, inv_cons, Frame.fill, ← join_other]
    exact h₁
  obtain ⟨ta, tv, tb, ht⟩ := exists_join f.side hn
  obtain ⟨cn, hcn, hnlinks⟩ := (ht ▸ hdown).node
  have hparent : cn.parent = some f.id := by rw [hnlinks, parent_links, parent_cons]
  have hp₁ : f.id ∈ L.map Prod.fst := hdown.mem_above List.mem_cons_self
  obtain ⟨s₂, heq₂, h₂, hw₂, htop, hsame⟩ : ∃ s₂, (if !s₁.isRed f.id then some s₁ else s₁.markRed i) = some s₂ ∧
      Inv s₂ L Q fs (join f.side.other far i sv (join f.side t f.id f.value near)) ∧ Within s₁ s₂ L ∧
        (fs = [] → s₂.isRed i = false) ∧ ∀ j, j ≠ i → s₂.isRed j = s₁.isRed j := by
    cases hp : s₁.isRed f.id with
    | false => exact ⟨s₁, rfl, h₁, .refl _ _, fun hnil => by rw [hred₁]; exact hblack hnil, fun _ _ => rfl⟩
    | true =>
      obtain ⟨s₂, heq₂, h₂, hw₂, hred₂⟩ := h₁.setMark h₁.mem_self true
      refine ⟨s₂, heq₂, h₂, hw₂, fun hnil => ?_, fun j hj => by rw [hred₂, Function.update_of_ne hj]⟩
      subst hnil
      have hpblack := hroot f.id (h.root_eq.trans ptr_join)
      rw [← hred₁, hp] at hpblack
      cases hpblack
  obtain ⟨c, hc, hlinks⟩ := h₂.node
  obtain ⟨lp, rp, hkids, hlp, hrp⟩ : ∃ lp rp, f.side.other.links (parent fs) far.ptr (join f.side t f.id f.value near).ptr =
      ⟨parent fs, some lp, some rp⟩ ∧ (lp = z ∨ lp = f.id) ∧ (rp = z ∨ rp = f.id) := by
    rw [hfar, ptr_join]
    cases f.side with
    | left => exact ⟨f.id, z, rfl, .inr rfl, .inl rfl⟩
    | right => exact ⟨z, f.id, rfl, .inl rfl, .inr rfl⟩
  have hmem : ∀ j, j = z ∨ j = f.id → j ∈ L.map Prod.fst := by
    rintro j (rfl | rfl)
    · exact h₂.mem_child hfar
    · exact hp₁
  obtain ⟨s₃, heq₃, h₃, hw₃, hred₃⟩ := h₂.setMark (hmem lp hlp) false
  obtain ⟨c', hc', hlinks'⟩ := h₃.node
  obtain ⟨s₄, heq₄, h₄, hw₄, hred₄⟩ := h₃.setMark (hmem rp hrp) false
  refine ⟨s₄, ?_, hw₁.trans (hw₂.trans (hw₃.trans hw₄)), ?_, h₄⟩
  · have hleft : c.left = some lp := by rw [hlinks, hkids]
    have hright : c'.right = some rp := by rw [hlinks', hkids]
    have hmark₃ : s₂.markBlack lp = some s₃ := heq₃
    simp only [raiseSibling, heq₁, hcn, hparent, hdown.isBlack_eq hp₁, Option.bind_eq_bind, Option.bind_some]
    cases hp : s₁.isRed f.id with
    | false =>
      rw [hp] at heq₂
      obtain rfl : s₁ = s₂ := Option.some.inj heq₂
      simp only [hc, hleft, hmark₃, hc', hright, Bool.not_false, if_true, Option.bind_some]
      exact heq₄
    | true =>
      rw [hp] at heq₂
      replace heq₂ : s₁.markRed i = some s₂ := heq₂
      simp only [heq₂, hc, hleft, hmark₃, hc', hright, Bool.not_true, Bool.false_eq_true, if_false, Option.bind_some]
      exact heq₄
  · have hne : ∀ j ∈ idsAbove fs, j ≠ i ∧ j ≠ lp ∧ j ≠ rp := fun j hj => by grind
    refine hroot.keep (inv_cons.mp h) h₄ (fun hnil j hj => ?_) fun j hj => ?_
    · obtain rfl := Option.some.inj (ptr_join.symm.trans hj)
      rw [hred₄, hred₃, Function.update_of_ne (by grind), Function.update_of_ne (by grind), htop hnil]
    · obtain ⟨hi, hl, hr⟩ := hne j hj
      rw [hred₄, Function.update_of_ne hr, hred₃, Function.update_of_ne hl, hsame j hi, hred₁]

/-- The tree is still there, with a black root. -/
structure Lengthened (s s' : DiscretePDF T) (L : List (Nat × T × ℚ)) (q : Nat) : Prop where
  tree : ∃ t, Inv s' L [q] [] t
  within : Within s s' L
  root : RootBlack s'

theorem Lengthened.of_inv (h : Inv s' L [q] fs t) (hw : Within s s' L) (hroot : RootBlack s') : Lengthened s s' L q :=
  ⟨⟨plug fs t, holds_plug.mp h.holds, h.sums, h.toList⟩, hw, hroot⟩

theorem Lengthened.trans {s'' : DiscretePDF T} (hw : Within s s' L) (h : Lengthened s' s'' L q) : Lengthened s s'' L q :=
  ⟨h.tree, hw.trans h.within, h.root⟩

section
variable {near far : LinkedTree.Tree (T × ℚ)} {sv : T × ℚ}

/-- The far child of the sibling is red. -/
theorem lengthen_far (h : Inv s L [q] (f :: fs) t) (hn : t.ptr = some n) (hother : f.other = join f.side near i sv far)
    (hq : Toward q (f :: fs) t) (hroot : RootBlack s) (hblack : fs = [] → redAt s.isRed f.other.ptr = false)
    (hfar : redAt s.isRed far.ptr = true) : ∃ s', s.raiseSibling n i = some s' ∧ Lengthened s s' L q := by
  cases hz : far.ptr with
  | none =>
    rw [hz] at hfar
    cases hfar
  | some z =>
    rw [hother, ptr_join] at hblack
    obtain ⟨s', heq, hw, hroot', h'⟩ := raiseSibling_spec h hn hother hz (List.mem_singleton_self q) hq hroot hblack
    exact ⟨s', heq, .of_inv h' hw hroot'⟩

/-- The near child of the sibling is red. -/
theorem lengthen_near (h : Inv s L [q] (f :: fs) t) (hn : t.ptr = some n) (hother : f.other = join f.side near i sv far)
    (hq : Toward q (f :: fs) t) (hroot : RootBlack s) (hnear : redAt s.isRed near.ptr = true) :
    ∃ s₁ m s', s.turnSibling f.side i = some (s₁, m) ∧ s₁.raiseSibling n m = some s' ∧ Lengthened s s' L q := by
  cases hm : near.ptr with
  | none =>
    rw [hm] at hnear
    cases hnear
  | some m =>
    obtain ⟨s₁, na, nv, nb, heq₁, h₁, hw₁, hroot₁, hblack₁⟩ := turnSibling_spec h hother hm hroot
    obtain ⟨s₂, heq₂, hw₂, hroot₂, h₂⟩ := raiseSibling_spec h₁ hn join_other ptr_join
      (List.mem_cons_of_mem _ (List.mem_singleton_self q)) (fun g hg => Option.some.inj hg ▸ hq f rfl) hroot₁ fun _ => hblack₁
    have hbelow : q ∈ (join f.side t f.id f.value na).ids := by
      rcases hq f rfl with heq | hmem
      · exact mem_ids_join.mpr (.inr (.inl heq))
      · exact mem_ids_join.mpr (.inl hmem)
    exact ⟨s₁, m, s₂, heq₁, heq₂, .of_inv (h₂.drop ⟨q, hbelow, List.mem_singleton_self q⟩) (hw₁.trans hw₂) hroot₂⟩

end

theorem lengthen_black {up : DiscretePDF T → Nat → Option (DiscretePDF T)} (h : Inv s L [q] (f :: fs) t)
    (hother : f.other.ptr = some i) (hroot : RootBlack s)
    (hup : ∀ s₁, Inv s₁ L [q] fs (f.fill t) → RootBlack s₁ → s₁.isRed f.id = s.isRed f.id →
      ∃ s', up s₁ f.id = some s' ∧ Lengthened s₁ s' L q) :
    ∃ s₁ s', s.markRed i = some s₁ ∧ (if !s.isRed f.id then up s₁ f.id else s₁.markBlack f.id) = some s' ∧ Lengthened s s' L q := by
  have hmem := ptr_mem hother
  have hdistinct := (ids_plug_perm _ _).nodup_iff.mp h.holds.nodup
  simp only [idsAbove] at hdistinct
  obtain ⟨s₁, heq₁, h₁, hw₁, hred₁⟩ := h.setMark (i := i) (h.mem_above (by simp [idsAbove, hmem])) true
  have hp₁ : s₁.isRed f.id = s.isRed f.id := by rw [hred₁, Function.update_of_ne (by grind)]
  have hroot₁ : RootBlack s₁ := by
    refine hroot.keep (inv_cons.mp h) (inv_cons.mp h₁) (fun hnil j hj => ?_) fun j hj => ?_
    · obtain rfl := Option.some.inj (ptr_join.symm.trans hj)
      subst hnil
      rw [hp₁]
      exact hroot _ (h.root_eq.trans ptr_join)
    · rw [hred₁, Function.update_of_ne (by grind)]
  cases hp : s.isRed f.id with
  | false =>
    obtain ⟨s₂, heq₂, h₂⟩ := hup s₁ (inv_cons.mp h₁) hroot₁ hp₁
    exact ⟨s₁, s₂, heq₁, heq₂, h₂.trans hw₁⟩
  | true =>
    obtain ⟨s₂, heq₂, h₂, hw₂, hred₂⟩ := h₁.setMark (h₁.mem_above List.mem_cons_self) false
    refine ⟨s₁, s₂, heq₁, heq₂, .of_inv h₂ (hw₁.trans hw₂) ?_⟩
    exact hroot₁.unmark (p := some f.id) (h₂.root_eq.trans h₁.root_eq.symm) hred₂

theorem lengthenBy_spec {up : DiscretePDF T → Nat → Option (DiscretePDF T)} (h : Inv s L [q] (f :: fs) t) (hn : t.ptr = some n)
    (hq : Toward q (f :: fs) t) (hroot : RootBlack s) (hblack : fs = [] → redAt s.isRed f.other.ptr = false)
    (hup : ∀ s₁, Inv s₁ L [q] fs (f.fill t) → RootBlack s₁ → s₁.isRed f.id = s.isRed f.id →
      ∃ s', up s₁ f.id = some s' ∧ Lengthened s₁ s' L q) :
    ∃ s', s.lengthenBy up n = some s' ∧ Lengthened s s' L q := by
  obtain ⟨ta, tv, tb, ht⟩ := exists_join f.side hn
  obtain ⟨c, hc, hlinks⟩ := (ht ▸ h).node
  have hparent : c.parent = some f.id := by rw [hlinks, parent_links, parent_cons]
  have hstart : Inv s L [q] fs (f.fill t) := inv_cons.mp h
  have hp : f.id ∈ L.map Prod.fst := h.mem_above List.mem_cons_self
  simp only [lengthenBy, hc, hparent, h.sibling_eq hn, Option.bind_eq_bind, Option.bind_some]
  cases hother : f.other.ptr with
  | none => exact hup s hstart hroot rfl
  | some i =>
    obtain ⟨near, sv, far, hsibling⟩ := exists_join f.side hother
    have hsib := inv_other.mp h
    rw [hsibling] at hsib
    have hsib' := hsib
    rw [← join_other] at hsib'
    have hnearBlack := hsib.childIsBlack_eq
    have hfarBlack := hsib'.childIsBlack_eq
    obtain ⟨cp, hcp, hplinks⟩ := hstart.node
    rw [hn, hother] at hplinks
    have hni : i ≠ n := by
      have hdistinct := (ids_plug_perm _ _).nodup_iff.mp h.holds.nodup
      have := ptr_mem hn
      have := ptr_mem hother
      simp only [idsAbove] at hdistinct
      grind
    obtain ⟨s₁, s', heq₁, heq', hblackCase⟩ := lengthen_black h hother hroot hup
    have hfarCase := lengthen_far h hn hsibling hq hroot hblack
    have hnearCase := lengthen_near h hn hsibling hq hroot
    have hleft : cp.left = some n ↔ Side.left = f.side := by
      rw [show cp.left = cp.toLinks.child .left from rfl, hplinks]
      exact child_links_eq _ fun heq => hni (Option.some.inj heq)
    have hright : cp.right = some n ↔ Side.right = f.side := by
      rw [show cp.right = cp.toLinks.child .right from rfl, hplinks]
      exact child_links_eq _ fun heq => hni (Option.some.inj heq)
    simp only [h.isBlack_eq hp, hcp, heq₁, Option.bind_some, hleft, hright]
    cases hside : f.side with
    | left | right =>
      rw [hside] at hnearBlack hfarBlack hnearCase
      rw [Side.other] at hfarBlack
      simp only [hnearBlack, hfarBlack, Option.bind_some]
      cases hfar : redAt s.isRed far.ptr with
      | true =>
        obtain ⟨s₂, heq₂, hdone⟩ := hfarCase hfar
        exact ⟨s₂, by simpa using heq₂, hdone⟩
      | false =>
        cases hnear : redAt s.isRed near.ptr with
        | true =>
          obtain ⟨s₂, m, s₃, heq₂, heq₃, hdone⟩ := hnearCase hnear
          exact ⟨s₃, by simpa [heq₂] using heq₃, hdone⟩
        | false => exact ⟨s', by simpa using heq', hblackCase⟩

theorem lengthen_red {fuel : Nat} (h : Inv s L [q] fs t) (hn : t.ptr = some n) (hred : s.isRed n = true) (hroot : RootBlack s) :
    ∃ s', s.lengthen (fuel + 1) n = some s' ∧ Lengthened s s' L q := by
  have hmem := h.mem (ptr_mem hn)
  obtain ⟨s', heq, h', hw, hred'⟩ := h.setMark hmem false
  have hmark : s.markBlack n = some s' := heq
  refine ⟨s', ?_, .of_inv h' hw (hroot.unmark (p := some n) (h'.root_eq.trans h.root_eq.symm) hred')⟩
  simp only [lengthen, h.isBlack_eq hmem, hred, Bool.not_true, Bool.false_eq_true, if_false, Option.bind_eq_bind, Option.bind_some, hmark]

theorem lengthen_spec {fuel : Nat} (h : Inv s L [q] fs t) (hn : t.ptr = some n) (hq : Toward q fs t) (hroot : RootBlack s)
    (hfuel : fs.length + 1 < fuel) : ∃ s', s.lengthen fuel n = some s' ∧ Lengthened s s' L q := by
  induction fuel generalizing s fs t n with
  | zero => exact absurd hfuel (Nat.not_lt_zero _)
  | succ fuel ih =>
    cases hred : s.isRed n with
    | true => exact lengthen_red h hn hred hroot
    | false =>
      obtain ⟨ta, tv, tb, ht⟩ := exists_join .left hn
      obtain ⟨c, hc, hlinks⟩ := (ht ▸ h).node
      have hparent : c.parent = parent fs := by rw [hlinks, parent_links]
      simp only [lengthen, h.isBlack_eq (h.mem (ptr_mem hn)), hred, Bool.not_false, if_true, hc, Option.bind_eq_bind, Option.bind_some]
      cases fs with
      | nil =>
        rw [hparent]
        exact ⟨s, rfl, .of_inv h (.refl s L) hroot⟩
      | cons f fs =>
        rw [hparent, parent_cons]
        obtain ⟨s₁, f', fs', heq₁, h₁, hid, hw₁, hroot₁, hblack₁, hcase⟩ := blackSibling_spec h hn hq hroot
        have hq₁ : Toward q (f' :: fs') t := fun g hg => by
          obtain rfl := Option.some.inj hg
          rw [hid]
          exact hq f rfl
        have hup : ∀ s₂, Inv s₂ L [q] fs' (f'.fill t) → RootBlack s₂ → s₂.isRed f'.id = s₁.isRed f'.id →
            ∃ s', s₂.lengthen fuel f'.id = some s' ∧ Lengthened s₂ s' L q := by
          intro s₂ h₂ hroot₂ hred₂
          rcases hcase with ⟨rfl, rfl, rfl⟩ | hp
          · refine ih h₂ ptr_join (fun g hg => .inr hq₁.mem_fill) hroot₂ ?_
            rw [List.length_cons] at hfuel
            omega
          · obtain ⟨fuel, rfl⟩ := Nat.exists_eq_succ_of_ne_zero (show fuel ≠ 0 by omega)
            exact lengthen_red h₂ ptr_join (hred₂.trans (hid ▸ hp)) hroot₂
        obtain ⟨s', heq', hdone⟩ := lengthenBy_spec h₁ hn hq₁ hroot₁ hblack₁ hup
        refine ⟨s', ?_, hdone.trans hw₁⟩
        simp only [heq₁, Option.bind_some]
        exact heq'

end CapTaint.Klee.DiscretePDF
