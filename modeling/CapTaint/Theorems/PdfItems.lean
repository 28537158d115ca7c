import CapTaint.Lib.SortedList
import CapTaint.Theorems.PdfColours
import Mathlib.Data.List.Perm.Subperm

/-! # The items of a DiscretePDF

The tree is the finite map of the items to their weights. An operation changes it at one place, keeps the sums away from
the path to that place, and then puts the sums of the path right. -/

namespace CapTaint.Klee.DiscretePDF

open LinkedTree LinkedTree.Tree

variable {T : Type} {s s' : DiscretePDF T} {f : Frame (T × ℚ)} {fs : List (Frame (T × ℚ))} {t a b l r : LinkedTree.Tree (T × ℚ)}
  {i n q : Nat} {x : T × ℚ} {Q : List Nat} {side : Side} {L : List (Nat × T × ℚ)}

/-! ### Paths -/

/-- The sums are right everywhere but above the place. -/
structure Path (s : DiscretePDF T) (L : List (Nat × T × ℚ)) (fs : List (Frame (T × ℚ))) (t : LinkedTree.Tree (T × ℚ)) : Prop where
  holds : view.Holds s.nodes s.m_root fs t
  here : OffPath s [] t
  above : ∀ f ∈ fs, OffPath s [] f.other
  toList : (plug fs t).toList = L

theorem Path.inv_self (h : Path s L fs (join side a n x b)) : Inv s L [n] fs (join side a n x b) := by
  have hmem : n ∈ (join side a n x b).ids := mem_ids_join.mpr (.inr (.inl rfl))
  refine ⟨h.holds, (offPath_plug ⟨n, hmem, List.mem_singleton_self n⟩).mpr ⟨?_, fun f hf => ?_⟩, h.toList⟩
  · exact h.here.weaken fun j _ hj => absurd hj List.not_mem_nil
  · exact (h.above f hf).weaken fun j _ hj => absurd hj List.not_mem_nil

theorem Inv.path_child (h : Inv s L [n] fs (join side a n x b)) : Path s L (⟨side, n, x, b⟩ :: fs) a := by
  have hmem : n ∈ (join side a n x b).ids := mem_ids_join.mpr (.inr (.inl rfl))
  have hdistinct := (ids_place_perm _).nodup_iff.mp h.holds.nodup
  obtain ⟨hhere, habove⟩ := (offPath_plug ⟨n, hmem, List.mem_singleton_self n⟩).mp h.sums
  obtain ⟨-, ha, hb⟩ := offPath_join.mp hhere
  have hclean : ∀ i, i ≠ n → i ∈ [n] → i ∈ ([] : List Nat) := fun i hne hi => absurd (List.mem_singleton.mp hi) hne
  refine ⟨holds_cons.mpr h.holds, ha.weaken fun i hi => hclean i (by grind), List.forall_mem_cons.mpr
    ⟨hb.weaken fun i hi => hclean i (by grind), fun g hg => (habove g hg).weaken fun i hi => hclean i ?_⟩, h.toList⟩
  have := mem_idsAbove hg hi
  grind

theorem Path.inv_parent (h : Path s L (f :: fs) t) : Inv s L [f.id] fs (f.fill t) := by
  have hmem : f.id ∈ (f.fill t).ids := mem_ids_join.mpr (.inr (.inl rfl))
  obtain ⟨hother, habove⟩ := List.forall_mem_cons.mp h.above
  refine ⟨holds_cons.mp h.holds, (offPath_plug ⟨f.id, hmem, List.mem_singleton_self _⟩).mpr ⟨offPath_join.mpr ⟨fun hnone => ?_, ?_, ?_⟩,
    fun g hg => ?_⟩, h.toList⟩
  · exact absurd (List.mem_singleton_self _) (hnone f.id hmem)
  · exact h.here.weaken fun j _ hj => absurd hj List.not_mem_nil
  · exact hother.weaken fun j _ hj => absurd hj List.not_mem_nil
  · exact (habove g hg).weaken fun j _ hj => absurd hj List.not_mem_nil

theorem Path.inv_root (h : Path s L [] t) : Inv s L [] [] t := ⟨h.holds, h.here, h.toList⟩

theorem Inv.path_root (h : Inv s L [] [] t) : Path s L [] t := ⟨h.holds, h.sums, fun _ hf => absurd hf List.not_mem_nil, h.toList⟩

/-! ### Propagation -/

theorem length_le_idsAbove (fs : List (Frame (T × ℚ))) : fs.length ≤ (idsAbove fs).length := by
  induction fs with
  | nil => exact le_rfl
  | cons f fs ih =>
    rw [idsAbove, List.length_append, List.length_cons, List.length_cons]
    omega

theorem Inv.length_lt (h : Inv s L Q fs (join side a n x b)) : fs.length < L.length := by
  have hlength : (L.map Prod.fst).length = (a.ids ++ n :: b.ids ++ idsAbove fs).length := by
    rw [← h.ids]
    exact (ids_place_perm fs).length_eq
  rw [List.length_map, List.length_append, List.length_append, List.length_cons] at hlength
  have := length_le_idsAbove fs
  omega

/-- The sums of the path are put right from below. -/
theorem propogateSumsUp_spec {fuel : Nat} (h : Inv s L [n] fs (join side a n x b)) (hfuel : fs.length < fuel) :
    ∃ s', s.propogateSumsUp fuel (some n) = some s' ∧ Inv s' L [] [] (plug fs (join side a n x b)) ∧ Within s s' L ∧
      s'.isRed = s.isRed ∧ s'.m_root = s.m_root := by
  induction fuel generalizing s fs side a n x b with
  | zero => exact absurd hfuel (Nat.not_lt_zero _)
  | succ fuel ih =>
    have hdistinct := (ids_place_perm _).nodup_iff.mp h.holds.nodup
    have hpath := h.path_child
    obtain ⟨hother, habove⟩ := List.forall_mem_cons.mp hpath.above
    obtain ⟨s₁, heq₁, hset⟩ := setSum_spec h.holds.at
      (fun i hi => holds_live h.holds (mem_plug (mem_ids_join.mpr (.inl (ptr_mem hi)))))
      (fun i hi => holds_live h.holds (mem_plug (mem_ids_join.mpr (.inr (.inr (ptr_mem hi))))))
    have hsame : ∀ i, i ≠ n → s₁.sum (some i) = s.sum (some i) := fun i hi => hset.sum_other _ fun heq => hi (Option.some.inj heq)
    have ha : ∀ i ∈ a.ids, s₁.sum (some i) = s.sum (some i) := fun i hi => hsame i (by grind)
    have hb : ∀ i ∈ b.ids, s₁.sum (some i) = s.sum (some i) := fun i hi => hsame i (by grind)
    have h₁ : Path s₁ L fs (join side a n x b) := by
      refine ⟨?_, offPath_join.mpr ⟨fun _ => ?_, hpath.here.congr ha, hother.congr hb⟩, fun f hf => (habove f hf).congr fun i hi => ?_,
        h.toList⟩
      · rw [hset.root]
        exact h.holds.congr fun i _ l y hat => hset.read i l y hat
      · rw [hset.sum_self, sum_ptr ha, sum_ptr hb]
      · have := mem_idsAbove hf hi
        exact hsame i (by grind)
    have hw₁ : Within s s₁ L := ⟨hset.next, fun i hi => hset.outside i fun heq => hi (heq ▸ h.mem_self)⟩
    have hred₁ : s₁.isRed = s.isRed := funext hset.isRed
    obtain ⟨c, hc, hlinks⟩ := h₁.inv_self.node
    have hparent : c.parent = parent fs := by rw [hlinks, parent_links]
    simp only [propogateSumsUp, heq₁, hc, hparent, Option.bind_eq_bind, Option.bind_some]
    cases fs with
    | nil => exact ⟨s₁, by cases fuel <;> rfl, h₁.inv_root, hw₁, hred₁, hset.root⟩
    | cons f fs =>
      rw [List.length_cons] at hfuel
      obtain ⟨s₂, heq₂, h₂, hw₂, hred₂, hroot₂⟩ := ih h₁.inv_parent (by omega)
      exact ⟨s₂, heq₂, h₂, hw₁.trans hw₂, hred₂.trans hred₁, hroot₂.trans hset.root⟩

/-- From a node of the tree, wherever it is. -/
theorem propogateSumsUp_of_inv {fuel : Nat} (h : Inv s L [q] fs t) (hq : q ∈ L.map Prod.fst) (hroot : RootBlack s)
    (hfuel : L.length ≤ fuel) :
    ∃ s', s.propogateSumsUp fuel (some q) = some s' ∧ Inv s' L [] [] (plug fs t) ∧ Within s s' L ∧ RootBlack s' ∧
      (RedBlack s' ↔ RedBlack s) := by
  obtain ⟨gs, a, x, b, heq⟩ := exists_plug (h.ids ▸ hq)
  have h' : Inv s L [q] gs (join .left a q x b) := ⟨holds_plug.mpr (heq ▸ holds_plug.mp h.holds), heq ▸ h.sums, heq ▸ h.toList⟩
  obtain ⟨s', hrun, hinv, hw, hred, hroot'⟩ := propogateSumsUp_spec h' (h'.length_lt.trans_le hfuel)
  have hinv' : Inv s' L [] [] (plug fs t) := heq ▸ hinv
  refine ⟨s', hrun, hinv', hw, fun i hi => ?_, ?_⟩
  · rw [hred]
    exact hroot i (hroot' ▸ hi)
  · rw [redBlack_iff hinv'.holds, redBlack_iff (holds_plug.mp h.holds), hred]

/-! ### Places -/

def placeOf : List (Frame (T × ℚ)) → Place
  | [] => .root
  | f :: _ => .child f.side f.id

theorem read_place (h : view.Holds s.nodes s.m_root fs t) : s.read (placeOf fs) = some t.ptr := by
  cases fs with
  | nil => exact congrArg some h.root_eq
  | cons f fs =>
    obtain ⟨c, hc, hlinks, -⟩ := h.above.1
    have hchild : c.child f.side = t.ptr := by
      rw [show c.toLinks = _ from hlinks, child_links]
    rw [placeOf, read, hc, Option.map_some, hchild]

section
variable [LinearOrder T] {item : T}

/-- The place is where the item belongs. -/
def Around (item : T) (fs : List (Frame (T × ℚ))) : Prop :=
  (∀ y ∈ before fs, y.2.1 < item) ∧ ∀ y ∈ after fs, item < y.2.1

def Sorted (L : List (Nat × T × ℚ)) : Prop := L.Pairwise fun y z => y.2.1 < z.2.1

theorem Sorted.node (h : Sorted L) (heq : (plug fs (.node l n x r)).toList = L) :
    (∀ y ∈ l.toList, y.2.1 < x.1) ∧ ∀ y ∈ r.toList, x.1 < y.2.1 := by
  rw [← heq, toList_plug, toList] at h
  obtain ⟨hl, hr, hlt⟩ := List.pairwise_append.mp (List.pairwise_append.mp (List.pairwise_append.mp h).1).2.1
  exact ⟨fun y hy => hlt y hy (n, x) List.mem_cons_self, (List.pairwise_cons.mp hr).1⟩

theorem Around.left (h : Around item fs) (hlt : item < x.1) (hr : ∀ y ∈ r.toList, x.1 < y.2.1) :
    Around item (⟨.left, n, x, r⟩ :: fs) := by
  refine ⟨h.1, fun y hy => ?_⟩
  rcases List.mem_append.mp hy with hy | hy
  · rcases List.mem_cons.mp hy with rfl | hy
    · exact hlt
    · exact hlt.trans (hr y hy)
  · exact h.2 y hy

theorem Around.right (h : Around item fs) (hlt : x.1 < item) (hl : ∀ y ∈ l.toList, y.2.1 < x.1) :
    Around item (⟨.right, n, x, l⟩ :: fs) := by
  refine ⟨fun y hy => ?_, h.2⟩
  rcases List.mem_append.mp hy with hy | hy
  · rcases List.mem_append.mp hy with hy | hy
    · exact h.1 y hy
    · exact (hl y hy).trans hlt
  · obtain rfl := List.mem_singleton.mp hy
    exact hlt

/-- The place where an item is found or missing. -/
theorem lookup_spec {fuel : Nat} (item : T) (h : Inv s L Q fs t) (hsorted : Sorted L) (haround : Around item fs)
    (hfuel : t.toList.length < fuel) :
    ∃ fs' t', lookup item fuel s (placeOf fs) = some (placeOf fs') ∧ Inv s L Q fs' t' ∧ Around item fs' ∧
      (t' = .nil ∨ ∃ l n w r, t' = .node l n (item, w) r) := by
  induction fuel generalizing fs t with
  | zero => exact absurd hfuel (Nat.not_lt_zero _)
  | succ fuel ih =>
    cases t with
    | nil => exact ⟨fs, .nil, by simp only [lookup, read_place h.holds, Option.bind_eq_bind, Option.bind_some]; rfl, h, haround, .inl rfl⟩
    | node l n x r =>
      obtain ⟨c, hc, hlinks, hvalue⟩ := (show view.Holds s.nodes s.m_root fs (join .left l n x r) from h.holds).at
      have hkey : c.key = x.1 := congrArg Prod.fst hvalue
      obtain ⟨hl, hr⟩ := hsorted.node h.toList
      rw [toList, List.length_append, List.length_cons] at hfuel
      have hptr : (LinkedTree.Tree.node l n x r).ptr = some n := rfl
      simp only [lookup, read_place h.holds, hptr, hc, hkey, Option.bind_eq_bind, Option.bind_some]
      rcases lt_trichotomy item x.1 with hlt | rfl | hgt
      · have hdown : Inv s L Q (⟨.left, n, x, r⟩ :: fs) l := inv_cons.mpr h
        obtain ⟨fs', t', heq, hfound⟩ := ih hdown (haround.left hlt hr) (by omega)
        exact ⟨fs', t', by rw [if_neg hlt.ne', if_pos hlt]; exact heq, hfound⟩
      · exact ⟨fs, _, by rw [if_pos rfl]; rfl, h, haround, .inr ⟨l, n, x.2, r, rfl⟩⟩
      · have hdown : Inv s L Q (⟨.right, n, x, l⟩ :: fs) r := inv_cons.mpr h
        obtain ⟨fs', t', heq, hfound⟩ := ih hdown (haround.right hgt hl) (by omega)
        exact ⟨fs', t', by rw [if_neg hgt.ne, if_neg hgt.not_gt]; exact heq, hfound⟩

/-! ### Insertion -/

/-- A place on the other side of the nodes above it. -/
theorem Around.side_eq (h : Around item (f :: fs)) : (if item < f.value.1 then Side.left else Side.right) = f.side := by
  obtain ⟨side, p, y, other⟩ := f
  cases side with
  | left => exact if_pos (h.2 (p, y) List.mem_cons_self)
  | right => exact if_neg (h.1 (p, y) (List.mem_append_right _ (List.mem_singleton_self _))).not_gt

theorem Around.order (h : Around item fs) : ∀ f ∈ fs, sideOf item f.value = f.side := by
  induction fs with
  | nil => exact fun f hf => absurd hf List.not_mem_nil
  | cons f fs ih =>
    have htail : Around item fs := ⟨fun y hy => h.1 y (before_subset f fs hy), fun y hy => h.2 y (after_subset f fs hy)⟩
    exact List.forall_mem_cons.mpr ⟨h.side_eq, ih htail⟩

/-- The node at a place, which may have been split. -/
theorem splitIf_spec (h : Path s L fs (.node l n x r)) (hroot : RootBlack s) (haround : Around item fs) :
    ∃ s' fs' l' r', (if !(!redAt s.isRed l.ptr) && !(!redAt s.isRed r.ptr) then s.split n else some s) = some s' ∧
      Inv s' L [n] fs' (.node l' n x r') ∧ RootBlack s' ∧ Around item fs' ∧ Within s s' L ∧
        (∀ m, m ≤ l'.toList.length ∨ m ≤ r'.toList.length →
          reds s' L * (L.length + 1) + m < reds s L * (L.length + 1) + (LinkedTree.Tree.node l n x r).toList.length) ∧
        (Descending s.isRed item fs (.node l n x r) → ∀ side a b, sideOf item x = side → .node l' n x r' = join side a n x b →
          Descending s'.isRed item (⟨side, n, x, b⟩ :: fs') a) := by
  have hself : Inv s L [n] fs (.node l n x r) := (show Path s L fs (join .left l n x r) from h).inv_self
  have hkids : ∀ {s' : DiscretePDF T} {fs' : List (Frame (T × ℚ))} {l' r' : LinkedTree.Tree (T × ℚ)}, Inv s' L [n] fs' (.node l' n x r') →
      l'.toList.length + 1 + r'.toList.length ≤ L.length := by
    intro s' fs' l' r' h'
    rw [← h'.toList, toList_plug, List.length_append, List.length_append, toList, List.length_append, List.length_cons]
    omega
  by_cases hboth : redAt s.isRed l.ptr = true ∧ redAt s.isRed r.ptr = true
  · obtain ⟨s', fs', l', r', heq, ⟨h', hw, hroot', hbefore, hafter⟩, hreds, hraised⟩ := split_spec hself hroot
    refine ⟨s', fs', l', r', by rw [hboth.1, hboth.2]; exact heq, h', hroot',
      ⟨fun y hy => haround.1 y (hbefore hy), fun y hy => haround.2 y (hafter hy)⟩, hw, fun m hm => ?_, ?_⟩
    · have hmul := Nat.mul_le_mul_right (L.length + 1) (Nat.succ_le_of_lt (hreds hboth.1 hboth.2))
      rw [Nat.succ_mul] at hmul
      have := hkids h'
      omega
    · intro hd side a b hside hnew
      have hdistinct := (ids_plug_perm _ _).nodup_iff.mp hself.holds.nodup
      rw [ids_node] at hdistinct
      obtain ⟨height, hopened⟩ := hd.opened hdistinct ((isRed_eq_elim _ l).trans hboth.1) ((isRed_eq_elim _ r).trans hboth.2)
      exact hraised.descending hopened hdistinct haround.order hside hnew
  · have hskip : (!(!redAt s.isRed l.ptr) && !(!redAt s.isRed r.ptr)) = false := by
      rw [Bool.not_not, Bool.not_not, Bool.and_eq_false_iff]
      rw [not_and_or, Bool.not_eq_true, Bool.not_eq_true] at hboth
      exact hboth
    refine ⟨s, fs, l, r, by rw [hskip]; rfl, hself, hroot, haround, .refl s L, fun m hm => ?_, ?_⟩
    · rw [toList, List.length_append, List.length_cons]
      omega
    · intro hd side a b hside hnew
      refine (hnew ▸ hd).step hside fun ha => Bool.eq_false_of_not_eq_true fun hb => hboth ?_
      rw [isRed_eq_elim] at ha hb
      rcases join_eq_node hnew.symm with ⟨rfl, rfl⟩ | ⟨rfl, rfl⟩
      · exact ⟨ha, hb⟩
      · exact ⟨hb, ha⟩

theorem descend_spec {fuel : Nat} (item : T) (h : Path s L fs t) (hroot : RootBlack s) (hsorted : Sorted L) (hnew : ∀ y ∈ L, y.2.1 ≠ item)
    (haround : Around item fs) (hfuel : reds s L * (L.length + 1) + t.toList.length < fuel) :
    ∃ s' fs', descend item fuel s (parent fs) t.ptr = some (s', parent fs') ∧ Path s' L fs' .nil ∧ RootBlack s' ∧
      Around item fs' ∧ Within s s' L ∧ (Descending s.isRed item fs t → Descending s'.isRed item fs' .nil) := by
  induction fuel generalizing s fs t with
  | zero => exact absurd hfuel (Nat.not_lt_zero _)
  | succ fuel ih =>
    cases t with
    | nil => exact ⟨s, fs, rfl, h, hroot, haround, .refl s L, id⟩
    | node l n x r =>
      have hself : Inv s L [n] fs (join .left l n x r) := h.inv_self
      have hself' : Inv s L [n] fs (join .right r n x l) := hself
      have hl := hself.childIsBlack_eq
      have hr := hself'.childIsBlack_eq
      obtain ⟨s₁, fs₁, l₁, r₁, heq₁, h₁, hroot₁, haround₁, hw₁, hmeasure, hcolours⟩ := splitIf_spec h hroot haround
      obtain ⟨c, hc, hlinks, hvalue⟩ := (show view.Holds s₁.nodes s₁.m_root fs₁ (join .left l₁ n x r₁) from h₁.holds).at
      have hkey : c.key = x.1 := congrArg Prod.fst hvalue
      have hmem : (n, x) ∈ L := by
        rw [← h.toList, toList_plug, toList]
        simp
      have hne : x.1 ≠ item := hnew _ hmem
      obtain ⟨hbelow, habove⟩ := hsorted.node h₁.toList
      have hptr : (LinkedTree.Tree.node l n x r).ptr = some n := rfl
      have hstep : descend item (fuel + 1) s (parent fs) (some n) =
          descend item fuel s₁ (some n) (c.child (if item < x.1 then .left else .right)) := by
        simp only [descend, hl, hr, Option.bind_eq_bind, Option.bind_some]
        cases hboth : (!(!redAt s.isRed l.ptr) && !(!redAt s.isRed r.ptr)) with
        | false =>
          rw [hboth] at heq₁
          obtain rfl := Option.some.inj heq₁
          simp only [hc, hkey, Bool.false_eq_true, if_false, Option.bind_some, if_neg hne]
        | true =>
          rw [hboth, if_pos rfl] at heq₁
          simp only [heq₁, hc, hkey, if_true, Option.bind_some, if_neg hne]
      replace hlinks : c.toLinks = (Side.left).links (parent fs₁) l₁.ptr r₁.ptr := hlinks
      rw [hptr, hstep, hlinks]
      rcases lt_or_gt_of_ne hne with hlt | hgt
      · rw [if_neg hlt.not_gt]
        have hdown : Path s₁ L (⟨.right, n, x, l₁⟩ :: fs₁) r₁ :=
          (show Inv s₁ L [n] fs₁ (join .right r₁ n x l₁) from h₁).path_child
        obtain ⟨s', fs', heq, h', hroot', haround', hw', hd'⟩ := ih hdown hroot₁ (haround₁.right hlt hbelow) (by
          have := hmeasure _ (.inr le_rfl)
          omega)
        exact ⟨s', fs', heq, h', hroot', haround', hw₁.trans hw', fun hd => hd' (hcolours hd .right _ _ (if_neg hlt.not_gt) rfl)⟩
      · rw [if_pos hgt]
        have hdown : Path s₁ L (⟨.left, n, x, r₁⟩ :: fs₁) l₁ :=
          (show Inv s₁ L [n] fs₁ (join .left l₁ n x r₁) from h₁).path_child
        obtain ⟨s', fs', heq, h', hroot', haround', hw', hd'⟩ := ih hdown hroot₁ (haround₁.left hgt habove) (by
          have := hmeasure _ (.inl le_rfl)
          omega)
        exact ⟨s', fs', heq, h', hroot', haround', hw₁.trans hw', fun hd => hd' (hcolours hd .left _ _ (if_pos hgt) rfl)⟩

/-- The pointers of the new node, and the pointer to it. -/
theorem link_spec (weight : ℚ) (h : Path s L fs .nil) (haround : Around item fs) (hfresh : s.nodes s.next = none) :
    ∃ s' side, (parent fs).elim (some { s.new item weight (parent fs) with m_root := some s.next }) (fun p =>
        ((s.new item weight (parent fs)).nodes p).bind fun pc => (s.new item weight (parent fs)).setLinks p
          (·.setChild (if item < pc.key then .left else .right) (some s.next))) = some s' ∧
      s'.m_root = (if fs = [] then some s.next else s.m_root) ∧ s'.next = s.next + 1 ∧
      s'.nodes s.next = some ⟨⟨parent fs, none, none⟩, false, item, weight, 0⟩ ∧ (∀ g gs, fs = g :: gs → side = g.side) ∧
      ∀ i, i ≠ s.next → s'.nodes i = (s.nodes i).map fun c =>
        if parent fs = some i then { c with toLinks := c.toLinks.setChild side (some s.next) } else c := by
  have hsame : ∀ i, i ≠ s.next → (s.new item weight (parent fs)).nodes i = s.nodes i := fun i hi => Function.update_of_ne hi ..
  have hself : (s.new item weight (parent fs)).nodes s.next = some ⟨⟨parent fs, none, none⟩, false, item, weight, 0⟩ :=
    Function.update_self ..
  cases fs with
  | nil =>
    refine ⟨_, .left, rfl, rfl, rfl, hself, fun g gs hfs => (List.cons_ne_nil g gs hfs.symm).elim, fun i hi => ?_⟩
    exact (hsame i hi).trans (by simp [parent])
  | cons f fs =>
    obtain ⟨c, hc, hlinks, hvalue⟩ := h.holds.above.1
    have hkey : c.key = f.value.1 := congrArg Prod.fst hvalue
    have hne : f.id ≠ s.next := fun heq => by rw [← heq, hc] at hfresh; cases hfresh
    rw [parent_cons] at hsame hself ⊢
    obtain ⟨s', heq, hchanged, hroot⟩ := modify_spec ((hsame f.id hne).trans hc) fun c =>
      { c with toLinks := c.toLinks.setChild f.side (some s.next) }
    refine ⟨s', f.side, ?_, by rw [hroot, if_neg (List.cons_ne_nil _ _)]; rfl, hchanged.next, ?_, ?_, fun i hi => ?_⟩
    · rw [Option.elim_some, hsame f.id hne, hc, Option.bind_some, hkey, haround.side_eq]
      exact heq
    · rw [hchanged.get hself, if_neg hne.symm]
    · rintro g gs hfs
      cases hfs
      rfl
    · rw [hchanged.nodes, hsame i hi]
      simp only [Option.some.injEq, eq_comm (a := i)]

omit [LinearOrder T] in
theorem isRed_link {weight : ℚ} {p : Option Nat} {new : Nat} (hself : s'.nodes new = some ⟨⟨p, none, none⟩, false, item, weight, 0⟩)
    (hothers : ∀ i, i ≠ new → s'.nodes i = (s.nodes i).map fun c =>
      if p = some i then { c with toLinks := c.toLinks.setChild side (some new) } else c) :
    s'.isRed new = false ∧ ∀ i, i ≠ new → s'.isRed i = s.isRed i := by
  refine ⟨by rw [isRed, hself]; rfl, fun i hi => ?_⟩
  rw [isRed, isRed, hothers i hi]
  cases s.nodes i with
  | none => rfl
  | some c => rw [Option.map_some, Option.elim_some, Option.elim_some, apply_ite Node.mark, ite_self]

omit [LinearOrder T] in
/-- The new node is in the tree, at the place that was empty. -/
theorem Path.attach {weight : ℚ} (h : Path s L fs .nil) (hroot : RootBlack s) (hfresh : s.nodes s.next = none)
    (hlink : s'.m_root = (if fs = [] then some s.next else s.m_root))
    (hself : s'.nodes s.next = some ⟨⟨parent fs, none, none⟩, false, item, weight, 0⟩)
    (hside : ∀ g gs, fs = g :: gs → side = g.side)
    (hothers : ∀ i, i ≠ s.next → s'.nodes i = (s.nodes i).map fun c =>
      if parent fs = some i then { c with toLinks := c.toLinks.setChild side (some s.next) } else c) :
    Inv s' (before fs ++ (s.next, item, weight) :: after fs) [s.next] fs (.node .nil s.next (item, weight) .nil) ∧ RootBlack s' := by
  have hnotmem : s.next ∉ (plug fs (.nil : LinkedTree.Tree (T × ℚ))).ids := fun hmem => by
    have := holds_live h.holds hmem
    rw [hfresh] at this
    cases this
  have habove : s.next ∉ idsAbove fs := fun hmem =>
    hnotmem ((ids_plug_perm fs _).mem_iff.mpr (List.mem_append_right _ hmem))
  have hread : ∀ i l l' y, i ≠ s.next → view.At s.nodes i l y → (∀ c : Node T, c.toLinks = l →
      (if parent fs = some i then { c with toLinks := c.toLinks.setChild side (some s.next) } else c).toLinks = l') →
      view.At s'.nodes i l' y := by
    intro i l l' y hi hat hl
    obtain ⟨c, hc, hlinks, hvalue⟩ := hat
    refine ⟨_, by rw [hothers i hi, hc, Option.map_some], hl c hlinks, ?_⟩
    rw [← hvalue]
    split_ifs <;> rfl
  have hsum : ∀ i, i ≠ s.next → s'.sum (some i) = s.sum (some i) := by
    intro i hi
    rw [DiscretePDF.sum, DiscretePDF.sum, hothers i hi]
    cases s.nodes i with
    | none => rfl
    | some c =>
      simp only [Option.map_some, Option.elim_some]
      split_ifs <;> rfl
  have hholds : view.Holds s'.nodes s'.m_root fs (.node .nil s.next (item, weight) .nil) := by
    rw [hlink]
    refine h.holds.attach habove ⟨_, hself, rfl, rfl⟩ ?_ fun i hi hne l y hat => hread i l l y hi hat fun c hc => ?_
    · rintro g gs rfl
      have hg : g.id ≠ s.next := fun heq => habove (heq ▸ List.mem_cons_self)
      refine hread g.id _ _ _ hg h.holds.above.1 fun c hc => ?_
      rw [if_pos parent_cons, hside g gs rfl]
      change c.toLinks.setChild g.side (some s.next) = _
      rw [hc, setChild_links]
    · rw [if_neg hne, hc]
  refine ⟨⟨hholds, (offPath_plug ⟨s.next, ids_node ▸ List.mem_append_right _ List.mem_cons_self, List.mem_singleton_self _⟩).mpr
    ⟨⟨fun hnone => ?_, trivial, trivial⟩, fun f hf => ?_⟩, (toList_plug fs _).trans (by simp [LinkedTree.Tree.toList])⟩, fun i hi => ?_⟩
  · exact absurd (List.mem_singleton_self _) (hnone s.next (ids_node ▸ List.mem_append_right _ List.mem_cons_self))
  · refine ((h.above f hf).congr fun i hi => hsum i ?_).weaken fun j _ hj => absurd hj List.not_mem_nil
    exact fun heq => habove (mem_idsAbove hf (heq ▸ hi))
  · rw [hlink] at hi
    split_ifs at hi with hfs
    · obtain rfl := Option.some.inj hi
      exact (isRed_link hself hothers).1
    · have hne : i ≠ s.next := fun heq => by
        rw [h.holds.root_eq] at hi
        exact hnotmem (heq ▸ ptr_mem hi)
      rw [(isRed_link hself hothers).2 i hne]
      exact hroot i hi

/-- The new node is black at the root, and is split elsewhere. -/
theorem splitNew_spec (item : T) (h : Inv s' L [n] fs (.node .nil n x .nil)) (hroot : RootBlack s') (hblack : s'.isRed n = false)
    (hsame : ∀ i ∈ idsAbove fs, s'.isRed i = s.isRed i) :
    ∃ s'' fs'' l r, (if fs = [] then some s' else s'.split n) = some s'' ∧ Inv s'' L [n] fs'' (.node l n x r) ∧ Within s' s'' L ∧
      RootBlack s'' ∧ (Descending s.isRed item fs .nil → RedBlack s'') := by
  split_ifs with hfs
  · refine ⟨s', fs, .nil, .nil, rfl, h, .refl s' _, hroot, fun _ => (redBlack_iff h.holds).mpr ⟨1, .black hblack .nil .nil, ?_⟩⟩
    subst hfs
    trivial
  · obtain ⟨s'', fs'', l, r, heq, ⟨h'', hw, hroot', -, -⟩, -, hraised⟩ := split_spec h hroot
    refine ⟨s'', fs'', l, r, heq, h'', hw, hroot', fun hd => (redBlack_iff h''.holds).mpr ?_⟩
    have hdistinct := (ids_plug_perm _ _).nodup_iff.mp h.holds.nodup
    rw [ids_node] at hdistinct
    have hmarks : ∀ i ∈ idsAbove fs, splitMarks s'.isRed fs .nil n .nil i = s.isRed i := fun i hi => by
      rw [splitMarks_of_ne (by grind), if_neg (by rintro (heq | heq) <;> cases heq), hsame i hi]
    obtain ⟨k, hnil, hfits⟩ := hd.balanced
    cases hnil
    refine hraised.balanced hdistinct splitMarks_self ⟨.nil, rfl⟩ ⟨.nil, rfl⟩ (hfits.congr hmarks) ?_
    rintro f g gs rfl hf
    have hother : g.other.isRed (splitMarks s'.isRed (f :: g :: gs) .nil n .nil) = g.other.isRed s.isRed := isRed_congr fun i hi =>
      hmarks i (by simp [idsAbove, hi])
    rw [hmarks f.id List.mem_cons_self] at hf
    rw [hother]
    exact Bool.eq_false_of_not_eq_true fun hg => hd.uncle f g gs rfl hf hg

/-- The tree of a finite map. -/
structure Stores (s : DiscretePDF T) (m : SortedList (Prod.fst : T × ℚ → T)) : Prop where
  tree : ∃ L t, Inv s L [] [] t ∧ L.map Prod.snd = m.entries
  root : RootBlack s
  fresh : ∀ i, s.next ≤ i → s.nodes i = none

variable {m : SortedList (Prod.fst : T × ℚ → T)}

theorem sorted_of_entries (h : L.map Prod.snd = m.entries) : Sorted L := by
  have hsorted := m.sorted
  rw [← h] at hsorted
  exact (List.pairwise_map (f := Prod.snd)).mp hsorted

omit [LinearOrder T] in
theorem Inv.length_le (h : Inv s L Q fs t) (hfresh : ∀ i, s.next ≤ i → s.nodes i = none) : L.length ≤ s.next := by
  have hsub : L.map Prod.fst ⊆ List.range s.next := fun i hi => by
    obtain ⟨c, hc⟩ := h.live hi
    by_contra hge
    rw [hfresh i (not_lt.mp fun hlt => hge (List.mem_range.mpr hlt))] at hc
    cases hc
  have hle := (h.nodup.subperm hsub).length_le
  rwa [List.length_map, List.length_range] at hle

omit [LinearOrder T] in
theorem Within.fresh (hw : Within s s' L) (hlive : ∀ i ∈ L.map Prod.fst, i < s.next) (hfresh : ∀ i, s.next ≤ i → s.nodes i = none) :
    ∀ i, s'.next ≤ i → s'.nodes i = none := by
  intro i hi
  rw [hw.next] at hi
  rw [hw.outside i fun hmem => (hlive i hmem).not_ge hi]
  exact hfresh i hi

omit [LinearOrder T] in
theorem Inv.lt_next (h : Inv s L Q fs t) (hfresh : ∀ i, s.next ≤ i → s.nodes i = none) : ∀ i ∈ L.map Prod.fst, i < s.next := by
  intro i hi
  obtain ⟨c, hc⟩ := h.live hi
  by_contra hge
  rw [hfresh i (not_lt.mp hge)] at hc
  cases hc

omit [LinearOrder T] in
theorem toList_split (heq : (plug fs t).toList = L) : L = before fs ++ t.toList ++ after fs := heq ▸ toList_plug fs t

theorem insert_spec (weight : ℚ) (h : Stores s m) (hnew : ∀ y ∈ m.entries, y.1 ≠ item) :
    ∃ s', s.insert item weight = some s' ∧ Stores s' (m.replace (item, weight)) ∧ (RedBlack s → RedBlack s') := by
  obtain ⟨⟨L, t, hinv, hentries⟩, hroot, hfresh⟩ := h
  have hL : L.length ≤ s.next := hinv.length_le hfresh
  have hlist : t.toList = L := hinv.toList
  have hreds : reds s L ≤ L.length := (List.countP_le_length).trans (List.length_map _).le
  have hfuel : reds s L * (L.length + 1) + t.toList.length < (s.next + 1) * (s.next + 1) := by
    have := Nat.mul_le_mul hreds (le_refl (L.length + 1))
    rw [hlist]
    calc reds s L * (L.length + 1) + L.length
      _ < L.length * (L.length + 1) + (L.length + 1) := by omega
      _ = (L.length + 1) * (L.length + 1) := (Nat.succ_mul _ _).symm
      _ ≤ (s.next + 1) * (s.next + 1) := Nat.mul_le_mul (Nat.add_le_add_right hL 1) (Nat.add_le_add_right hL 1)
  obtain ⟨s₁, fs, heq₁, h₁, hroot₁, haround, hw₁, hcolours₁⟩ := descend_spec item hinv.path_root hroot (sorted_of_entries hentries)
    (fun y hy => hnew _ (hentries ▸ List.mem_map_of_mem hy))
    ⟨fun y hy => absurd hy List.not_mem_nil, fun y hy => absurd hy List.not_mem_nil⟩ hfuel
  have hfresh₁ := hw₁.fresh (hinv.lt_next hfresh) hfresh
  obtain ⟨s₂, side, heq₂, hlink, hnext, hself, hside, hothers⟩ := link_spec weight h₁ haround (hfresh₁ _ le_rfl)
  obtain ⟨h₂, hroot₂⟩ := h₁.attach hroot₁ (hfresh₁ _ le_rfl) hlink hself hside hothers
  have hfresh₂ : ∀ i, s₂.next ≤ i → s₂.nodes i = none := by
    intro i hi
    rw [hnext] at hi
    rw [hothers i (by omega), hfresh₁ i (by omega)]
    rfl
  have hnotmem : s₁.next ∉ idsAbove fs := fun hmem => by
    have hlive := holds_live h₁.holds ((ids_plug_perm fs _).mem_iff.mpr (List.mem_append_right _ hmem))
    rw [hfresh₁ _ le_rfl] at hlive
    cases hlive
  obtain ⟨hblack₂, hsame₂⟩ := isRed_link hself hothers
  obtain ⟨s₃, fs₃, l₃, r₃, heq₃, h₃, hw₃, hroot₃, hcolours₃⟩ :=
    splitNew_spec (s := s₁) item h₂ hroot₂ hblack₂ fun i hi =>
      hsame₂ i (ne_of_mem_of_not_mem hi hnotmem)
  have hL₃ : (before fs ++ (s₁.next, item, weight) :: after fs).length ≤ s₃.next := by
    rw [hw₃.next]
    exact h₂.length_le hfresh₂
  obtain ⟨s₄, heq₄, h₄, hw₄, hroot₄, hcolours₄⟩ := propogateSumsUp_of_inv h₃
    (h₃.mem (mem_ids_node.mpr (.inr (.inl rfl)))) hroot₃
    (Nat.le_succ_of_le hL₃)
  refine ⟨s₄, ?_, ⟨⟨_, _, h₄, ?_⟩, hroot₄, (hw₃.trans hw₄).fresh (h₂.lt_next hfresh₂) hfresh₂⟩, fun hred => ?_⟩
  · have hstart : descend item ((s.next + 1) * (s.next + 1)) s none s.m_root = some (s₁, parent fs) := hinv.root_eq ▸ heq₁
    simp only [insert, hstart, Option.bind_eq_bind, Option.bind_some]
    cases fs with
    | nil =>
      obtain rfl := Option.some.inj heq₂
      obtain rfl := Option.some.inj heq₃
      exact heq₄
    | cons f fs =>
      rw [if_neg (List.cons_ne_nil _ _)] at heq₃
      rw [parent_cons, Option.elim_some] at heq₂
      obtain ⟨c, hc, heq₂⟩ := Option.bind_eq_some_iff.mp heq₂
      simp only [parent_cons, hc, heq₂, heq₃, Option.bind_some]
      exact heq₄
  · rw [List.map_append, List.map_cons]
    have hparts := toList_split h₁.toList
    refine (SortedList.entries_replace (B := []) ?_ ?_ ?_ ?_).symm
    · rw [← hentries, hparts, toList, List.append_nil, List.append_nil, List.map_append]
    · intro y hy
      obtain ⟨z, hz, rfl⟩ := List.mem_map.mp hy
      exact haround.1 z hz
    · exact fun y hy => absurd hy List.not_mem_nil
    · intro y hy
      obtain ⟨z, hz, rfl⟩ := List.mem_map.mp hy
      exact haround.2 z hz
  · refine hcolours₄.mpr (hcolours₃ (hcolours₁ ⟨(redBlack_iff hinv.holds).mp hred, fun f gs hfs => ?_, fun f g gs hfs => ?_⟩))
    · cases hfs
    · cases hfs

end

end CapTaint.Klee.DiscretePDF
