import CapTaint.Theorems.PdfBalance

/-! # The colours of a DiscretePDF

A split takes a black node with two red children apart. It keeps the tree red-black when the parent of a red parent has no
other red child, and the descent of `insert` only splits where this is so. -/

namespace CapTaint.Klee.DiscretePDF

open LinkedTree LinkedTree.Tree

variable {T : Type} {red red' : Nat → Bool} {f g : Frame (T × ℚ)} {fs fs' gs : List (Frame (T × ℚ))}
  {t a b l r l' r' : LinkedTree.Tree (T × ℚ)} {i n h : Nat} {x : T × ℚ} {side : Side}

/-! ### Splits -/

theorem join_eq_node (heq : join side a n x b = .node l n x r) : (a = l ∧ b = r) ∨ (a = r ∧ b = l) := by
  cases side with
  | left =>
    cases heq
    exact .inl ⟨rfl, rfl⟩
  | right =>
    cases heq
    exact .inr ⟨rfl, rfl⟩

/-- The parent of a red parent has no other red child. -/
def BlackUncle (red : Nat → Bool) (fs : List (Frame (T × ℚ))) : Prop :=
  ∀ f g gs, fs = f :: g :: gs → red f.id = true → g.other.isRed red = false

/-- The three nodes that a split turns are different, and are none of those around them. -/
theorem apart_of_nodup (hdistinct : (l.ids ++ n :: r.ids ++ idsAbove (f :: g :: gs)).Nodup) :
    (n ≠ f.id ∧ n ≠ g.id ∧ f.id ≠ g.id) ∧
      ∀ i, i ∈ l.ids ∨ i ∈ r.ids ∨ i ∈ f.other.ids ∨ i ∈ g.other.ids ∨ i ∈ idsAbove gs → i ≠ n ∧ i ≠ f.id ∧
        i ≠ g.id := by
  simp only [idsAbove] at hdistinct
  exact ⟨⟨by grind, by grind, by grind⟩, fun i hi => ⟨by grind, by grind, by grind⟩⟩

section
variable (hdistinct : (l.ids ++ n :: r.ids ++ idsAbove (f :: g :: gs)).Nodup) (hn : red n = true) (hp : red f.id = true)
  (hl : BlackTop red l h) (hr : BlackTop red r h) (hfits : Fits red (f :: g :: gs) false h) (hg : g.other.isRed red = false)
include hdistinct hp hl hr hfits hg

/-- The subtrees around the three nodes have black roots and one black height. -/
theorem around_turned (red' : Nat → Bool) (hsame : ∀ i, i ≠ n ∧ i ≠ f.id ∧ i ≠ g.id → red' i = red i) :
    BlackTop red' l h ∧ BlackTop red' r h ∧ BlackTop red' f.other h ∧ BlackTop red' g.other h ∧ Fits red' gs false (h + 1) := by
  obtain ⟨-, hapart⟩ := apart_of_nodup hdistinct
  obtain ⟨hfother, -, hgother, hgs⟩ := hfits.below_red hp
  exact ⟨hl.congr fun i hi => hsame i (hapart i (.inl hi)), hr.congr fun i hi => hsame i (hapart i (.inr (.inl hi))),
    hfother.congr fun i hi => hsame i (hapart i (.inr (.inr (.inl hi)))),
    BlackTop.congr ⟨hgother, hg⟩ fun i hi => hsame i (hapart i (.inr (.inr (.inr (.inl hi))))),
    hgs.congr fun i hi => hsame i (hapart i (.inr (.inr (.inr (.inr hi)))))⟩

include hn in
theorem straight_balanced (hred : red' = Function.update (Function.update red g.id true) f.id false) :
    ∃ k, Balanced red' (.node l n x r) k ∧
      Fits red' (⟨g.side, f.id, f.value, join g.side f.other g.id g.value g.other⟩ :: gs) (red' n) k := by
  obtain ⟨⟨hnf, hng, hfg⟩, -⟩ := apart_of_nodup hdistinct
  obtain ⟨hl', hr', hfother, hgother, hgs⟩ := around_turned hdistinct hp hl hr hfits hg red' fun i hi => by
    rw [hred, Function.update_of_ne hi.2.1, Function.update_of_ne hi.2.2]
  have hnred : red' n = true := by rw [hred, Function.update_of_ne hnf, Function.update_of_ne hng, hn]
  have hgred : red' g.id = true := by rw [hred, Function.update_of_ne hfg.symm, Function.update_self]
  refine ⟨h, .red hnred hl'.black hr'.black hl'.balanced hr'.balanced, (fits_black ?_).mpr ⟨hfother.join_red hgred hgother, hgs⟩⟩
  exact (congrFun hred f.id).trans (Function.update_self ..)

theorem bent_balanced (hred : red' = Function.update (Function.update red g.id true) n false)
    (hold : join f.side a n x b = .node l n x r)
    (hnew : join g.side (join f.side b f.id f.value f.other) n x (join g.side a g.id g.value g.other) = .node l' n x r') :
    ∃ k, Balanced red' (.node l' n x r') k ∧ Fits red' gs (red' n) k := by
  obtain ⟨⟨hnf, hng, hfg⟩, -⟩ := apart_of_nodup hdistinct
  obtain ⟨hl', hr', hfother, hgother, hgs⟩ := around_turned hdistinct hp hl hr hfits hg red' fun i hi => by
    rw [hred, Function.update_of_ne hi.1, Function.update_of_ne hi.2.2]
  obtain ⟨ha, hb⟩ : BlackTop red' a h ∧ BlackTop red' b h := by
    rcases join_eq_node hold with ⟨rfl, rfl⟩ | ⟨rfl, rfl⟩
    · exact ⟨hl', hr'⟩
    · exact ⟨hr', hl'⟩
  have hgred : red' g.id = true := by rw [hred, Function.update_of_ne hng.symm, Function.update_self]
  have hfred : red' f.id = true := by rw [hred, Function.update_of_ne hnf.symm, Function.update_of_ne hfg, hp]
  have hnblack : red' n = false := by rw [hred, Function.update_self]
  rw [← hnew, hnblack]
  exact ⟨h + 1, (balanced_join_black hnblack).mpr ⟨h, rfl, hb.join_red hfred hfother, ha.join_red hgred hgother⟩, hgs⟩

end

theorem Raised.balanced (hraised : Raised red red' n x l r fs fs' l' r') (hdistinct : (l.ids ++ n :: r.ids ++ idsAbove fs).Nodup)
    (hn : fs ≠ [] → red n = true) (hl : BlackTop red l h) (hr : BlackTop red r h) (hfits : Fits red fs false h)
    (huncle : BlackUncle red fs) : ∃ k, Balanced red' (.node l' n x r') k ∧ Fits red' fs' (red' n) k := by
  cases hraised with
  | stay hp hred =>
    subst hred
    cases hn' : red' n with
    | false =>
      refine ⟨h + 1, .black hn' hl.balanced hr.balanced, ?_⟩
      cases fs with
      | nil => trivial
      | cons f fs => exact absurd ((hn (List.cons_ne_nil _ _)).symm.trans hn') (Bool.noConfusion)
    | true =>
      refine ⟨h, .red hn' hl.black hr.black hl.balanced hr.balanced, ?_⟩
      cases fs with
      | nil => trivial
      | cons f fs => exact (fits_black (hp f rfl)).mpr ((fits_black (hp f rfl)).mp hfits)
  | straight hp hside hred =>
    exact straight_balanced hdistinct (hn (List.cons_ne_nil _ _)) hp hl hr hfits (huncle _ _ _ rfl hp) hred
  | bent hp hside hred hold hnew =>
    exact bent_balanced hdistinct hp hl hr hfits (huncle _ _ _ rfl hp) hred hold hnew

/-! ### The descent -/

/-- A node without red children. -/
def Quiet (red : Nat → Bool) : LinkedTree.Tree (T × ℚ) → Prop
  | .nil => False
  | .node l _ _ r => l.isRed red = false ∧ r.isRed red = false

theorem Quiet.congr (hquiet : Quiet red t) (hsame : ∀ i ∈ t.ids, red' i = red i) : Quiet red' t := by
  cases t with
  | nil => exact hquiet
  | node l n x r =>
    exact ⟨(isRed_congr fun i hi => hsame i (mem_ids_node.mpr (.inl hi))).trans hquiet.1,
      (isRed_congr fun i hi => hsame i (mem_ids_node.mpr (.inr (.inr hi)))).trans hquiet.2⟩

/-- A red node that has been made black. -/
theorem balanced_blacken (red' : Nat → Bool) (hbal : Balanced red t h) (ht : t.isRed red = true) (hdistinct : t.ids.Nodup)
    (hsame : ∀ i ∈ t.ids, t.ptr ≠ some i → red' i = red i) (htop : t.isRed red' = false) :
    BlackTop red' t (h + 1) ∧ Quiet red' t := by
  cases hbal with
  | nil => cases ht
  | black hn => exact absurd (hn.symm.trans ht) (Bool.noConfusion)
  | @red l r n h x hn hl hr hleft hright =>
    rw [ids_node] at hdistinct
    have hptr : (LinkedTree.Tree.node l n x r).ptr = some n := rfl
    have hl' : ∀ i ∈ l.ids, red' i = red i := fun i hi =>
      hsame i (mem_ids_node.mpr (.inl hi)) fun heq => by rw [hptr] at heq; grind
    have hr' : ∀ i ∈ r.ids, red' i = red i := fun i hi =>
      hsame i (mem_ids_node.mpr (.inr (.inr hi))) fun heq => by rw [hptr] at heq; grind
    exact ⟨⟨.black htop (hleft.congr hl') (hright.congr hr'), htop⟩, (isRed_congr hl').trans hl, (isRed_congr hr').trans hr⟩

theorem unmark_apply (red : Nat → Bool) (p : Option Nat) (i : Nat) : unmark red p i = if p = some i then false else red i := by
  cases p with
  | none => rfl
  | some j =>
    rw [unmark, Function.update_apply]
    exact if_congr (by rw [Option.some.injEq, eq_comm]) rfl rfl

theorem splitMarks_of_ne (hi : i ≠ n) : splitMarks red fs l n r i = if r.ptr = some i ∨ l.ptr = some i then false else red i := by
  have hkids : splitMarks red fs l n r i = unmark (unmark red l.ptr) r.ptr i := by
    rw [splitMarks]
    split
    case isTrue => rfl
    case isFalse => exact Function.update_of_ne hi ..
  rw [hkids, unmark_apply, unmark_apply, ← ite_or]

theorem splitMarks_self (hfs : fs ≠ []) : splitMarks red fs l n r n = true := by
  rw [splitMarks, if_neg hfs, Function.update_self]

/-- The two red children of a node have become black. -/
structure Opened (red : Nat → Bool) (fs : List (Frame (T × ℚ))) (l : LinkedTree.Tree (T × ℚ)) (n : Nat) (r : LinkedTree.Tree (T × ℚ))
    (h : Nat) : Prop where
  self : fs ≠ [] → red n = true
  left : BlackTop red l h ∧ Quiet red l
  right : BlackTop red r h ∧ Quiet red r
  fits : Fits red fs false h
  uncle : BlackUncle red fs

theorem opened_kid {other : LinkedTree.Tree (T × ℚ)} (hdistinct : (t.ids ++ n :: other.ids ++ idsAbove fs).Nodup)
    (hbal : Balanced red t h) (ht : t.isRed red = true)
    (hmarks : ∀ i, i ≠ n → red' i = if t.ptr = some i ∨ other.ptr = some i then false else red i) :
    BlackTop red' t (h + 1) ∧ Quiet red' t := by
  have hother : ∀ i, other.ptr = some i → i ∈ other.ids := fun i hi => ptr_mem hi
  refine balanced_blacken red' hbal ht (by grind) (fun i hi hne => ?_) ?_
  · rw [hmarks i (by grind), if_neg]
    rintro (heq | heq)
    · exact hne heq
    · have := hother i heq
      grind
  · cases t with
    | nil => rfl
    | node l k x r =>
      have hk : k ∈ (LinkedTree.Tree.node l k x r).ids := ptr_mem rfl
      exact (hmarks k (by grind)).trans (if_pos (.inl rfl))

section
variable [LinearOrder T] {item : T}

def sideOf (item : T) (x : T × ℚ) : Side := if item < x.1 then .left else .right

/-- The subtree of the node where the item belongs. -/
def toward (item : T) : LinkedTree.Tree (T × ℚ) → LinkedTree.Tree (T × ℚ)
  | .nil => .nil
  | .node l _ x r => if item < x.1 then l else r

theorem toward_join (hside : sideOf item x = side) : toward item (join side a n x b) = a := by
  subst hside
  rw [sideOf]
  split
  case isTrue hlt => exact if_pos hlt
  case isFalse hge => exact if_neg hge

/-- The tree is red-black, and what the descent has left behind it: where the place is below a red node with a red sibling, or
is one, there is a node without red children next. -/
structure Descending (red : Nat → Bool) (item : T) (fs : List (Frame (T × ℚ))) (t : LinkedTree.Tree (T × ℚ)) : Prop where
  balanced : ∃ h, Balanced red t h ∧ Fits red fs (t.isRed red) h
  here : ∀ f gs, fs = f :: gs → t.isRed red = true → f.other.isRed red = true → Quiet red (toward item t)
  uncle : ∀ f g gs, fs = f :: g :: gs → red f.id = true → g.other.isRed red = true → Quiet red t

/-- Without a split. -/
theorem Descending.step (hd : Descending red item fs (join side a n x b)) (hside : sideOf item x = side)
    (hkids : a.isRed red = true → b.isRed red = false) : Descending red item (⟨side, n, x, b⟩ :: fs) a := by
  have hfill : join side a n x b = (⟨side, n, x, b⟩ : Frame (T × ℚ)).fill a := rfl
  refine ⟨fill_balanced.mp (hfill ▸ hd.balanced), ?_, ?_⟩
  · rintro f gs hfs ha hb
    obtain ⟨rfl, rfl⟩ := List.cons.inj hfs
    exact absurd ((hkids ha).symm.trans hb) (Bool.noConfusion)
  · rintro f g gs hfs hn hg
    obtain ⟨rfl, rfl⟩ := List.cons.inj hfs
    have hquiet := hd.here g gs rfl (isRed_join.trans hn) hg
    rwa [toward_join hside] at hquiet

/-- A black place with a black node next. -/
theorem Descending.of_quiet (hbal : ∃ k, Balanced red (join side a n x b) k ∧ Fits red fs (red n) k) (ha : a.isRed red = false)
    (hquiet : Quiet red a) : Descending red item (⟨side, n, x, b⟩ :: fs) a := by
  have hfill : join side a n x b = (⟨side, n, x, b⟩ : Frame (T × ℚ)).fill a := rfl
  refine ⟨fill_balanced.mp ?_, fun f gs _ hred => absurd (ha.symm.trans hred) (Bool.noConfusion), fun _ _ _ _ _ _ => hquiet⟩
  rw [← hfill, isRed_join]
  exact hbal

theorem Descending.opened (hd : Descending red item fs (.node l n x r)) (hdistinct : (l.ids ++ n :: r.ids ++ idsAbove fs).Nodup)
    (hl : l.isRed red = true) (hr : r.isRed red = true) : ∃ h, Opened (splitMarks red fs l n r) fs l n r h := by
  obtain ⟨k, hbal, hfits⟩ := hd.balanced
  cases hbal with
  | red _ hblack => exact absurd (hl.symm.trans hblack) (Bool.noConfusion)
  | @black _ _ _ h _ hn hleft hright =>
    have hlptr : ∀ i, l.ptr = some i → i ∈ l.ids := fun i hi => ptr_mem hi
    have hrptr : ∀ i, r.ptr = some i → i ∈ r.ids := fun i hi => ptr_mem hi
    have hsame : ∀ i ∈ idsAbove fs, splitMarks red fs l n r i = red i := fun i hi => by
      rw [splitMarks_of_ne (by grind), if_neg]
      rintro (heq | heq)
      · have := hrptr i heq
        grind
      · have := hlptr i heq
        grind
    have hfits' : Fits red fs false (h + 1) := (show (LinkedTree.Tree.node l n x r).isRed red = false from hn) ▸ hfits
    refine ⟨h + 1, splitMarks_self, ?_, ?_, hfits'.congr hsame, ?_⟩
    · exact opened_kid hdistinct hleft hl fun i hi => by simp only [splitMarks_of_ne hi, or_comm]
    · have hswap : (r.ids ++ n :: l.ids ++ idsAbove fs).Nodup :=
        ((List.perm_append_comm.trans List.perm_middle.symm).append_right _).nodup_iff.mp hdistinct
      exact opened_kid hswap hright hr fun i hi => splitMarks_of_ne hi
    · rintro f g gs rfl hf
      have hother : g.other.isRed (splitMarks red (f :: g :: gs) l n r) = g.other.isRed red := isRed_congr fun i hi =>
        hsame i (by simp [idsAbove, hi])
      rw [hsame f.id List.mem_cons_self] at hf
      rw [hother]
      by_contra hg
      exact absurd ((hd.uncle f g gs rfl hf (Bool.of_not_eq_false hg)).1.symm.trans hl) (Bool.noConfusion)

omit [LinearOrder T] in
theorem join_inj {a' b' : LinkedTree.Tree (T × ℚ)} (heq : join side a n x b = join side a' n x b') : a = a' ∧ b = b' := by
  cases side with
  | left =>
    cases heq
    exact ⟨rfl, rfl⟩
  | right =>
    cases heq
    exact ⟨rfl, rfl⟩

/-- The descent goes on below the node that has been split. -/
theorem Raised.descending {a' b' : LinkedTree.Tree (T × ℚ)} (hraised : Raised red red' n x l r fs fs' l' r')
    (hopened : Opened red fs l n r h) (hdistinct : (l.ids ++ n :: r.ids ++ idsAbove fs).Nodup)
    (horder : ∀ f ∈ fs, sideOf item f.value = f.side) (hside : sideOf item x = side)
    (hnew : .node l' n x r' = join side a' n x b') : Descending red' item (⟨side, n, x, b'⟩ :: fs') a' := by
  have hbal : ∃ k, Balanced red' (join side a' n x b') k ∧ Fits red' fs' (red' n) k :=
    hnew ▸ hraised.balanced hdistinct hopened.self hopened.left.1 hopened.right.1 hopened.fits hopened.uncle
  have hkid : (∀ i, i ∈ l.ids ∨ i ∈ r.ids → red' i = red i) → ∀ t, t = l ∨ t = r → t.isRed red' = false ∧ Quiet red' t := by
    rintro hsame t (rfl | rfl)
    · exact ⟨(isRed_congr fun i hi => hsame i (.inl hi)).trans hopened.left.1.black,
        hopened.left.2.congr fun i hi => hsame i (.inl hi)⟩
    · exact ⟨(isRed_congr fun i hi => hsame i (.inr hi)).trans hopened.right.1.black,
        hopened.right.2.congr fun i hi => hsame i (.inr hi)⟩
  cases hraised with
  | stay hp hred =>
    obtain ⟨hblack, hquiet⟩ := hkid (fun i _ => congrFun hred i) a' ((join_eq_node hnew.symm).imp And.left And.left)
    exact .of_quiet hbal hblack hquiet
  | @straight f g gs hp hturn hred =>
    obtain ⟨-, hapart⟩ := apart_of_nodup hdistinct
    have hsame : ∀ i, i ∈ l.ids ∨ i ∈ r.ids → red' i = red i := fun i hi => by
      obtain ⟨-, hif, hig⟩ := hapart i (hi.imp_right .inl)
      rw [hred, Function.update_of_ne hif, Function.update_of_ne hig]
    obtain ⟨hblack, hquiet⟩ := hkid hsame a' ((join_eq_node hnew.symm).imp And.left And.left)
    exact .of_quiet hbal hblack hquiet
  | @bent f g _ a b _ _ hp hturn hred hold htop =>
    obtain ⟨-, hapart⟩ := apart_of_nodup hdistinct
    have hsame : ∀ i, i ∈ l.ids ∨ i ∈ r.ids → red' i = red i := fun i hi => by
      obtain ⟨hin, -, hig⟩ := hapart i (hi.imp_right .inl)
      rw [hred, Function.update_of_ne hin, Function.update_of_ne hig]
    have hnblack : red' n = false := by rw [hred, Function.update_self]
    -- the next node is one of the two that have changed sides, and the item is below its inner child
    have hquiet : Quiet red' (toward item a') := by
      have hf : sideOf item f.value = f.side := horder f List.mem_cons_self
      have hg : sideOf item g.value = g.side := horder g (List.mem_cons_of_mem _ List.mem_cons_self)
      have hkids := join_eq_node hold
      rw [← htop] at hnew
      by_cases hsame' : side = g.side
      · subst hsame'
        obtain ⟨rfl, -⟩ := join_inj hnew
        rw [toward_join hf]
        exact (hkid hsame b (hkids.symm.imp And.right And.right)).2
      · rw [Side.eq_other hsame', join_other] at hnew
        obtain ⟨-, rfl⟩ := join_inj hnew
        rw [toward_join hg]
        exact (hkid hsame a (hkids.imp And.left And.left)).2
    refine ⟨fill_balanced.mp ?_, fun _ _ _ _ _ => hquiet, ?_⟩
    · rw [Frame.fill, isRed_join]
      exact hbal
    · rintro f' g' gs' hfs hn
      obtain ⟨rfl, rfl⟩ := List.cons.inj hfs
      exact absurd (hnblack.symm.trans hn) (Bool.noConfusion)

end

/-- The tree on the heap is a red-black tree. -/
def RedBlack (s : DiscretePDF T) : Prop := ∃ t, view.Holds s.nodes s.m_root [] t ∧ t.RedBlack s.isRed

theorem redBlack_iff {s : DiscretePDF T} (hholds : view.Holds s.nodes s.m_root fs t) :
    RedBlack s ↔ ∃ h, Balanced s.isRed t h ∧ Fits s.isRed fs (t.isRed s.isRed) h := by
  rw [← balanced_plug, exists_balanced_iff]
  constructor
  · rintro ⟨t', hholds', hred⟩
    rwa [hholds.unique hholds']
  · exact fun hred => ⟨plug fs t, holds_plug.mp hholds, hred⟩

end CapTaint.Klee.DiscretePDF
