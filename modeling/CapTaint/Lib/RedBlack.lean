import CapTaint.Lib.LinkedTree

/-! # Red-black trees

The nodes of a linked tree are red or black. A tree with a black height is balanced, and a place takes the trees that make
the whole tree balanced. -/

namespace CapTaint.LinkedTree

open LinkedTree.Tree

variable {α : Type} {red red' : Nat → Bool} {t t' a b : Tree α} {f : Frame α} {fs : List (Frame α)} {side : Side}
  {n h h' : Nat} {x y : α} {colour : Bool}

/-- A tree is red when its root is. -/
def Tree.isRed (red : Nat → Bool) : Tree α → Bool
  | nil => false
  | node _ n _ _ => red n

/-- No red node has a red child. -/
def Tree.NoRedRed (red : Nat → Bool) : Tree α → Prop
  | nil => True
  | node l n _ r => (red n = true → l.isRed red = false ∧ r.isRed red = false) ∧ l.NoRedRed red ∧ r.NoRedRed red

/-- The numbers of black nodes from the root to the missing children, from left to right. -/
def Tree.blackCounts (red : Nat → Bool) : Tree α → List Nat
  | nil => [0]
  | node l n _ r => (l.blackCounts red ++ r.blackCounts red).map (· + if red n then 0 else 1)

structure Tree.RedBlack (red : Nat → Bool) (t : Tree α) : Prop where
  noRedRed : t.NoRedRed red
  sameBlacks : ∀ i ∈ t.blackCounts red, ∀ j ∈ t.blackCounts red, i = j

/-- The tree is red-black, and has the black height `h`. -/
inductive Balanced (red : Nat → Bool) : Tree α → Nat → Prop
  | nil : Balanced red nil 0
  | red {l r : Tree α} {n h : Nat} {x : α} (hn : red n = true) (hl : l.isRed red = false) (hr : r.isRed red = false)
      (hleft : Balanced red l h) (hright : Balanced red r h) : Balanced red (node l n x r) h
  | black {l r : Tree α} {n h : Nat} {x : α} (hn : red n = false) (hleft : Balanced red l h) (hright : Balanced red r h) :
      Balanced red (node l n x r) (h + 1)

/-- The whole tree is red-black with a tree of this colour and black height at the place. -/
def Fits (red : Nat → Bool) : List (Frame α) → Bool → Nat → Prop
  | [], _, _ => True
  | f :: fs, colour, h => Balanced red f.other h ∧
      if red f.id then colour = false ∧ f.other.isRed red = false ∧ Fits red fs true h else Fits red fs false (h + 1)

@[simp] theorem isRed_join : (join side a n x b).isRed red = red n := by cases side <;> rfl

theorem isRed_eq_elim (red : Nat → Bool) (t : Tree α) : t.isRed red = t.ptr.elim false red := by cases t <;> rfl

/-! ### Heights -/

theorem balanced_join_red (hn : red n = true) : Balanced red (join side a n x b) h ↔
    a.isRed red = false ∧ b.isRed red = false ∧ Balanced red a h ∧ Balanced red b h := by
  constructor
  · intro hbal
    cases side with
    | left =>
      cases hbal with
      | red _ hl hr hleft hright => exact ⟨hl, hr, hleft, hright⟩
      | black hblack => exact absurd (hn.symm.trans hblack) (Bool.noConfusion)
    | right =>
      cases hbal with
      | red _ hl hr hleft hright => exact ⟨hr, hl, hright, hleft⟩
      | black hblack => exact absurd (hn.symm.trans hblack) (Bool.noConfusion)
  · rintro ⟨ha, hb, hbala, hbalb⟩
    cases side with
    | left => exact .red hn ha hb hbala hbalb
    | right => exact .red hn hb ha hbalb hbala

theorem balanced_join_black (hn : red n = false) : Balanced red (join side a n x b) h ↔
    ∃ k, h = k + 1 ∧ Balanced red a k ∧ Balanced red b k := by
  constructor
  · intro hbal
    cases side with
    | left =>
      cases hbal with
      | red hred => exact absurd (hn.symm.trans hred) (Bool.noConfusion)
      | black _ hleft hright => exact ⟨_, rfl, hleft, hright⟩
    | right =>
      cases hbal with
      | red hred => exact absurd (hn.symm.trans hred) (Bool.noConfusion)
      | black _ hleft hright => exact ⟨_, rfl, hright, hleft⟩
  · rintro ⟨k, rfl, hbala, hbalb⟩
    cases side with
    | left => exact .black hn hbala hbalb
    | right => exact .black hn hbalb hbala

theorem Balanced.unique (hbal : Balanced red t h) (hbal' : Balanced red t h') : h = h' := by
  induction hbal generalizing h' with
  | nil =>
    cases hbal'
    rfl
  | red hn _ _ _ _ ih _ =>
    cases hbal' with
    | red _ _ _ hleft _ => exact ih hleft
    | black hblack => exact absurd (hn.symm.trans hblack) (Bool.noConfusion)
  | black hn _ _ ih _ =>
    cases hbal' with
    | red hred => exact absurd (hn.symm.trans hred) (Bool.noConfusion)
    | black _ hleft _ => exact congrArg (· + 1) (ih hleft)

theorem Balanced.zero (hbal : Balanced red t 0) (ht : t.isRed red = false) : t = .nil := by
  cases hbal with
  | nil => rfl
  | red hn => exact absurd (hn.symm.trans ht) (Bool.noConfusion)

theorem isRed_congr (hsame : ∀ i ∈ t.ids, red' i = red i) : t.isRed red' = t.isRed red := by
  cases t with
  | nil => rfl
  | node l n x r => exact hsame n (ptr_mem rfl)

/-- Only the colours of its own nodes matter. -/
theorem Balanced.congr (hbal : Balanced red t h) (hsame : ∀ i ∈ t.ids, red' i = red i) : Balanced red' t h := by
  induction hbal with
  | nil => exact .nil
  | @red l r n h x hn hl hr _ _ ihl ihr =>
    have hleft : ∀ i ∈ l.ids, red' i = red i := fun i hi => hsame i (mem_ids_node.mpr (.inl hi))
    have hright : ∀ i ∈ r.ids, red' i = red i := fun i hi => hsame i (mem_ids_node.mpr (.inr (.inr hi)))
    exact .red ((hsame n (ptr_mem rfl)).trans hn) ((isRed_congr hleft).trans hl) ((isRed_congr hright).trans hr) (ihl hleft)
      (ihr hright)
  | @black l r n h x hn _ _ ihl ihr =>
    exact .black ((hsame n (ptr_mem rfl)).trans hn) (ihl fun i hi => hsame i (mem_ids_node.mpr (.inl hi)))
      (ihr fun i hi => hsame i (mem_ids_node.mpr (.inr (.inr hi))))

theorem Balanced.setValue (hbal : Balanced red (join side a n x b) h) : Balanced red (join side a n y b) h := by
  cases hn : red n with
  | true => exact (balanced_join_red hn).mpr ((balanced_join_red hn).mp hbal)
  | false => exact (balanced_join_black hn).mpr ((balanced_join_black hn).mp hbal)

theorem Balanced.noRedRed (hbal : Balanced red t h) : t.NoRedRed red := by
  induction hbal with
  | nil => trivial
  | red _ hl hr _ _ ihl ihr => exact ⟨fun _ => ⟨hl, hr⟩, ihl, ihr⟩
  | black hn _ _ ihl ihr => exact ⟨fun hred => absurd (hn.symm.trans hred) (Bool.noConfusion), ihl, ihr⟩

theorem Balanced.blackCounts (hbal : Balanced red t h) : ∀ i ∈ t.blackCounts red, i = h := by
  induction hbal with
  | nil => exact fun i hi => List.mem_singleton.mp hi
  | red hn _ _ _ _ ihl ihr =>
    intro i hi
    obtain ⟨j, hj, rfl⟩ := List.mem_map.mp hi
    rw [if_pos hn]
    exact (List.mem_append.mp hj).elim (ihl j) (ihr j)
  | black hn _ _ ihl ihr =>
    intro i hi
    obtain ⟨j, hj, rfl⟩ := List.mem_map.mp hi
    rw [if_neg (by rw [hn]; decide)]
    exact congrArg (· + 1) ((List.mem_append.mp hj).elim (ihl j) (ihr j))

theorem blackCounts_ne_nil (red : Nat → Bool) (t : Tree α) : ∃ i, i ∈ t.blackCounts red := by
  induction t with
  | nil => exact ⟨0, List.mem_singleton_self 0⟩
  | node l n x r ihl _ =>
    obtain ⟨i, hi⟩ := ihl
    exact ⟨_, List.mem_map_of_mem (List.mem_append_left _ hi)⟩

/-- The red-black trees are those with a black height. -/
theorem exists_balanced_iff : (∃ h, Balanced red t h) ↔ t.RedBlack red := by
  constructor
  · rintro ⟨h, hbal⟩
    exact ⟨hbal.noRedRed, fun i hi j hj => (hbal.blackCounts i hi).trans (hbal.blackCounts j hj).symm⟩
  · induction t with
    | nil => exact fun _ => ⟨0, .nil⟩
    | node l n x r ihl ihr =>
      rintro ⟨⟨hn, hl, hr⟩, hsame⟩
      have hkids : ∀ i ∈ l.blackCounts red ++ r.blackCounts red, ∀ j ∈ l.blackCounts red ++ r.blackCounts red, i = j :=
        fun i hi j hj => Nat.add_right_cancel (hsame _ (List.mem_map_of_mem hi) _ (List.mem_map_of_mem hj))
      obtain ⟨h, hleft⟩ := ihl ⟨hl, fun i hi j hj => hkids i (List.mem_append_left _ hi) j (List.mem_append_left _ hj)⟩
      obtain ⟨h', hright⟩ := ihr ⟨hr, fun i hi j hj => hkids i (List.mem_append_right _ hi) j (List.mem_append_right _ hj)⟩
      obtain ⟨i, hi⟩ := blackCounts_ne_nil red l
      obtain ⟨j, hj⟩ := blackCounts_ne_nil red r
      obtain rfl : h = h' := by
        rw [← hleft.blackCounts i hi, ← hright.blackCounts j hj]
        exact hkids i (List.mem_append_left _ hi) j (List.mem_append_right _ hj)
      cases hred : red n with
      | true => exact ⟨h, .red hred (hn hred).1 (hn hred).2 hleft hright⟩
      | false => exact ⟨h + 1, .black hred hleft hright⟩

/-! ### Places -/

theorem Fits.other (hfits : Fits red (f :: fs) colour h) : Balanced red f.other h := hfits.1

theorem fits_red (hf : red f.id = true) : Fits red (f :: fs) colour h ↔
    Balanced red f.other h ∧ colour = false ∧ f.other.isRed red = false ∧ Fits red fs true h := by
  rw [Fits, if_pos hf]

theorem fits_black (hf : red f.id = false) : Fits red (f :: fs) colour h ↔
    Balanced red f.other h ∧ Fits red fs false (h + 1) := by
  rw [Fits, if_neg (by rw [hf]; decide)]

/-- Where a tree fits, a black one does. -/
theorem Fits.black (hfits : Fits red fs colour h) : Fits red fs false h := by
  cases fs with
  | nil => trivial
  | cons f fs =>
    cases hf : red f.id with
    | true =>
      obtain ⟨hother, -, hrest⟩ := (fits_red hf).mp hfits
      exact (fits_red hf).mpr ⟨hother, rfl, hrest⟩
    | false => exact (fits_black hf).mpr ((fits_black hf).mp hfits)

theorem Fits.congr (hfits : Fits red fs colour h) (hsame : ∀ i ∈ idsAbove fs, red' i = red i) : Fits red' fs colour h := by
  induction fs generalizing colour h with
  | nil => trivial
  | cons f fs ih =>
    have hother : ∀ i ∈ f.other.ids, red' i = red i := fun i hi =>
      hsame i (List.mem_append_left _ (List.mem_cons_of_mem _ hi))
    have hrest : ∀ i ∈ idsAbove fs, red' i = red i := fun i hi => hsame i (List.mem_append_right _ hi)
    have hf : red' f.id = red f.id := hsame f.id List.mem_cons_self
    cases hred : red f.id with
    | true =>
      obtain ⟨hbal, hcolour, hblack, hfs⟩ := (fits_red hred).mp hfits
      exact (fits_red (hf.trans hred)).mpr ⟨hbal.congr hother, hcolour, (isRed_congr hother).trans hblack, ih hfs hrest⟩
    | false =>
      obtain ⟨hbal, hfs⟩ := (fits_black hred).mp hfits
      exact (fits_black (hf.trans hred)).mpr ⟨hbal.congr hother, ih hfs hrest⟩

/-- A balanced tree that is not red. -/
structure BlackTop (red : Nat → Bool) (t : Tree α) (h : Nat) : Prop where
  balanced : Balanced red t h
  black : t.isRed red = false

theorem BlackTop.congr (htop : BlackTop red t h) (hsame : ∀ i ∈ t.ids, red' i = red i) : BlackTop red' t h :=
  ⟨htop.balanced.congr hsame, (isRed_congr hsame).trans htop.black⟩

theorem BlackTop.join_red (hn : red n = true) (ha : BlackTop red a h) (hb : BlackTop red b h) : Balanced red (join side a n x b) h :=
  (balanced_join_red hn).mpr ⟨ha.black, hb.black, ha.balanced, hb.balanced⟩

/-- What is above a place below a red node. -/
theorem Fits.below_red {g : Frame α} (hfits : Fits red (f :: g :: fs) colour h) (hf : red f.id = true) :
    BlackTop red f.other h ∧ red g.id = false ∧ Balanced red g.other h ∧ Fits red fs false (h + 1) := by
  obtain ⟨hother, -, hblack, hrest⟩ := (fits_red hf).mp hfits
  have hg : red g.id = false := by
    by_contra hg
    exact absurd ((fits_red (Bool.of_not_eq_false hg)).mp hrest).2.1 (Bool.noConfusion)
  obtain ⟨hgother, hgs⟩ := (fits_black hg).mp hrest
  exact ⟨⟨hother, hblack⟩, hg, hgother, hgs⟩

theorem fill_balanced : (∃ k, Balanced red (f.fill t) k ∧ Fits red fs ((f.fill t).isRed red) k) ↔
    ∃ h, Balanced red t h ∧ Fits red (f :: fs) (t.isRed red) h := by
  rw [Frame.fill, isRed_join]
  cases hf : red f.id with
  | true =>
    refine exists_congr fun k => ?_
    rw [balanced_join_red hf, fits_red hf]
    tauto
  | false =>
    constructor
    · rintro ⟨k, hbal, hfits⟩
      obtain ⟨h, rfl, ht, hother⟩ := (balanced_join_black hf).mp hbal
      exact ⟨h, ht, (fits_black hf).mpr ⟨hother, hfits⟩⟩
    · rintro ⟨h, ht, hfits⟩
      obtain ⟨hother, hfs⟩ := (fits_black hf).mp hfits
      exact ⟨h + 1, (balanced_join_black hf).mpr ⟨h, rfl, ht, hother⟩, hfs⟩

/-- The whole tree, from one of its places. -/
theorem balanced_plug : (∃ k, Balanced red (plug fs t) k) ↔ ∃ h, Balanced red t h ∧ Fits red fs (t.isRed red) h := by
  induction fs generalizing t with
  | nil => exact exists_congr fun h => (and_iff_left trivial).symm
  | cons f fs ih => rw [plug_cons, ih, fill_balanced]

/-- An only child is a red node below a black one. -/
theorem Balanced.only_child (hbal : Balanced red (join side a n x .nil) h) (ha : a ≠ .nil) :
    red n = false ∧ a.isRed red = true ∧ Balanced red a 0 ∧ h = 1 := by
  cases hn : red n with
  | true =>
    obtain ⟨hablack, -, haBal, hnil⟩ := (balanced_join_red hn).mp hbal
    cases hnil
    exact absurd (haBal.zero hablack) ha
  | false =>
    obtain ⟨k, rfl, haBal, hnil⟩ := (balanced_join_black hn).mp hbal
    cases hnil
    exact ⟨rfl, Bool.of_not_eq_false fun hablack => ha (haBal.zero hablack), haBal, rfl⟩

/-- A node without children can be taken away if it is red or the root. -/
theorem fits_nil_iff (hbal : Balanced red (join side .nil n x .nil) h) (hfits : Fits red fs (red n) h) :
    (∃ k, Balanced red (nil : Tree α) k ∧ Fits red fs false k) ↔ red n = true ∨ fs = [] := by
  cases hn : red n with
  | true =>
    obtain ⟨-, -, hnil, -⟩ := (balanced_join_red hn).mp hbal
    cases hnil
    exact iff_of_true ⟨0, .nil, hfits.black⟩ (.inl rfl)
  | false =>
    obtain ⟨k, rfl, hnil, -⟩ := (balanced_join_black hn).mp hbal
    cases hnil
    cases fs with
    | nil => exact iff_of_true ⟨0, .nil, trivial⟩ (.inr rfl)
    | cons f fs =>
      refine iff_of_false ?_ (by simp)
      rintro ⟨k, hnil, hfits'⟩
      cases hnil
      exact absurd (hfits.other.unique hfits'.other) (Nat.succ_ne_zero 0)

end CapTaint.LinkedTree
