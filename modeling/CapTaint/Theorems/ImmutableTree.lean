import CapTaint.Klee.ImmutableTree

/-! # ImmutableTree is a persistent ordered map

The nodes below a pointer are a tree of the library, on which the operations have the effects of the library's. What is
reachable from the trees that there are is neither changed nor freed. -/

namespace CapTaint.Klee.ImmutableTree

open RefCount HeightTree.Tree

variable {K V : Type} {h h' h'' : NodeHeap V} {p q : Nat} {roots : List Nat} {t l r : HeightTree.Tree V} {v : V}

/-! ### Trees on the heap -/

/-- The nodes below `p` are the tree. -/
inductive Rep (h : NodeHeap V) : Nat → HeightTree.Tree V → Prop
  | nil : Rep h terminator .nil
  | node {p : Nat} {c : Cell (Node V)} {l r : HeightTree.Tree V} (hp : p ≠ terminator) (hc : h.cell p = some c)
      (hl : Rep h c.data.left l) (hr : Rep h c.data.right r) : Rep h p (.node l c.data.value r c.data.height)

/-- The roots own all there is on the heap, next to the terminator. -/
structure Valid [Inhabited V] (h : NodeHeap V) (roots : List Nat) : Prop where
  owned : Owned Node.kids h (terminator :: roots)
  terminator : ∃ c, h.cell terminator = some c ∧ c.data = ⟨terminator, terminator, default, 0⟩

/-- Nothing is freed or changed. -/
def Grows (h h' : NodeHeap V) : Prop := Keeps h h' ∧ Same h h'

theorem Grows.trans (h₁ : Grows h h') (h₂ : Grows h' h'') : Grows h h'' := ⟨h₁.1.trans h₂.1, h₁.2.trans h₂.2⟩

theorem Rep.keeps (ht : Rep h p t) (hk : Keeps h h') : Rep h' p t := by
  induction ht with
  | nil => exact .nil
  | node hp hc _ _ ihl ihr =>
    obtain ⟨c', hc', heq⟩ := hk _ _ hc
    rw [← heq] at ihl ihr ⊢
    exact .node hp hc' ihl ihr

theorem Rep.grows (ht : Rep h p t) (hg : Grows h h') : Rep h' p t := ht.keeps hg.1

theorem Rep.node_of_ne (ht : Rep h p t) (hp : p ≠ terminator) :
    ∃ c l r, h.cell p = some c ∧ t = .node l c.data.value r c.data.height ∧ Rep h c.data.left l ∧ Rep h c.data.right r := by
  cases ht with
  | nil => exact absurd rfl hp
  | node _ hc hl hr => exact ⟨_, _, _, hc, rfl, hl, hr⟩

/-- A node that is not the terminator, with the trees below it. -/
theorem Rep.unfold {n : Node V} (ht : Rep h p t) (hn : ImmutableTree.node h p = some n) (hpos : 0 < t.height) :
    p ≠ terminator ∧ ∃ l r, t = .node l n.value r n.height ∧ Rep h n.left l ∧ Rep h n.right r := by
  cases ht with
  | nil => exact absurd hpos (Nat.lt_irrefl 0)
  | node hp hc hl hr =>
    rw [ImmutableTree.node, hc, Option.map_some] at hn
    obtain rfl := Option.some.inj hn
    exact ⟨hp, _, _, rfl, hl, hr⟩

theorem Rep.eq_nil (ht : Rep h terminator t) : t = .nil := by
  cases ht with
  | nil => rfl
  | node hp => exact absurd rfl hp

section
variable [Inhabited V]

theorem Valid.perm {roots' : List Nat} (hv : Valid h roots) (hperm : roots.Perm roots') : Valid h roots' :=
  ⟨hv.owned.perm (hperm.cons _), hv.terminator⟩

/-- What is reachable from a pointer that is in use is in use. -/
theorem Rep.same {roots' : List Nat} (ht : Rep h p t) (hv : Valid h roots) (hv' : Valid h' roots') (hs : Same h h')
    (hp : (h'.cell p).isSome = true) : Rep h' p t := by
  induction ht with
  | nil => exact .nil
  | @node p c l r hne hc _ _ ihl ihr =>
    obtain ⟨c', hc'⟩ := Option.isSome_iff_exists.mp hp
    obtain ⟨c₀, hc₀, heq⟩ := hs.data p c' hc' (hv.owned.fresh p (Option.isSome_of_eq_some hc))
    obtain rfl := Option.some.inj (hc.symm.trans hc₀)
    have hkids := hv'.owned.closed p c' hc'
    have hleft := ihl (hkids _ (heq ▸ List.mem_cons_self))
    have hright := ihr (hkids _ (heq ▸ List.mem_cons_of_mem _ List.mem_cons_self))
    rw [heq] at hleft hright ⊢
    exact .node hne hc' hleft hright

/-- The node at a pointer. -/
theorem Rep.read (ht : Rep h p t) (hv : Valid h roots) : ∃ n, ImmutableTree.node h p = some n ∧ n.height = t.height := by
  cases ht with
  | nil =>
    obtain ⟨c, hc, hdata⟩ := hv.terminator
    exact ⟨c.data, by rw [ImmutableTree.node, hc, Option.map_some], by rw [hdata]; rfl⟩
  | @node p c l r hp hc hl hr => exact ⟨c.data, by rw [ImmutableTree.node, hc, Option.map_some], rfl⟩

theorem Rep.live (ht : Rep h p t) (hv : Valid h roots) : (h.cell p).isSome = true := by
  cases ht with
  | nil => exact hv.owned.roots _ hv.owned.static
  | node _ hc _ _ => exact Option.isSome_of_eq_some hc

/-! ### References -/

/-- The result of an operation is a tree that the caller has to care for. -/
def Makes (h : NodeHeap V) (roots : List Nat) (result : Option (NodeHeap V × Nat)) (t : HeightTree.Tree V) : Prop :=
  ∃ h' p, result = some (h', p) ∧ Valid h' (p :: roots) ∧ Same h h' ∧ Rep h' p t

theorem Valid.terminator_of_keeps (hv : Valid h roots) (hk : Keeps h h') :
    ∃ c, h'.cell ImmutableTree.terminator = some c ∧
      c.data = ⟨ImmutableTree.terminator, ImmutableTree.terminator, default, 0⟩ := by
  obtain ⟨c, hc, hdata⟩ := hv.terminator
  obtain ⟨c', hc', heq⟩ := hk _ c hc
  exact ⟨c', hc', heq.trans hdata⟩

theorem Valid.incref (hv : Valid h roots) (hp : (h.cell p).isSome = true) :
    ∃ h', h.incref p = some h' ∧ Valid h' (p :: roots) ∧ Grows h h' := by
  obtain ⟨h', heq, howned, hk, hs⟩ := hv.owned.incref hp
  exact ⟨h', heq, ⟨howned.perm (.swap _ _ _), hv.terminator_of_keeps hk⟩, hk, hs⟩

theorem Valid.grows {roots' : List Nat} (hv : Valid h roots) (hv' : Valid h' roots') (hsub : roots ⊆ roots')
    (hs : Same h h') : Grows h h' := ⟨hv.owned.keeps hv'.owned (List.cons_subset_cons _ hsub) hs, hs⟩

/-- A reference is given up. The trees of the others stay. -/
theorem Valid.decref (hv : Valid h (p :: roots)) : ∃ h', ImmutableTree.decref h p = some h' ∧ Valid h' roots ∧ Same h h' := by
  obtain ⟨h', heq, howned, hs⟩ := (hv.owned.perm (.swap _ _ _)).decref List.mem_cons_self (Nat.lt_succ_self p)
  refine ⟨h', heq, ⟨howned, ?_⟩, hs⟩
  obtain ⟨c, hc, hdata⟩ := hv.terminator
  obtain ⟨c', hc'⟩ := Option.isSome_iff_exists.mp (howned.roots _ List.mem_cons_self)
  obtain ⟨c₀, hc₀, heq⟩ := hs.data _ c' hc' (hv.owned.fresh _ (Option.isSome_of_eq_some hc))
  obtain rfl := Option.some.inj (hc.symm.trans hc₀)
  exact ⟨c', hc', heq ▸ hdata⟩

theorem Valid.new (hv : Valid h (p :: q :: roots)) (hp : Rep h p l) (hq : Rep h q r) :
    ∃ h' n, new h p q v = some (h', n) ∧ Valid h' (n :: roots) ∧ Grows h h' ∧ Rep h' n (join l v r) := by
  obtain ⟨nl, hnl, hheight⟩ := hp.read hv
  obtain ⟨nr, hnr, hheight'⟩ := hq.read hv
  have hperm : (ImmutableTree.terminator :: p :: q :: roots).Perm (p :: q :: ImmutableTree.terminator :: roots) :=
    (List.Perm.swap _ _ _).trans ((List.Perm.swap _ _ _).cons _)
  have hkids : Owned Node.kids h (Node.kids ⟨p, q, v, max nl.height nr.height + 1⟩ ++ ImmutableTree.terminator :: roots) :=
    hv.owned.perm hperm
  obtain ⟨howned, hk, hs, hcell⟩ := hkids.alloc List.mem_cons_self
  refine ⟨_, h.next, by rw [ImmutableTree.new, hnl, hnr]; rfl, ⟨howned.perm (.swap _ _ _), hv.terminator_of_keeps hk⟩, ⟨hk, hs⟩, ?_⟩
  have hne : h.next ≠ ImmutableTree.terminator := fun heq =>
    absurd (hv.owned.fresh _ (hv.owned.roots _ List.mem_cons_self)) (heq ▸ Nat.lt_irrefl _)
  rw [join, ← hheight, ← hheight']
  exact Rep.node hne hcell (hp.keeps hk) (hq.keeps hk)

/-! ### Rotations -/

theorem perm_third {a b c : Nat} (list : List Nat) : (a :: b :: c :: list).Perm (c :: a :: b :: list) :=
  @List.perm_middle _ c [a, b] list

/-- What is below a node of a tree that is kept can be used and shared. -/
theorem Valid.share (hv : Valid h roots) (ht : Rep h p t) :
    ∃ h', h.incref p = some h' ∧ Valid h' (p :: roots) ∧ Grows h h' ∧ Rep h' p t := by
  obtain ⟨h', heq, hv', hg⟩ := hv.incref (ht.live hv)
  exact ⟨h', heq, hv', hg, ht.grows hg⟩

/-- The reference to a tree that has been taken apart is given up. -/
theorem Valid.finish (hv : Valid h (p :: q :: roots)) (ht : Rep h p t) :
    ∃ h', ImmutableTree.decref h q = some h' ∧ Valid h' (p :: roots) ∧ Same h h' ∧ Rep h' p t := by
  obtain ⟨h'', heq, hv'', hs⟩ := (hv.perm (.swap _ _ _)).decref
  exact ⟨h'', heq, hv'', hs, ht.same hv hv'' hs ((hv''.owned.roots _ (List.mem_cons_of_mem _ List.mem_cons_self)))⟩

theorem balanceLeft_spec (hv : Valid h (p :: q :: roots)) {n : Node V} {ll lr : HeightTree.Tree V}
    (hll : Rep h n.left ll) (hlr : Rep h n.right lr) (hr : Rep h q r) :
    Makes h roots (balanceLeft h p v q n) (rotateRight (.node ll n.value lr n.height) v r) := by
  obtain ⟨nll, hnll, hheight⟩ := hll.read hv
  obtain ⟨nlr, hnlr, hheight'⟩ := hlr.read hv
  unfold rotateRight
  dsimp only
  rw [← hheight, ← hheight']
  by_cases hle : nlr.height ≤ nll.height
  · obtain ⟨h₁, heq₁, hv₁, hg₁, hlr₁⟩ := hv.share hlr
    obtain ⟨h₂, inner, heq₂, hv₂, hg₂, hinner⟩ := (hv₁.perm ((List.Perm.swap _ _ _).cons _)).new (v := v) hlr₁ (hr.grows hg₁)
    have hg₂ := hg₁.trans hg₂
    obtain ⟨h₃, heq₃, hv₃, hg₃, hll₃⟩ := hv₂.share (hll.grows hg₂)
    obtain ⟨h₄, res, heq₄, hv₄, hg₄, hres⟩ := hv₃.new (v := n.value) hll₃ (hinner.grows hg₃)
    obtain ⟨h₅, heq₅, hv₅, hs₅, hres₅⟩ := hv₄.finish hres
    refine ⟨h₅, res, ?_, hv₅, (hg₂.trans (hg₃.trans hg₄)).2.trans hs₅, ?_⟩
    · simp only [balanceLeft, hnll, hnlr, heq₁, heq₂, heq₃, heq₄, heq₅, if_pos hle, Option.bind_eq_bind, Option.bind_some]
      rfl
    · rw [if_pos hle]
      exact hres₅
  · obtain ⟨-, lrl, lrr, rfl, hlrl, hlrr⟩ := hlr.unfold hnlr (by omega)
    obtain ⟨h₁, heq₁, hv₁, hg₁, hll₁⟩ := hv.share hll
    obtain ⟨h₂, heq₂, hv₂, hg₂, hlrl₂⟩ := hv₁.share (hlrl.grows hg₁)
    obtain ⟨h₃, nll', heq₃, hv₃, hg₃, hnll₃⟩ := (hv₂.perm (.swap _ _ _)).new (v := n.value) (hll₁.grows hg₂) hlrl₂
    have hg₃ := hg₁.trans (hg₂.trans hg₃)
    obtain ⟨h₄, heq₄, hv₄, hg₄, hlrr₄⟩ := hv₃.share (hlrr.grows hg₃)
    obtain ⟨h₅, nlr', heq₅, hv₅, hg₅, hnlr₅⟩ :=
      (hv₄.perm ((perm_third _).cons _)).new (v := v) hlrr₄ ((hr.grows hg₃).grows hg₄)
    have hg₅ := hg₄.trans hg₅
    obtain ⟨h₆, res, heq₆, hv₆, hg₆, hres⟩ := (hv₅.perm (.swap _ _ _)).new (v := nlr.value) (hnll₃.grows hg₅) hnlr₅
    obtain ⟨h₇, heq₇, hv₇, hs₇, hres₇⟩ := hv₆.finish hres
    refine ⟨h₇, res, ?_, hv₇, (hg₃.trans (hg₅.trans hg₆)).2.trans hs₇, ?_⟩
    · simp only [balanceLeft, hnll, hnlr, heq₁, heq₂, heq₃, heq₄, heq₅, heq₆, heq₇, if_neg hle, Option.bind_eq_bind, Option.bind_some]
      rfl
    · rw [if_neg hle]
      exact hres₇

theorem balanceRight_spec (hv : Valid h (p :: q :: roots)) {n : Node V} {rl rr : HeightTree.Tree V}
    (hl : Rep h p l) (hrl : Rep h n.left rl) (hrr : Rep h n.right rr) :
    Makes h roots (balanceRight h p v q n) (rotateLeft l v (.node rl n.value rr n.height)) := by
  obtain ⟨nrl, hnrl, hheight⟩ := hrl.read hv
  obtain ⟨nrr, hnrr, hheight'⟩ := hrr.read hv
  unfold rotateLeft
  dsimp only
  rw [← hheight, ← hheight']
  by_cases hle : nrl.height ≤ nrr.height
  · obtain ⟨h₁, heq₁, hv₁, hg₁, hrl₁⟩ := hv.share hrl
    obtain ⟨h₂, inner, heq₂, hv₂, hg₂, hinner⟩ := (hv₁.perm (.swap _ _ _)).new (v := v) (hl.grows hg₁) hrl₁
    have hg₂ := hg₁.trans hg₂
    obtain ⟨h₃, heq₃, hv₃, hg₃, hrr₃⟩ := hv₂.share (hrr.grows hg₂)
    obtain ⟨h₄, res, heq₄, hv₄, hg₄, hres⟩ := (hv₃.perm (.swap _ _ _)).new (v := n.value) (hinner.grows hg₃) hrr₃
    obtain ⟨h₅, heq₅, hv₅, hs₅, hres₅⟩ := hv₄.finish hres
    refine ⟨h₅, res, ?_, hv₅, (hg₂.trans (hg₃.trans hg₄)).2.trans hs₅, ?_⟩
    · simp only [balanceRight, hnrl, hnrr, heq₁, heq₂, heq₃, heq₄, heq₅, if_pos hle, Option.bind_eq_bind, Option.bind_some]
      rfl
    · rw [if_pos hle]
      exact hres₅
  · obtain ⟨-, rll, rlr, rfl, hrll, hrlr⟩ := hrl.unfold hnrl (by omega)
    obtain ⟨h₁, heq₁, hv₁, hg₁, hrll₁⟩ := hv.share hrll
    obtain ⟨h₂, nrl', heq₂, hv₂, hg₂, hnrl₂⟩ := (hv₁.perm (.swap _ _ _)).new (v := v) (hl.grows hg₁) hrll₁
    have hg₂ := hg₁.trans hg₂
    obtain ⟨h₃, heq₃, hv₃, hg₃, hrlr₃⟩ := hv₂.share (hrlr.grows hg₂)
    obtain ⟨h₄, heq₄, hv₄, hg₄, hrr₄⟩ := hv₃.share ((hrr.grows hg₂).grows hg₃)
    obtain ⟨h₅, nrr', heq₅, hv₅, hg₅, hnrr₅⟩ := (hv₄.perm (.swap _ _ _)).new (v := n.value) (hrlr₃.grows hg₄) hrr₄
    have hg₅ := hg₃.trans (hg₄.trans hg₅)
    obtain ⟨h₆, res, heq₆, hv₆, hg₆, hres⟩ := (hv₅.perm (.swap _ _ _)).new (v := nrl.value) (hnrl₂.grows hg₅) hnrr₅
    obtain ⟨h₇, heq₇, hv₇, hs₇, hres₇⟩ := hv₆.finish hres
    refine ⟨h₇, res, ?_, hv₇, (hg₂.trans (hg₅.trans hg₆)).2.trans hs₇, ?_⟩
    · simp only [balanceRight, hnrl, hnrr, heq₁, heq₂, heq₃, heq₄, heq₅, heq₆, heq₇, if_neg hle, Option.bind_eq_bind,
      Option.bind_some]
      rfl
    · rw [if_neg hle]
      exact hres₇

theorem balance_spec (hv : Valid h (p :: q :: roots)) (hl : Rep h p l) (hr : Rep h q r) :
    Makes h roots (ImmutableTree.balance h p v q) (HeightTree.Tree.balance l v r) := by
  obtain ⟨nl, hnl, hheight⟩ := hl.read hv
  obtain ⟨nr, hnr, hheight'⟩ := hr.read hv
  simp only [ImmutableTree.balance, hnl, hnr, Option.bind_eq_bind, Option.bind_some]
  rw [HeightTree.Tree.balance, ← hheight, ← hheight']
  split
  case isTrue hgt =>
    obtain ⟨-, ll, lr, rfl, hll, hlr⟩ := hl.unfold hnl (by omega)
    exact balanceLeft_spec hv hll hlr hr
  case isFalse =>
    split
    case isTrue hgt =>
      obtain ⟨-, rl, rr, rfl, hrl, hrr⟩ := hr.unfold hnr (by omega)
      exact balanceRight_spec hv hl hrl hrr
    case isFalse =>
      obtain ⟨h', n, heq, hv', hg, hrep⟩ := hv.new (v := v) hl hr
      exact ⟨h', n, heq, hv', hg.2, hrep⟩

/-! ### Changes -/

/-- The left subtree has been rebuilt. -/
theorem Makes.balance_left {result : Option (NodeHeap V × Nat)} (hm : Makes h roots result l) (hv : Valid h roots) (hr : Rep h q r)
    (v : V) : ∃ h₁ p h₂, result = some (h₁, p) ∧ h₁.incref q = some h₂ ∧
      Makes h roots (ImmutableTree.balance h₂ p v q) (HeightTree.Tree.balance l v r) := by
  obtain ⟨h₁, p, heq₁, hv₁, hs₁, hl₁⟩ := hm
  have hg₁ : Grows h h₁ := hv.grows hv₁ (List.subset_cons_self _ _) hs₁
  obtain ⟨h₂, heq₂, hv₂, hg₂, hr₂⟩ := hv₁.share (hr.grows hg₁)
  obtain ⟨h₃, res, heq₃, hv₃, hs₃, hres⟩ := balance_spec (v := v) (hv₂.perm (.swap _ _ _)) (hl₁.grows hg₂) hr₂
  exact ⟨h₁, p, h₂, heq₁, heq₂, h₃, res, heq₃, hv₃, (hg₁.trans hg₂).2.trans hs₃, hres⟩

/-- The right subtree is rebuilt when the left one has its new reference. -/
theorem Valid.balance_right (hv : Valid h roots) (hl : Rep h p l) {op : NodeHeap V → Option (NodeHeap V × Nat)}
    (hop : ∀ h', Valid h' (p :: roots) → Grows h h' → Makes h' (p :: roots) (op h') r) (v : V) :
    ∃ h₁ h₂ q, h.incref p = some h₁ ∧ op h₁ = some (h₂, q) ∧
      Makes h roots (ImmutableTree.balance h₂ p v q) (HeightTree.Tree.balance l v r) := by
  obtain ⟨h₁, heq₁, hv₁, hg₁, hl₁⟩ := hv.share hl
  obtain ⟨h₂, q, heq₂, hv₂, hs₂, hr₂⟩ := hop h₁ hv₁ hg₁
  have hg₂ : Grows h₁ h₂ := hv₁.grows hv₂ (List.subset_cons_self _ _) hs₂
  obtain ⟨h₃, res, heq₃, hv₃, hs₃, hres⟩ := balance_spec (v := v) (hv₂.perm (.swap _ _ _)) (hl₁.grows hg₂) hr₂
  exact ⟨h₁, h₂, q, heq₁, heq₂, h₃, res, heq₃, hv₃, (hg₁.trans hg₂).2.trans hs₃, hres⟩

/-- The nodes of a tree are older than those above them. -/
theorem Valid.kids_lt (hv : Valid h roots) {c : Cell (Node V)} (hc : h.cell p = some c) (hp : p ≠ ImmutableTree.terminator) :
    c.data.left < p ∧ c.data.right < p :=
  ⟨(hv.owned.older p c hc _ List.mem_cons_self).resolve_right hp,
    (hv.owned.older p c hc _ (List.mem_cons_of_mem _ List.mem_cons_self)).resolve_right hp⟩

theorem leaf_spec (hv : Valid h roots) (v : V) : Makes h roots (leaf h v) (join .nil v .nil) := by
  obtain ⟨h₁, heq₁, hv₁, hg₁, hl⟩ := hv.share .nil
  obtain ⟨h₂, heq₂, hv₂, hg₂, hr⟩ := hv₁.share .nil
  obtain ⟨h₃, n, heq₃, hv₃, hg₃, hn⟩ := hv₂.new (v := v) (hl.grows hg₂) hr
  refine ⟨h₃, n, ?_, hv₃, (hg₁.trans (hg₂.trans hg₃)).2, hn⟩
  simp only [leaf, heq₁, heq₂, heq₃, Option.bind_eq_bind, Option.bind_some]

/-- A tree that is shared. -/
theorem Valid.makes (hv : Valid h roots) (ht : Rep h p t) : ∃ h', h.incref p = some h' ∧ Makes h roots (some (h', p)) t := by
  obtain ⟨h', heq, hv', hg, ht'⟩ := hv.share ht
  exact ⟨h', heq, h', p, rfl, hv', hg.2, ht'⟩

section
variable [LinearOrder K] {key : V → K} {k : K} {x : V} {n : Nat}

theorem insert_spec (hv : Valid h roots) (ht : Rep h p t) (hn : p < n) :
    Makes h roots (Node.insert key x n h p) (t.insert key x) := by
  induction n generalizing h p t roots with
  | zero => exact absurd hn (Nat.not_lt_zero p)
  | succ n ih =>
    cases ht with
    | nil =>
      rw [Node.insert, if_pos rfl]
      exact leaf_spec hv x
    | @node p c l r hp hc hl hr =>
      obtain ⟨hleft, hright⟩ := hv.kids_lt hc hp
      have hnode : node h p = some c.data := by rw [node, hc, Option.map_some]
      rw [HeightTree.Tree.insert]
      simp only [Node.insert, if_neg hp, hnode, Option.bind_eq_bind, Option.bind_some]
      split
      case isTrue =>
        obtain ⟨h₁, p₁, h₂, heq₁, heq₂, hm⟩ := (ih hv hl (by omega)).balance_left hv hr c.data.value
        simp only [heq₁, heq₂, Option.bind_some]
        exact hm
      case isFalse =>
        split
        case isTrue =>
          obtain ⟨h₁, h₂, q, heq₁, heq₂, hm⟩ :=
            hv.balance_right hl (fun h' hv' hg => ih hv' (hr.grows hg) (by omega)) c.data.value
          simp only [heq₁, heq₂, Option.bind_some]
          exact hm
        case isFalse =>
          obtain ⟨h', heq, hm⟩ := hv.makes (Rep.node hp hc hl hr)
          simp only [heq, Option.bind_some]
          exact hm

theorem replace_spec (hv : Valid h roots) (ht : Rep h p t) (hn : p < n) :
    Makes h roots (Node.replace key x n h p) (t.replace key x) := by
  induction n generalizing h p t roots with
  | zero => exact absurd hn (Nat.not_lt_zero p)
  | succ n ih =>
    cases ht with
    | nil =>
      rw [Node.replace, if_pos rfl]
      exact leaf_spec hv x
    | @node p c l r hp hc hl hr =>
      obtain ⟨hleft, hright⟩ := hv.kids_lt hc hp
      have hnode : node h p = some c.data := by rw [node, hc, Option.map_some]
      rw [HeightTree.Tree.replace]
      simp only [Node.replace, if_neg hp, hnode, Option.bind_eq_bind, Option.bind_some]
      split
      case isTrue =>
        obtain ⟨h₁, p₁, h₂, heq₁, heq₂, hm⟩ := (ih hv hl (by omega)).balance_left hv hr c.data.value
        simp only [heq₁, heq₂, Option.bind_some]
        exact hm
      case isFalse =>
        split
        case isTrue =>
          obtain ⟨h₁, h₂, q, heq₁, heq₂, hm⟩ :=
            hv.balance_right hl (fun h' hv' hg => ih hv' (hr.grows hg) (by omega)) c.data.value
          simp only [heq₁, heq₂, Option.bind_some]
          exact hm
        case isFalse =>
          obtain ⟨h₁, heq₁, hv₁, hg₁, hl₁⟩ := hv.share hl
          obtain ⟨h₂, heq₂, hv₂, hg₂, hr₂⟩ := hv₁.share (hr.grows hg₁)
          obtain ⟨h₃, q, heq₃, hv₃, hg₃, hq⟩ := (hv₂.perm (.swap _ _ _)).new (v := x) (hl₁.grows hg₂) hr₂
          simp only [heq₁, heq₂, Option.bind_some]
          exact ⟨h₃, q, heq₃, hv₃, (hg₁.trans (hg₂.trans hg₃)).2, hq⟩

/-- The result with the value that has come out. -/
def MakesOut (h : NodeHeap V) (roots : List Nat) (result : Option (NodeHeap V × Nat × V)) (out : V) (t : HeightTree.Tree V) : Prop :=
  ∃ h' p, result = some (h', p, out) ∧ Makes h roots (some (h', p)) t

theorem popMin_spec (hv : Valid h roots) (ht : Rep h p t) (hn : p < n) {t' : HeightTree.Tree V} (hpop : t.popMin = some (x, t')) :
    MakesOut h roots (Node.popMin n h p) x t' := by
  induction n generalizing h p t t' roots with
  | zero => exact absurd hn (Nat.not_lt_zero p)
  | succ n ih =>
    cases ht with
    | nil => cases hpop
    | @node p c l r hp hc hl hr =>
      obtain ⟨hleft, hright⟩ := hv.kids_lt hc hp
      have hnode : node h p = some c.data := by rw [node, hc, Option.map_some]
      simp only [Node.popMin, hnode, Option.bind_eq_bind, Option.bind_some]
      split
      case isTrue heq =>
        rw [heq] at hl
        rw [hl.eq_nil, HeightTree.Tree.popMin] at hpop
        obtain ⟨rfl, rfl⟩ := Prod.mk.inj (Option.some.inj hpop)
        obtain ⟨h', heq, hm⟩ := hv.makes hr
        exact ⟨h', c.data.right, by simp only [heq, Option.bind_some]; rfl, hm⟩
      case isFalse hne =>
        obtain ⟨cl, ll, lr, hcl, rfl, -⟩ := hl.node_of_ne hne
        rw [HeightTree.Tree.popMin] at hpop
        · obtain ⟨⟨y, l'⟩, hpopl, heq⟩ := Option.map_eq_some_iff.mp hpop
          obtain ⟨rfl, rfl⟩ := Prod.mk.inj heq
          obtain ⟨h₁, p₁, heq₁, hm₁⟩ := ih hv hl (by omega) hpopl
          obtain ⟨h₁, p₁, h₂, heq, heq₂, h₃, res, heq₃, hm⟩ := hm₁.balance_left hv hr c.data.value
          obtain ⟨rfl, rfl⟩ := Prod.mk.inj (Option.some.inj heq)
          refine ⟨h₃, res, ?_, h₃, res, rfl, hm⟩
          simp only [heq₁, heq₂, heq₃, Option.bind_some]
          rfl
        · intro hnil
          cases hnil

theorem popMax_spec (hv : Valid h roots) (ht : Rep h p t) (hn : p < n) {t' : HeightTree.Tree V} (hpop : t.popMax = some (x, t')) :
    MakesOut h roots (Node.popMax n h p) x t' := by
  induction n generalizing h p t t' roots with
  | zero => exact absurd hn (Nat.not_lt_zero p)
  | succ n ih =>
    cases ht with
    | nil => cases hpop
    | @node p c l r hp hc hl hr =>
      obtain ⟨hleft, hright⟩ := hv.kids_lt hc hp
      have hnode : node h p = some c.data := by rw [node, hc, Option.map_some]
      simp only [Node.popMax, hnode, Option.bind_eq_bind, Option.bind_some]
      split
      case isTrue heq =>
        rw [heq] at hr
        rw [hr.eq_nil, HeightTree.Tree.popMax] at hpop
        obtain ⟨rfl, rfl⟩ := Prod.mk.inj (Option.some.inj hpop)
        obtain ⟨h', heq, hm⟩ := hv.makes hl
        exact ⟨h', c.data.left, by simp only [heq, Option.bind_some]; rfl, hm⟩
      case isFalse hne =>
        obtain ⟨cr, rl, rr, hcr, rfl, -⟩ := hr.node_of_ne hne
        rw [HeightTree.Tree.popMax] at hpop
        · obtain ⟨⟨y, r'⟩, hpopr, heq⟩ := Option.map_eq_some_iff.mp hpop
          obtain ⟨rfl, rfl⟩ := Prod.mk.inj heq
          obtain ⟨h₁, heq₁, hv₁, hg₁, hl₁⟩ := hv.share hl
          obtain ⟨h₂, q, heq₂, h₂', q', heq, hv₂, hs₂, hr₂⟩ := ih hv₁ (hr.grows hg₁) (by omega) hpopr
          obtain ⟨rfl, rfl⟩ := Prod.mk.inj (Option.some.inj heq)
          have hg₂ : Grows h₁ h₂ := hv₁.grows hv₂ (List.subset_cons_self _ _) hs₂
          obtain ⟨h₃, res, heq₃, hv₃, hs₃, hres⟩ :=
            balance_spec (v := c.data.value) (hv₂.perm (.swap _ _ _)) (hl₁.grows hg₂) hr₂
          refine ⟨h₃, res, ?_, h₃, res, rfl, hv₃, (hg₁.trans hg₂).2.trans hs₃, hres⟩
          simp only [heq₁, heq₂, heq₃, Option.bind_some]
          rfl
        · intro hnil
          cases hnil

theorem removeRoot_spec (hv : Valid h roots) (hl : Rep h p l) (hr : Rep h q r) :
    Makes h roots (removeRoot h p q) (merge l r) := by
  rw [removeRoot]
  split
  case isTrue hp =>
    rw [hp] at hl
    obtain rfl := hl.eq_nil
    obtain ⟨h', heq, hm⟩ := hv.makes hr
    simp only [heq, Option.bind_eq_bind, Option.bind_some]
    exact hm
  case isFalse hp =>
    obtain ⟨cl, ll, lr, hcl, rfl, -⟩ := hl.node_of_ne hp
    unfold merge
    dsimp only
    split
    case isTrue hq =>
      rw [hq] at hr
      obtain rfl := hr.eq_nil
      obtain ⟨h', heq, hm⟩ := hv.makes hl
      simp only [heq, Option.bind_eq_bind, Option.bind_some]
      exact hm
    case isFalse hq =>
      obtain ⟨cr, rl, rr, hcr, rfl, -⟩ := hr.node_of_ne hq
      have hsome := popMin_toList (.node rl cr.data.value rr cr.data.height)
      rw [if_neg (by simp [toList])] at hsome
      obtain ⟨⟨least, rest⟩, hpop, -⟩ := Option.map_eq_some_iff.mp hsome
      rw [hpop, Option.elim_some]
      obtain ⟨h₁, q', heq₁, h₁', q₁, heq, hv₁, hs₁, hrest⟩ := popMin_spec hv hr (Nat.lt_succ_self q) hpop
      obtain ⟨rfl, rfl⟩ := Prod.mk.inj (Option.some.inj heq)
      have hg₁ : Grows h h₁ := hv.grows hv₁ (List.subset_cons_self _ _) hs₁
      obtain ⟨h₂, heq₂, hv₂, hg₂, hl₂⟩ := hv₁.share (hl.grows hg₁)
      obtain ⟨h₃, res, heq₃, hv₃, hs₃, hres⟩ := balance_spec (v := least) hv₂ hl₂ (hrest.grows hg₂)
      refine ⟨h₃, res, ?_, hv₃, (hg₁.trans hg₂).2.trans hs₃, hres⟩
      simp only [heq₁, heq₂, heq₃, Option.bind_eq_bind, Option.bind_some]

theorem remove_spec (hv : Valid h roots) (ht : Rep h p t) (hn : p < n) :
    Makes h roots (Node.remove key k n h p) (t.remove key k) := by
  induction n generalizing h p t roots with
  | zero => exact absurd hn (Nat.not_lt_zero p)
  | succ n ih =>
    cases ht with
    | nil =>
      obtain ⟨h', heq, hm⟩ := hv.makes .nil
      rw [Node.remove, if_pos rfl]
      simp only [heq, Option.bind_eq_bind, Option.bind_some]
      exact hm
    | @node p c l r hp hc hl hr =>
      obtain ⟨hleft, hright⟩ := hv.kids_lt hc hp
      have hnode : node h p = some c.data := by rw [node, hc, Option.map_some]
      rw [HeightTree.Tree.remove]
      simp only [Node.remove, if_neg hp, hnode, Option.bind_eq_bind, Option.bind_some]
      split
      case isTrue =>
        obtain ⟨h₁, p₁, h₂, heq₁, heq₂, hm⟩ := (ih hv hl (by omega)).balance_left hv hr c.data.value
        simp only [heq₁, heq₂, Option.bind_some]
        exact hm
      case isFalse =>
        split
        case isTrue =>
          obtain ⟨h₁, h₂, q, heq₁, heq₂, hm⟩ :=
            hv.balance_right hl (fun h' hv' hg => ih hv' (hr.grows hg) (by omega)) c.data.value
          simp only [heq₁, heq₂, Option.bind_some]
          exact hm
        case isFalse => exact removeRoot_spec hv hl hr

/-! ### Questions -/

theorem find_spec (hv : Valid h roots) (ht : Rep h p t) (hn : p < n) : find key k n h p = some (t.lookup key k) := by
  induction n generalizing p t with
  | zero => exact absurd hn (Nat.not_lt_zero p)
  | succ n ih =>
    cases ht with
    | nil =>
      rw [find, if_pos rfl]
      rfl
    | @node p c l r hp hc hl hr =>
      obtain ⟨hleft, hright⟩ := hv.kids_lt hc hp
      have hnode : node h p = some c.data := by rw [node, hc, Option.map_some]
      rw [HeightTree.Tree.lookup]
      simp only [find, if_neg hp, hnode, Option.bind_eq_bind, Option.bind_some]
      rw [ih hl (by omega), ih hr (by omega), apply_ite some, apply_ite some]
      rfl

theorem findPrevious_spec (hv : Valid h roots) (ht : Rep h p t) (hn : p < n) (result : Option V) :
    findPrevious key k n h p result = some (t.lookupPrevious key k result) := by
  induction n generalizing p t result with
  | zero => exact absurd hn (Nat.not_lt_zero p)
  | succ n ih =>
    cases ht with
    | nil =>
      rw [findPrevious, if_pos rfl]
      rfl
    | @node p c l r hp hc hl hr =>
      obtain ⟨hleft, hright⟩ := hv.kids_lt hc hp
      have hnode : node h p = some c.data := by rw [node, hc, Option.map_some]
      rw [HeightTree.Tree.lookupPrevious]
      simp only [findPrevious, if_neg hp, hnode, Option.bind_eq_bind, Option.bind_some]
      rw [ih hl (by omega), ih hr (by omega), apply_ite some, apply_ite some]
      rfl

theorem leftmost_spec (hv : Valid h roots) (ht : Rep h p t) (hn : p < n) (hp : p ≠ terminator) : leftmost n h p = t.toList.head? := by
  induction n generalizing p t with
  | zero => exact absurd hn (Nat.not_lt_zero p)
  | succ n ih =>
    cases ht with
    | nil => exact absurd rfl hp
    | @node p c l r hp hc hl hr =>
      obtain ⟨hleft, hright⟩ := hv.kids_lt hc hp
      have hnode : node h p = some c.data := by rw [node, hc, Option.map_some]
      simp only [leftmost, hnode, Option.bind_eq_bind, Option.bind_some]
      split
      case isTrue heq =>
        rw [heq] at hl
        rw [hl.eq_nil]
        rfl
      case isFalse hne =>
        rw [ih hl (by omega) hne, toList, List.head?_append]
        obtain ⟨cl, ll, lr, hcl, rfl, -⟩ := hl.node_of_ne hne
        simp [toList]

theorem rightmost_spec (hv : Valid h roots) (ht : Rep h p t) (hn : p < n) (hp : p ≠ terminator) : rightmost n h p = t.toList.getLast? := by
  induction n generalizing p t with
  | zero => exact absurd hn (Nat.not_lt_zero p)
  | succ n ih =>
    cases ht with
    | nil => exact absurd rfl hp
    | @node p c l r hp hc hl hr =>
      obtain ⟨hleft, hright⟩ := hv.kids_lt hc hp
      have hnode : node h p = some c.data := by rw [node, hc, Option.map_some]
      simp only [rightmost, hnode, Option.bind_eq_bind, Option.bind_some]
      split
      case isTrue heq =>
        rw [heq] at hr
        rw [hr.eq_nil]
        simp [toList]
      case isFalse hne =>
        rw [ih hr (by omega) hne, toList, List.getLast?_append, List.getLast?_cons]
        obtain ⟨cr, rl, rr, hcr, rfl, -⟩ := hr.node_of_ne hne
        simp [toList, List.getLast?_cons]

theorem size_spec (hv : Valid h roots) (ht : Rep h p t) (hn : p < n) : Node.size n h p = some t.toList.length := by
  induction n generalizing p t with
  | zero => exact absurd hn (Nat.not_lt_zero p)
  | succ n ih =>
    cases ht with
    | nil =>
      rw [Node.size, if_pos rfl]
      rfl
    | @node p c l r hp hc hl hr =>
      obtain ⟨hleft, hright⟩ := hv.kids_lt hc hp
      have hnode : node h p = some c.data := by rw [node, hc, Option.map_some]
      simp only [Node.size, if_neg hp, hnode, ih hl (show c.data.left < n by omega), ih hr (show c.data.right < n by omega),
        Option.bind_eq_bind, Option.bind_some]
      rw [toList, List.length_append, List.length_cons]
      exact congrArg some (by omega)

/-! ### Maps -/

variable (key) in
/-- The finite maps that the trees stand for, with the values that have come out. -/
structure Maps where
  trees : List (SortedList key)
  out : List V

/-- A new map, and what has come out with it. -/
def Maps.add (ms : Maps key) (m : SortedList key) (out : List V) : Maps key := ⟨ms.trees ++ [m], ms.out ++ out⟩

/-- The operations on finite maps. The value of the terminator comes out of the empty map. -/
def Maps.exec (ms : Maps key) (i : Nat) (command : Command K V) : Maps key :=
  match ms.trees[i]? with
  | none => ms
  | some m =>
    match command with
    | .insert value => ms.add (m.insert value) []
    | .replace value => ms.add (m.replace value) []
    | .remove k => ms.add (m.remove k) []
    | .popMin => ms.add m.popMin [m.min.getD default]
    | .popMax => ms.add m.popMax [m.max.getD default]
    | .copy => ms.add m []
    | .destroy => { ms with trees := ms.trees.eraseIdx i }

variable (key) in
def Maps.run (commands : List (Nat × Command K V)) : Maps key :=
  commands.foldl (fun ms command => ms.exec command.1 command.2) ⟨[.empty], []⟩

/-- A balanced tree with the entries of the map. -/
def Stands (h : NodeHeap V) (p : Nat) (m : SortedList key) : Prop := ∃ t, Rep h p t ∧ t.Balanced ∧ t.toList = m.entries

omit [Inhabited V] in
theorem Stands.grows {m : SortedList key} (hs : Stands h p m) (hg : Grows h h') : Stands h' p m := by
  obtain ⟨t, ht, hrest⟩ := hs
  exact ⟨t, ht.grows hg, hrest⟩

/-- The trees own the nodes and stand for the maps. -/
structure Inv (s : State V) (ms : Maps key) : Prop where
  valid : Valid s.heap s.trees
  stands : List.Forall₂ (Stands s.heap) s.trees ms.trees
  out : s.out = ms.out

variable {s : State V} {ms : Maps key} {m : SortedList key}

/-- A new tree. -/
theorem Inv.push (hinv : Inv s ms) (hm : Makes s.heap s.trees (some (h', p)) t) (ht : t.Balanced) (heq : t.toList = m.entries)
    (out : List V) : Inv ⟨h', s.trees ++ [p], s.out ++ out⟩ (ms.add m out) ∧ Same s.heap h' := by
  obtain ⟨h₁, p₁, hsome, hv, hs, hrep⟩ := hm
  obtain ⟨rfl, rfl⟩ := Prod.mk.inj (Option.some.inj hsome)
  have hg : Grows s.heap h' := hinv.valid.grows hv (List.subset_cons_self _ _) hs
  refine ⟨⟨hv.perm (List.perm_append_singleton p s.trees).symm, ?_, congrArg (· ++ out) hinv.out⟩, hs⟩
  exact List.rel_append (hinv.stands.imp fun _ _ hst => hst.grows hg) (.cons ⟨t, hrep, ht, heq⟩ .nil)

theorem Inv.add {result : Option (NodeHeap V × Nat)} (hinv : Inv s ms) (hm : Makes s.heap s.trees result t) (ht : t.Balanced)
    (heq : t.toList = m.entries) : ∃ s', s.add result = some s' ∧ Inv s' (ms.add m []) ∧ Same s.heap s'.heap := by
  obtain ⟨h', p, rfl, hrest⟩ := hm
  obtain ⟨hinv', hs⟩ := hinv.push ⟨h', p, rfl, hrest⟩ ht heq []
  rw [List.append_nil] at hinv'
  exact ⟨_, rfl, hinv', hs⟩

theorem Inv.addOut {result : Option (NodeHeap V × Nat × V)} (hinv : Inv s ms) (hm : MakesOut s.heap s.trees result x t)
    (ht : t.Balanced) (heq : t.toList = m.entries) :
    ∃ s', s.addOut result = some s' ∧ Inv s' (ms.add m [x]) ∧ Same s.heap s'.heap := by
  obtain ⟨h', p, rfl, hm⟩ := hm
  exact ⟨_, rfl, hinv.push hm ht heq [x]⟩

/-- The terminator's value comes out of the empty tree. -/
theorem terminator_makes (hv : Valid h roots) : MakesOut h roots (Node.popMin 1 h terminator) default .nil ∧
    MakesOut h roots (Node.popMax 1 h terminator) default .nil := by
  obtain ⟨c, hc, hdata⟩ := hv.terminator
  obtain ⟨h', heq, hm⟩ := hv.makes .nil
  have hnode : node h terminator = some ⟨terminator, terminator, default, 0⟩ := by rw [node, hc, Option.map_some, hdata]
  refine ⟨⟨h', terminator, ?_, hm⟩, ⟨h', terminator, ?_, hm⟩⟩
  · simp only [Node.popMin, hnode, if_pos, heq, Option.bind_eq_bind, Option.bind_some]
    rfl
  · simp only [Node.popMax, hnode, if_pos, heq, Option.bind_eq_bind, Option.bind_some]
    rfl

theorem popMin_makes (hv : Valid h roots) (ht : Rep h p t) (hb : t.Balanced) :
    ∃ t', MakesOut h roots (Node.popMin (p + 1) h p) (t.toList.head?.getD default) t' ∧ t'.Balanced ∧
      t'.toList = t.toList.tail := by
  have hsome := popMin_toList t
  split at hsome
  case isTrue hnil =>
    cases ht with
    | nil => exact ⟨.nil, (terminator_makes hv).1, trivial, rfl⟩
    | node => simp [toList] at hnil
  case isFalse =>
    obtain ⟨⟨least, rest⟩, hpop, heq⟩ := Option.map_eq_some_iff.mp hsome
    rw [← heq]
    exact ⟨rest, popMin_spec hv ht (Nat.lt_succ_self p) hpop, (hb.popMin hpop).balanced, rfl⟩

theorem popMax_makes (hv : Valid h roots) (ht : Rep h p t) (hb : t.Balanced) :
    ∃ t', MakesOut h roots (Node.popMax (p + 1) h p) (t.toList.getLast?.getD default) t' ∧ t'.Balanced ∧
      t'.toList = t.toList.dropLast := by
  have hsome := popMax_toList t
  split at hsome
  case isTrue hnil =>
    cases ht with
    | nil => exact ⟨.nil, (terminator_makes hv).2, trivial, rfl⟩
    | node => simp [toList] at hnil
  case isFalse =>
    obtain ⟨⟨greatest, rest⟩, hpop, heq⟩ := Option.map_eq_some_iff.mp hsome
    rw [← heq, List.getLast?_append, List.getLast?_singleton, Option.some_or, Option.getD_some, List.dropLast_concat]
    exact ⟨rest, popMax_spec hv ht (Nat.lt_succ_self p) hpop, (hb.popMax hpop).balanced, rfl⟩

theorem Inv.destroy {i : Nat} (hinv : Inv s ms) (hp : s.trees[i]? = some p) :
    ∃ h', decref s.heap p = some h' ∧
      Inv { s with heap := h', trees := s.trees.eraseIdx i } { ms with trees := ms.trees.eraseIdx i } ∧ Same s.heap h' := by
  obtain ⟨hi, rfl⟩ := List.getElem?_eq_some_iff.mp hp
  have hperm := (List.getElem_cons_eraseIdx_perm hi).symm
  have hv := hinv.valid.perm hperm
  obtain ⟨h', heq, hv', hs⟩ := hv.decref
  refine ⟨h', heq, ⟨hv', ?_, hinv.out⟩, hs⟩
  have hstands : List.Forall₂ (Stands s.heap) (s.trees.eraseIdx i) (ms.trees.eraseIdx i) := by
    rw [List.eraseIdx_eq_take_drop_succ, List.eraseIdx_eq_take_drop_succ]
    exact List.rel_append (List.forall₂_take i hinv.stands) (List.forall₂_drop (i + 1) hinv.stands)
  refine List.forall₂_iff_get.mpr ⟨hstands.length_eq, fun j hj hj' => ?_⟩
  obtain ⟨t, ht, hrest⟩ := (List.forall₂_iff_get.mp hstands).2 j hj hj'
  exact ⟨t, ht.same hinv.valid hv' hs (hv'.owned.roots _ (List.mem_cons_of_mem _ (List.get_mem _ _))), hrest⟩

theorem Inv.exec (hinv : Inv s ms) (i : Nat) (command : Command K V) :
    ∃ s', ImmutableTree.exec key s i command = some s' ∧ Inv s' (ms.exec i command) ∧ Same s.heap s'.heap := by
  rw [ImmutableTree.exec, Maps.exec]
  cases hp : s.trees[i]? with
  | none =>
    have hnone : ms.trees[i]? = none := by
      rw [List.getElem?_eq_none_iff] at hp ⊢
      exact hinv.stands.length_eq ▸ hp
    rw [hnone]
    exact ⟨s, rfl, hinv, .refl _⟩
  | some p =>
    obtain ⟨hi, rfl⟩ := List.getElem?_eq_some_iff.mp hp
    have hi' : i < ms.trees.length := hinv.stands.length_eq ▸ hi
    rw [List.getElem?_eq_getElem hi']
    have hstands : Stands s.heap s.trees[i] ms.trees[i] := (List.forall₂_iff_get.mp hinv.stands).2 i hi hi'
    obtain ⟨t, ht, hb, heq⟩ := hstands
    have hsorted : t.Sorted key := by
      rw [Sorted, heq]
      exact ms.trees[i].sorted
    have hlt := Nat.lt_succ_self s.trees[i]
    cases command with
    | insert x =>
      refine hinv.add (insert_spec hinv.valid ht hlt) hb.insert.balanced ?_
      rw [toList_insert hsorted, lookup_eq hsorted, heq, SortedList.insert,
        apply_ite (SortedList.entries : SortedList key → List V)]
      rfl
    | replace x => exact hinv.add (replace_spec hinv.valid ht hlt) hb.replace.balanced (by rw [toList_replace hsorted, heq]; rfl)
    | remove k => exact hinv.add (remove_spec hinv.valid ht hlt) hb.remove.balanced (by rw [toList_remove hsorted, heq]; rfl)
    | popMin =>
      obtain ⟨t', hm, hb', htail⟩ := popMin_makes hinv.valid ht hb
      rw [heq] at hm htail
      exact hinv.addOut hm hb' htail
    | popMax =>
      obtain ⟨t', hm, hb', hinit⟩ := popMax_makes hinv.valid ht hb
      rw [heq] at hm hinit
      exact hinv.addOut hm hb' hinit
    | copy =>
      obtain ⟨h', hincref, hm⟩ := hinv.valid.makes ht
      refine hinv.add ?_ hb heq
      change Makes _ _ ((s.heap.incref s.trees[i]).map _) _
      rw [hincref]
      exact hm
    | destroy =>
      obtain ⟨h', hdecref, hinv', hs⟩ := hinv.destroy hp
      refine ⟨_, ?_, hinv', hs⟩
      change (decref s.heap s.trees[i]).map _ = _
      rw [hdecref]
      rfl

theorem initial_valid : Valid (initial : NodeHeap V) [] := by
  have hcell : ∀ p c, (initial : NodeHeap V).cell p = some c → p = terminator ∧ c = ⟨⟨terminator, terminator, default, 0⟩, 3⟩ := by
    intro p c hc
    by_cases hp : p = terminator
    · rw [initial, hp] at hc
      exact ⟨hp, (Option.some.inj hc).symm⟩
    · simp only [initial, if_neg hp] at hc
      cases hc
  have hsome : ((initial : NodeHeap V).cell terminator).isSome = true := rfl
  refine ⟨⟨List.mem_cons_self, fun p c hc => ?_, fun p c hc => ?_, fun p hp => ?_, fun q c hc k hk => ?_, fun q c hc k hk => ?_,
    fun p hp => ?_⟩, ⟨_, rfl, rfl⟩⟩
  · obtain ⟨rfl, rfl⟩ := hcell p c hc
    rfl
  · obtain ⟨rfl, rfl⟩ := hcell p c hc
    exact Nat.succ_pos 2
  · exact List.mem_singleton.mp hp ▸ hsome
  · obtain ⟨rfl, rfl⟩ := hcell q c hc
    simp only [Node.kids, List.mem_cons, List.not_mem_nil, or_false, or_self] at hk
    exact hk ▸ hsome
  · exact .inr (hcell q c hc).1
  · obtain ⟨c, hc⟩ := Option.isSome_iff_exists.mp hp
    exact (hcell p c hc).1 ▸ Nat.one_pos

variable (key) in
theorem Inv.start : ∃ s, (ImmutableTree.start : Option (State V)) = some s ∧ Inv s (⟨[.empty], []⟩ : Maps key) := by
  obtain ⟨h', heq, hv, -⟩ := (initial_valid (V := V)).incref (show (initial.cell terminator).isSome = true from rfl)
  refine ⟨⟨h', [terminator], []⟩, ?_, hv, .cons ⟨.nil, .nil, trivial, rfl⟩ .nil, rfl⟩
  rw [ImmutableTree.start, heq]
  rfl

theorem Inv.foldlM (hinv : Inv s ms) (commands : List (Nat × Command K V)) :
    ∃ s', commands.foldlM (fun s command => ImmutableTree.exec key s command.1 command.2) s = some s' ∧
      Inv s' (commands.foldl (fun ms command => ms.exec command.1 command.2) ms) ∧ Same s.heap s'.heap := by
  induction commands generalizing s ms with
  | nil => exact ⟨s, rfl, hinv, .refl _⟩
  | cons command commands ih =>
    obtain ⟨s₁, heq₁, hinv₁, hs₁⟩ := hinv.exec command.1 command.2
    obtain ⟨s₂, heq₂, hinv₂, hs₂⟩ := ih hinv₁
    exact ⟨s₂, by rw [List.foldlM_cons, heq₁]; exact heq₂, hinv₂, hs₁.trans hs₂⟩

variable (key) in
theorem Inv.run (commands : List (Nat × Command K V)) : ∃ s, ImmutableTree.run key commands = some s ∧ Inv s (Maps.run key commands) := by
  obtain ⟨s, heq, hinv⟩ := Inv.start key
  obtain ⟨s', heq', hinv', -⟩ := hinv.foldlM commands
  exact ⟨s', by rw [ImmutableTree.run, heq]; exact heq', hinv'⟩

/-- The tree at a root is a search tree with its true heights, is balanced, and answers like the finite map. -/
structure IsMap (h : NodeHeap V) (p : Nat) (m : SortedList key) : Prop where
  tree : ∃ t, Rep h p t ∧ t.toList = m.entries ∧
    (∀ l v r height, HeightTree.Tree.node l v r height ∈ t.subtrees →
      height = (HeightTree.Tree.node l v r height).depth ∧ l.height ≤ r.height + 2 ∧ r.height ≤ l.height + 2 ∧
        (∀ x ∈ l.toList, key x < key v) ∧ ∀ x ∈ r.toList, key v < key x)
  count : ∀ k, Root.count key h p k = some (if (m.lookup k).isSome then 1 else 0)
  lookup : ∀ k, Root.lookup key h p k = some (m.lookup k)
  lookup_previous : ∀ k, Root.lookup_previous key h p k = some (m.lookupPrevious k)
  min : Root.min h p = m.min
  max : Root.max h p = m.max
  size : Root.size h p = some m.entries.length

theorem Stands.isMap (hv : Valid h roots) (hs : Stands h p m) : IsMap h p m := by
  obtain ⟨t, ht, hb, heq⟩ := hs
  have hsorted : t.Sorted key := by
    rw [Sorted, heq]
    exact m.sorted
  have hlt := Nat.lt_succ_self p
  have hfind : ∀ k, find key k (p + 1) h p = some (m.lookup k) := fun k => by
    rw [find_spec hv ht hlt, lookup_eq hsorted, heq]
    rfl
  refine ⟨⟨t, ht, heq, fun l v r height hmem => ?_⟩, fun k => ?_, hfind, fun k => ?_, ?_, ?_, ?_⟩
  · have hsub := hb.subtrees hmem
    obtain ⟨-, -, hl, hr⟩ := (hsorted.subtrees hmem).split
    exact ⟨hsub.depth.symm, hsub.2.1, hsub.2.2.1, hl, hr⟩
  · rw [Root.count, hfind]
    rfl
  · rw [Root.lookup_previous, findPrevious_spec hv ht hlt, lookupPrevious_eq hsorted, Option.or_none, heq, SortedList.lookupPrevious,
      SortedList.upTo, SortedList.takeWhile_eq_filter m.sorted (SortedList.le_of_lt_of_le k)]
  · rw [Root.min, SortedList.min, ← heq]
    split
    case isTrue hp =>
      subst hp
      rw [ht.eq_nil]
      rfl
    case isFalse hp => exact leftmost_spec hv ht hlt hp
  · rw [Root.max, SortedList.max, ← heq]
    split
    case isTrue hp =>
      subst hp
      rw [ht.eq_nil]
      rfl
    case isFalse hp => exact rightmost_spec hv ht hlt hp
  · rw [Root.size, size_spec hv ht hlt, heq]

variable (key) in
/-- After every sequence of operations the trees are the finite maps. What comes later does not change them. -/
theorem Root.run_isMap (commands more : List (Nat × Command K V)) :
    ∃ s s', run key commands = some s ∧ run key (commands ++ more) = some s' ∧
      List.Forall₂ (IsMap s.heap) s.trees (Maps.run key commands).trees ∧ s.out = (Maps.run key commands).out ∧
      ∀ p ∈ s'.trees, ∀ t, Rep s.heap p t → Rep s'.heap p t := by
  obtain ⟨s₀, hstart, hinv₀⟩ := Inv.start key
  obtain ⟨s, heq, hinv, -⟩ := hinv₀.foldlM commands
  obtain ⟨s', heq', hinv', hs⟩ := hinv.foldlM more
  refine ⟨s, s', ?_, ?_, hinv.stands.imp fun _ _ hst => hst.isMap hinv.valid, hinv.out, fun p hp t ht => ?_⟩
  · rw [run, hstart]
    exact heq
  · rw [run, hstart, Option.bind_eq_bind, Option.bind_some, List.foldlM_append, heq]
    exact heq'
  · exact ht.same hinv.valid hinv'.valid hs (hinv'.valid.owned.roots p (List.mem_cons_of_mem _ hp))

end

end

end CapTaint.Klee.ImmutableTree
