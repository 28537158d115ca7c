import CapTaint.Klee.DiscretePDF

/-! # Rotations of a DiscretePDF

A rotation leaves a wrong sum at the node that goes up. The wrong sums are always above the place of the change, and the
propagation from there puts them right. -/

namespace CapTaint.Klee.DiscretePDF

open LinkedTree LinkedTree.Tree

variable {T : Type} {s s' s'' : DiscretePDF T} {f : Frame (T × ℚ)} {fs : List (Frame (T × ℚ))} {t a b : LinkedTree.Tree (T × ℚ)}
  {i n m : Nat} {x y : T × ℚ} {c : Node T} {Q : List Nat} {side : Side}

/-! ### Nodes -/

def view : View (Node T) (T × ℚ) := ⟨Node.toLinks, fun c => (c.key, c.weight)⟩

def isRed (s : DiscretePDF T) (n : Nat) : Bool := (s.nodes n).elim false Node.mark

def sum (s : DiscretePDF T) : Option Nat → ℚ
  | none => 0
  | some n => (s.nodes n).elim 0 Node.sumWeights

/-- The nodes there are have been changed by `g`. -/
structure Changed (s s' : DiscretePDF T) (g : Nat → Node T → Node T) : Prop where
  nodes : ∀ i, s'.nodes i = (s.nodes i).map (g i)
  next : s'.next = s.next

theorem Changed.trans {g g' : Nat → Node T → Node T} (h : Changed s s' g) (h' : Changed s' s'' g') :
    Changed s s'' fun i c => g' i (g i c) := by
  refine ⟨fun i => ?_, h'.next.trans h.next⟩
  rw [h'.nodes, h.nodes, Option.map_map]
  rfl

theorem modify_spec (hc : s.nodes n = some c) (g : Node T → Node T) :
    ∃ s', s.modify n g = some s' ∧ Changed s s' (fun i c => if i = n then g c else c) ∧ s'.m_root = s.m_root := by
  refine ⟨{ s with nodes := Function.update s.nodes n (some (g c)) }, by rw [modify, hc, Option.map_some], ⟨fun i => ?_, rfl⟩, rfl⟩
  change Function.update s.nodes n (some (g c)) i = _
  rw [Function.update_apply]
  split
  case isTrue heq => rw [heq, hc, Option.map_some]
  case isFalse => simp

theorem sumBelow_eq {p : Option Nat} (hp : ∀ i, p = some i → (s.nodes i).isSome = true) : s.sumBelow p = some (s.sum p) := by
  cases p with
  | none => rfl
  | some i =>
    obtain ⟨c, hc⟩ := Option.isSome_iff_exists.mp (hp i rfl)
    rw [sumBelow, sum, hc]
    rfl

theorem Changed.live {g : Nat → Node T → Node T} (h : Changed s s' g) : (s'.nodes i).isSome = (s.nodes i).isSome := by
  rw [h.nodes, Option.isSome_map]

theorem Changed.get {g : Nat → Node T → Node T} (h : Changed s s' g) (hc : s.nodes i = some c) : s'.nodes i = some (g i c) := by
  rw [h.nodes, hc, Option.map_some]

theorem at_live {l : Links} (h : view.At s.nodes i l x) : (s.nodes i).isSome = true := by
  obtain ⟨c, hc, -⟩ := h
  exact Option.isSome_of_eq_some hc

theorem shape_live {above : Option Nat} (h : view.Shape s.nodes above t) (hi : i ∈ t.ids) : (s.nodes i).isSome = true := by
  induction t generalizing above with
  | nil => cases hi
  | node left n x right ihl ihr =>
    obtain ⟨hat, hl, hr⟩ := h
    rcases mem_ids_node.mp hi with hi | rfl | hi
    · exact ihl hl hi
    · exact at_live hat
    · exact ihr hr hi

theorem holds_live (h : view.Holds s.nodes s.m_root fs t) (hi : i ∈ (plug fs t).ids) : (s.nodes i).isSome = true :=
  shape_live (holds_plug.mp h).shape hi

theorem Changed.read_at {g : Nat → Node T → Node T} {l l' : Links} (h : Changed s s' g) (hat : view.At s.nodes i l x)
    (hlinks : ∀ c, c.toLinks = l → (g i c).toLinks = l') (hvalue : ∀ c, view.value (g i c) = view.value c) :
    view.At s'.nodes i l' x := by
  obtain ⟨c, hc, hl, hx⟩ := hat
  exact ⟨g i c, h.get hc, hlinks c hl, (hvalue c).trans hx⟩

theorem Changed.sum_eq {g : Nat → Node T → Node T} (h : Changed s s' g) (hg : ∀ c, (g i c).sumWeights = c.sumWeights) :
    s'.sum (some i) = s.sum (some i) := by
  rw [sum, sum, h.nodes]
  cases s.nodes i with
  | none => rfl
  | some c => exact hg c

theorem Changed.isRed_eq {g : Nat → Node T → Node T} (h : Changed s s' g) (hg : ∀ c, (g i c).mark = c.mark) : s'.isRed i = s.isRed i := by
  rw [isRed, isRed, h.nodes]
  cases s.nodes i with
  | none => rfl
  | some c => exact hg c

/-- Only the sum of the node `n` has changed. -/
structure SumSet (s s' : DiscretePDF T) (n : Nat) (value : ℚ) : Prop where
  next : s'.next = s.next
  root : s'.m_root = s.m_root
  isRed : ∀ i, s'.isRed i = s.isRed i
  read : ∀ i l y, view.At s.nodes i l y → view.At s'.nodes i l y
  sum_self : s'.sum (some n) = value
  sum_other : ∀ p, p ≠ some n → s'.sum p = s.sum p
  outside : ∀ i, i ≠ n → s'.nodes i = s.nodes i

theorem SumSet.live {value : ℚ} (h : SumSet s s' n value) (hi : (s.nodes i).isSome = true) : (s'.nodes i).isSome = true := by
  obtain ⟨c, hc⟩ := Option.isSome_iff_exists.mp hi
  exact at_live (h.read i _ _ ⟨c, hc, rfl, rfl⟩)

theorem setSum_spec {above p q : Option Nat} (hat : view.At s.nodes n (side.links above p q) x)
    (hp : ∀ i, p = some i → (s.nodes i).isSome = true) (hq : ∀ i, q = some i → (s.nodes i).isSome = true) :
    ∃ s', s.setSum n = some s' ∧ SumSet s s' n (x.2 + s.sum p + s.sum q) := by
  obtain ⟨c, hc, hlinks, hvalue⟩ := hat
  obtain ⟨s', heq, h, hroot⟩ := modify_spec hc fun c => { c with sumWeights := c.weight + s.sum p + s.sum q }
  have hweight : c.weight = x.2 := congrArg Prod.snd hvalue
  refine ⟨s', ?_, h.next, hroot, fun i => h.isRed_eq fun c => ?_, fun i l y hat => h.read_at hat (fun c hc => ?_) fun c => ?_, ?_,
    fun p hp => ?_, fun i hi => ?_⟩
  · rw [← heq]
    replace hlinks : c.toLinks = side.links above p q := hlinks
    cases side with
    | left =>
      have hleft : c.left = p := congrArg Links.left hlinks
      have hright : c.right = q := congrArg Links.right hlinks
      simp only [setSum, hc, hleft, hright, sumBelow_eq hp, sumBelow_eq hq, Option.bind_eq_bind, Option.bind_some]
    | right =>
      have hleft : c.left = q := congrArg Links.left hlinks
      have hright : c.right = p := congrArg Links.right hlinks
      simp only [setSum, hc, hleft, hright, sumBelow_eq hp, sumBelow_eq hq, Option.bind_eq_bind, Option.bind_some,
        add_right_comm]
  · split_ifs <;> rfl
  · rw [← hc]
    split_ifs <;> rfl
  · split_ifs <;> rfl
  · rw [sum, h.get hc, Option.elim_some, if_pos rfl, hweight]
  · cases p with
    | none => rfl
    | some i => exact h.sum_eq fun c => by rw [if_neg fun heq => hp (congrArg some heq)]
  · rw [h.nodes]
    simp only [if_neg hi, Option.map_id_fun', id_eq]

/-! ### Rotations -/

/-- The links around the child `n` of `p`. -/
theorem hang_spec {p : Nat} {b : Option Nat} {cn cp : Node T} (hn : s.nodes n = some cn) (hp : s.nodes p = some cp)
    (hb : cn.child side.other = b) (hlive : ∀ i, b = some i → (s.nodes i).isSome = true) :
    ∃ s', s.hang side n p = some s' ∧ s'.m_root = s.m_root ∧ Changed s s' fun i c =>
      let c := if i = p then { c with toLinks := c.toLinks.setChild side b } else c
      let c := if i = n then { c with toLinks := c.toLinks.setChild side.other (some p) } else c
      if b = some i then { c with parent := some p } else c := by
  obtain ⟨s₁, heq₁, h₁, hroot₁⟩ := modify_spec hp fun c => { c with toLinks := c.toLinks.setChild side b }
  obtain ⟨s₂, heq₂, h₂, hroot₂⟩ := modify_spec (h₁.get hn) fun c => { c with toLinks := c.toLinks.setChild side.other (some p) }
  have h₂ := h₁.trans h₂
  cases b with
  | none =>
    refine ⟨s₂, ?_, hroot₂.trans hroot₁, ?_⟩
    · simp only [hang, hn, hb, setLinks, heq₁, heq₂, Option.bind_eq_bind, Option.bind_some]
      rfl
    · simpa using h₂
  | some k =>
    obtain ⟨ck, hck⟩ := Option.isSome_iff_exists.mp (hlive k rfl)
    obtain ⟨s₃, heq₃, h₃, hroot₃⟩ := modify_spec (h₂.get hck) fun c => { c with parent := some p }
    refine ⟨s₃, ?_, hroot₃.trans (hroot₂.trans hroot₁), ?_⟩
    · simp only [hang, hn, hb, setLinks, heq₁, heq₂, heq₃, Option.bind_eq_bind, Option.bind_some]
    · simpa [eq_comm] using h₂.trans h₃

theorem replaceChild_spec {p q : Nat} {r : Option Nat} {cq : Node T} (side : Side) (hq : s.nodes q = some cq)
    (hleft : cq.left = some p ↔ side = .left) :
    ∃ s', s.replaceChild q p r = some s' ∧ s'.m_root = s.m_root ∧
      Changed s s' fun i c => if i = q then { c with toLinks := c.toLinks.setChild side r } else c := by
  obtain ⟨s', heq, h, hroot⟩ := modify_spec hq fun c => { c with toLinks := c.toLinks.setChild side r }
  refine ⟨s', ?_, hroot, h⟩
  simp only [replaceChild, hq, setLinks, Option.bind_eq_bind, Option.bind_some]
  cases side with
  | left => rw [if_pos (hleft.mpr rfl), heq]
  | right => rw [if_neg fun hl => Side.noConfusion (hleft.mp hl), heq]

/-- The node `n` is over its parent `f.id`, but the node above does not know. The sum of `f.id` is right if those of its new
children are. -/
structure Turned (s s' : DiscretePDF T) (f : Frame (T × ℚ)) (fs : List (Frame (T × ℚ))) (n : Nat) (x : T × ℚ) (p b : Option Nat) :
    Prop where
  next : s'.next = s.next
  root : s'.m_root = s.m_root
  isRed : ∀ i, s'.isRed i = s.isRed i
  sum : ∀ i, i ≠ n → i ≠ f.id → s'.sum (some i) = s.sum (some i)
  sum_down : s'.sum (some f.id) = f.value.2 + s.sum b + s.sum f.other.ptr
  up : view.At s'.nodes n (f.side.links (parent fs) p (some f.id)) x
  down : view.At s'.nodes f.id (f.side.links (some n) b f.other.ptr) f.value
  inner : ∀ i, b = some i → ∀ l y, view.At s.nodes i l y → view.At s'.nodes i { l with parent := some f.id } y
  outside : ∀ i, i ≠ n → i ≠ f.id → b ≠ some i → s'.nodes i = s.nodes i

/-- The node `n` has gone up over `p`. The sum of `p` is right if those of its new children are. -/
structure Rotated (s s' : DiscretePDF T) (n p : Nat) (value : ℚ) : Prop where
  next : s'.next = s.next
  isRed : ∀ i, s'.isRed i = s.isRed i
  sum : ∀ i, i ≠ n → i ≠ p → s'.sum (some i) = s.sum (some i)
  sum_down : s'.sum (some p) = value

theorem turn_spec (h : view.Holds s.nodes s.m_root (f :: fs) (join f.side a n x b)) :
    ∃ s', s.turn n f.id = some s' ∧ Turned s s' f fs n x a.ptr b.ptr := by
  have hdistinct := nodup_around h.nodup
  have hb : ∀ i, b.ptr = some i → i ∈ b.ids := fun i hi => ptr_mem hi
  have hother : ∀ i, f.other.ptr = some i → i ∈ f.other.ids := fun i hi => ptr_mem hi
  have hne : n ≠ f.id := by grind
  have hbn : b.ptr ≠ some n := fun heq => by grind
  have hbp : b.ptr ≠ some f.id := fun heq => by grind
  have hotherp : ∀ i, f.other.ptr = some i → i ≠ n := by grind
  obtain ⟨cn, hcn, hnlinks, -⟩ := h.at
  obtain ⟨cp, hcp, hplinks, -⟩ := h.above.1
  have hlive : ∀ i ∈ (plug (f :: fs) (join f.side a n x b)).ids, (s.nodes i).isSome = true := fun i => holds_live h
  have ha : ∀ i, a.ptr = some i → (s.nodes i).isSome = true := fun i hi => hlive i (mem_around.mpr (by have := ptr_mem hi; grind))
  have hb' : ∀ i, b.ptr = some i → (s.nodes i).isSome = true := fun i hi => hlive i (mem_around.mpr (by grind))
  have ho : ∀ i, f.other.ptr = some i → (s.nodes i).isSome = true := fun i hi => hlive i (mem_around.mpr (by grind))
  rw [ptr_join] at hplinks
  have hcp' : cp.toLinks = f.side.links (parent fs) (some n) f.other.ptr := hplinks
  have hcn' : cn.toLinks = f.side.links (some f.id) a.ptr b.ptr := hnlinks
  have habove : cp.parent = parent fs := by rw [hcp', parent_links]
  obtain ⟨s₁, heq₁, h₁, hroot₁⟩ := modify_spec hcn fun c => { c with parent := cp.parent }
  obtain ⟨s₂, heq₂, h₂, hroot₂⟩ := modify_spec (h₁.get hcp) fun c => { c with parent := some n }
  have h₂ := h₁.trans h₂
  have hn₂ : s₂.nodes n = some { cn with parent := cp.parent } := by simpa [hne] using h₂.get hcn
  have hp₂ : s₂.nodes f.id = some { cp with parent := some n } := by simpa [hne.symm] using h₂.get hcp
  have hinner : ({ cn with parent := cp.parent } : Node T).child f.side.other = b.ptr := by
    rw [child_with_parent, hcn', child_other_links]
  obtain ⟨s₃, heq₃, hroot₃, h₃⟩ := hang_spec hn₂ hp₂ hinner fun i hi => by
    rw [h₂.live]
    exact hb' i hi
  have h₃ := h₂.trans h₃
  have hn₃ : view.At s₃.nodes n (f.side.links (parent fs) a.ptr (some f.id)) x := by
    refine h₃.read_at h.at (fun c hc => ?_) fun c => ?_
    · simp [hne, hbn, hc, habove, with_parent_links, setChild_other_links]
    · simp [hne, hbn, view]
  have hp₃ : view.At s₃.nodes f.id (f.side.links (some n) b.ptr f.other.ptr) f.value := by
    refine h₃.read_at h.above.1 (fun c hc => ?_) fun c => ?_
    · simp [hne.symm, hbp, hc, with_parent_links, setChild_links]
    · simp [hne.symm, hbp, view]
  have hsum₃ : ∀ p, s₃.sum p = s.sum p := fun p => by
    cases p with
    | none => rfl
    | some i => exact h₃.sum_eq fun c => by split_ifs <;> rfl
  obtain ⟨s₄, heq₄, h₄⟩ := setSum_spec hn₃ (fun i hi => by rw [h₃.live]; exact ha i hi) fun i hi => by
    rw [h₃.live]
    exact hlive i (mem_around.mpr (by grind))
  obtain ⟨s₅, heq₅, h₅⟩ := setSum_spec (h₄.read _ _ _ hp₃) (fun i hi => h₄.live (by rw [h₃.live]; exact hb' i hi))
    fun i hi => h₄.live (by rw [h₃.live]; exact ho i hi)
  refine ⟨s₅, ?_, h₅.next.trans (h₄.next.trans h₃.next), ?_, fun i => ?_, fun i hin hip => ?_, ?_, ?_,
    h₅.read _ _ _ (h₄.read _ _ _ hp₃),
    fun i hi l y hat => ?_, fun i hin hip hib => ?_⟩
  · have hturn : (if cp.left = some n then s₂.hang .left n f.id else s₂.hang .right n f.id) = some s₃ := by
      rw [show cp.left = cp.toLinks.child .left from rfl, hcp', ← heq₃]
      cases f.side with
      | left => exact if_pos rfl
      | right => exact if_neg fun heq => hotherp n heq rfl
    have heq₁ : s.setLinks n ({ · with parent := cp.parent }) = some s₁ := heq₁
    have heq₂ : s₁.setLinks f.id ({ · with parent := some n }) = some s₂ := heq₂
    simp only [turn, hcp, heq₁, heq₂, Option.bind_eq_bind, Option.bind_some]
    split_ifs at hturn ⊢
    · rw [hturn, Option.bind_some, heq₄, Option.bind_some, heq₅]
    · rw [hturn, Option.bind_some, heq₄, Option.bind_some, heq₅]
  · rw [h₅.root, h₄.root, hroot₃, hroot₂, hroot₁]
  · rw [h₅.isRed, h₄.isRed]
    exact h₃.isRed_eq fun c => by split_ifs <;> rfl
  · rw [h₅.sum_other _ fun heq => hip (Option.some.inj heq), h₄.sum_other _ fun heq => hin (Option.some.inj heq), hsum₃]
  · rw [h₅.sum_self, h₄.sum_other _ hbn, h₄.sum_other _ fun heq => hotherp n heq rfl, hsum₃, hsum₃]
  · exact h₅.read _ _ _ (h₄.read _ _ _ hn₃)
  · refine h₅.read _ _ _ (h₄.read _ _ _ (h₃.read_at hat (fun c hc => ?_) fun c => ?_))
    · have hin : i ≠ n := fun heq => hbn (heq ▸ hi)
      have hip : i ≠ f.id := fun heq => hbp (heq ▸ hi)
      simp [hin, hip, hi, hc]
    · simp only [view]
      split_ifs <;> rfl
  · rw [h₅.outside i hip, h₄.outside i hin, h₃.nodes]
    simp only [if_neg hin, if_neg hip, if_neg hib, Option.map_id_fun', id_eq]

/-- The end of `rotate`: the node above has the new child. -/
theorem relink_spec {p : Nat} {r : Option Nat} (h : view.Above s.nodes r fs (some p)) (hp : p ∉ idsAbove fs) :
    ∃ s' side, (parent fs).elim (some { s with m_root := some n }) (fun pp => s.replaceChild pp p (some n)) = some s' ∧
      s'.m_root = (if fs = [] then some n else s.m_root) ∧
        Changed s s' (fun i c => if parent fs = some i then { c with toLinks := c.toLinks.setChild side (some n) } else c) ∧
          ∀ g gs, fs = g :: gs → side = g.side := by
  cases fs with
  | nil => exact ⟨_, .left, rfl, rfl, ⟨fun i => by simp [parent], rfl⟩, fun g gs hfs => by cases hfs⟩
  | cons g gs =>
    obtain ⟨⟨c, hc, hlinks, -⟩, -⟩ := h
    have hother : g.other.ptr ≠ some p := fun heq => hp (List.mem_cons_of_mem _ (List.mem_append_left _ (ptr_mem heq)))
    have hleft : c.left = some p ↔ g.side = .left := by
      rw [show c.toLinks = g.side.links (parent gs) (some p) g.other.ptr from hlinks]
      cases g.side with
      | left => exact iff_of_true rfl rfl
      | right => exact iff_of_false hother (by decide)
    obtain ⟨s', heq, hroot, h'⟩ := replaceChild_spec g.side hc hleft
    exact ⟨s', g.side, heq, by rw [hroot, if_neg (List.cons_ne_nil _ _)], by simpa [eq_comm] using h', fun _ _ hfs => by cases hfs; rfl⟩

theorem rotate_spec (h : view.Holds s.nodes s.m_root (f :: fs) (join f.side a n x b)) :
    ∃ s', s.rotate n = some s' ∧ view.Holds s'.nodes s'.m_root fs (join f.side a n x (join f.side b f.id f.value f.other)) ∧
      Rotated s s' n f.id (f.value.2 + s.sum b.ptr + s.sum f.other.ptr) ∧
      ∀ i ∉ (plug (f :: fs) (join f.side a n x b)).ids, s'.nodes i = s.nodes i := by
  have hdistinct := nodup_around h.nodup
  have hb : ∀ i, b.ptr = some i → i ∈ b.ids := fun i hi => ptr_mem hi
  have hfs : ∀ i, parent fs = some i → i ∈ idsAbove fs := fun i hi => parent_mem hi
  obtain ⟨s₁, heq₁, h₁⟩ := turn_spec h
  obtain ⟨cn, hcn, hnlinks, -⟩ := h.at
  obtain ⟨cp, hcp, hplinks, -⟩ := h.above.1
  have hcnp : cn.parent = some f.id := by rw [show cn.toLinks = _ from hnlinks, parent_links, parent_cons]
  have hcpp : cp.parent = parent fs := by rw [show cp.toLinks = _ from hplinks, parent_links]
  have habove : view.Above s₁.nodes s.m_root fs (some f.id) := by
    refine h.above.2.2.congr fun i hi l y hat => ?_
    rw [View.At, h₁.outside i (by grind) (by grind) fun heq => by grind]
    exact hat
  obtain ⟨s₂, side, heq₂, hroot₂, h₂, hside⟩ := relink_spec (n := n) habove (by grind)
  have hpn : parent fs ≠ some n := fun heq => by grind
  have hpp : parent fs ≠ some f.id := fun heq => by grind
  have hread : ∀ i, parent fs ≠ some i → ∀ l y, view.At s₁.nodes i l y → view.At s₂.nodes i l y := fun i hi l y hat =>
    h₂.read_at hat (fun c hc => by rw [if_neg hi, hc]) fun c => by rw [if_neg hi]
  refine ⟨s₂, ?_, ?_, ⟨h₂.next.trans h₁.next, fun i => ?_, fun i hin hip => ?_, ?_⟩, fun i hi => ?_⟩
  · rw [← heq₂, ← hcpp]
    simp only [rotate, hcn, hcnp, hcp, heq₁, Option.bind_eq_bind, Option.bind_some]
    cases cp.parent <;> rfl
  · rw [hroot₂, h₁.root]
    refine h.rotate (hread _ hpn _ _ h₁.up) (hread _ hpp _ _ h₁.down) (fun i hi l y hat => ?_) ?_ fun i hin hip hib hifs l y hat => ?_
    · exact hread i (fun heq => by grind) _ _ (h₁.inner i hi l y hat)
    · rintro g gs rfl
      refine h₂.read_at habove.1 (fun c hc => ?_) fun c => ?_
      · rw [if_pos parent_cons, hside g gs rfl]
        change c.toLinks.setChild g.side (some n) = _
        rw [hc, setChild_links]
      · split_ifs <;> rfl
    · refine hread i hifs l y ?_
      rw [View.At, h₁.outside i hin hip hib]
      exact hat
  · rw [← h₁.isRed]
    exact h₂.isRed_eq fun c => by split_ifs <;> rfl
  · rw [← h₁.sum i hin hip]
    exact h₂.sum_eq fun c => by split_ifs <;> rfl
  · rw [← h₁.sum_down]
    exact h₂.sum_eq fun c => by split_ifs <;> rfl
  · have hids := mt mem_around.mpr hi
    have hifs : parent fs ≠ some i := fun heq => hids (by grind)
    rw [h₂.nodes]
    simp only [if_neg hifs, Option.map_id_fun', id_eq]
    exact h₁.outside i (fun heq => hids (by grind)) (fun heq => hids (by grind)) fun heq => hids (by grind)

/-! ### Sums -/

/-- The sums are right at the nodes that are not above one of `Q`. -/
def OffPath (s : DiscretePDF T) (Q : List Nat) : LinkedTree.Tree (T × ℚ) → Prop
  | nil => True
  | node left n x right => ((∀ j ∈ (node left n x right).ids, j ∉ Q) → s.sum (some n) = x.2 + s.sum left.ptr + s.sum right.ptr) ∧
      OffPath s Q left ∧ OffPath s Q right

theorem offPath_join : OffPath s Q (join side a n x b) ↔
    ((∀ j ∈ (join side a n x b).ids, j ∉ Q) → s.sum (some n) = x.2 + s.sum a.ptr + s.sum b.ptr) ∧ OffPath s Q a ∧ OffPath s Q b := by
  cases side with
  | left => exact Iff.rfl
  | right =>
    refine and_congr ?_ and_comm
    rw [add_right_comm]
    rfl

theorem sum_ptr (hsum : ∀ i ∈ t.ids, s'.sum (some i) = s.sum (some i)) : s'.sum t.ptr = s.sum t.ptr := by
  cases t with
  | nil => rfl
  | node => exact hsum _ (ptr_mem rfl)

theorem OffPath.congr (h : OffPath s Q t) (hsum : ∀ i ∈ t.ids, s'.sum (some i) = s.sum (some i)) : OffPath s' Q t := by
  induction t with
  | nil => trivial
  | node left n x right ihl ihr =>
    obtain ⟨hn, hl, hr⟩ := h
    have hleft : ∀ i ∈ left.ids, s'.sum (some i) = s.sum (some i) := fun i hi => hsum i (mem_ids_node.mpr (.inl hi))
    have hright : ∀ i ∈ right.ids, s'.sum (some i) = s.sum (some i) := fun i hi => hsum i (mem_ids_node.mpr (.inr (.inr hi)))
    refine ⟨fun hQ => ?_, ihl hl hleft, ihr hr hright⟩
    rw [hsum n (mem_ids_node.mpr (.inr (.inl rfl))), sum_ptr hleft, sum_ptr hright]
    exact hn hQ

theorem OffPath.weaken {Q' : List Nat} (h : OffPath s Q t) (hsub : ∀ j ∈ t.ids, j ∈ Q → j ∈ Q') : OffPath s Q' t := by
  induction t with
  | nil => trivial
  | node left n x right ihl ihr =>
    obtain ⟨hn, hl, hr⟩ := h
    exact ⟨fun hQ => hn fun j hj hjQ => hQ j hj (hsub j hj hjQ), ihl hl fun j hj => hsub j (mem_ids_node.mpr (.inl hj)),
      ihr hr fun j hj => hsub j (mem_ids_node.mpr (.inr (.inr hj)))⟩

/-- The nodes above one of `Q` do not count. -/
theorem offPath_plug (hQ : ∃ j ∈ t.ids, j ∈ Q) :
    OffPath s Q (plug fs t) ↔ OffPath s Q t ∧ ∀ f ∈ fs, OffPath s Q f.other := by
  induction fs generalizing t with
  | nil => simp [plug]
  | cons f fs ih =>
    obtain ⟨j, hj, hjQ⟩ := hQ
    have hfill : ∃ j ∈ (f.fill t).ids, j ∈ Q := ⟨j, mem_ids_join.mpr (.inl hj), hjQ⟩
    rw [plug_cons, ih hfill, Frame.fill, offPath_join, List.forall_mem_cons]
    constructor
    · rintro ⟨⟨-, ht, hother⟩, hfs⟩
      exact ⟨ht, hother, hfs⟩
    · rintro ⟨ht, hother, hfs⟩
      exact ⟨⟨fun hnone => absurd hjQ (hnone j (mem_ids_join.mpr (.inl hj))), ht, hother⟩, hfs⟩

/-! ### Invariants -/

variable {L : List (Nat × T × ℚ)}

/-- The tree on the heap, with its elements in order. -/
structure Inv (s : DiscretePDF T) (L : List (Nat × T × ℚ)) (Q : List Nat) (fs : List (Frame (T × ℚ)))
    (t : LinkedTree.Tree (T × ℚ)) : Prop where
  holds : view.Holds s.nodes s.m_root fs t
  sums : OffPath s Q (plug fs t)
  toList : (plug fs t).toList = L

/-- Only the nodes of the tree are changed. -/
structure Within (s s' : DiscretePDF T) (L : List (Nat × T × ℚ)) : Prop where
  next : s'.next = s.next
  outside : ∀ i ∉ L.map Prod.fst, s'.nodes i = s.nodes i

theorem Within.refl (s : DiscretePDF T) (L : List (Nat × T × ℚ)) : Within s s L := ⟨rfl, fun _ _ => rfl⟩

theorem Within.trans (h : Within s s' L) (h' : Within s' s'' L) : Within s s'' L :=
  ⟨h'.next.trans h.next, fun i hi => (h'.outside i hi).trans (h.outside i hi)⟩

theorem inv_cons : Inv s L Q (f :: fs) t ↔ Inv s L Q fs (f.fill t) :=
  ⟨fun h => ⟨holds_cons.mp h.holds, h.sums, h.toList⟩, fun h => ⟨holds_cons.mpr h.holds, h.sums, h.toList⟩⟩

theorem Inv.ids (h : Inv s L Q fs t) : (plug fs t).ids = L.map Prod.fst := congrArg (List.map Prod.fst) h.toList

theorem Inv.mem (h : Inv s L Q fs t) (hi : i ∈ t.ids) : i ∈ L.map Prod.fst := h.ids ▸ mem_plug hi

theorem Inv.live (h : Inv s L Q fs t) (hi : i ∈ L.map Prod.fst) : ∃ c, s.nodes i = some c :=
  Option.isSome_iff_exists.mp (holds_live h.holds (h.ids ▸ hi))

theorem Inv.weaken {Q' : List Nat} (h : Inv s L Q fs t) (hsub : ∀ j ∈ L.map Prod.fst, j ∈ Q → j ∈ Q') : Inv s L Q' fs t :=
  ⟨h.holds, h.sums.weaken fun j hj => hsub j (h.ids ▸ hj), h.toList⟩

theorem Inv.setMark (h : Inv s L Q fs t) (hi : i ∈ L.map Prod.fst) (red : Bool) :
    ∃ s', s.modify i (fun c => { c with mark := red }) = some s' ∧ Inv s' L Q fs t ∧ Within s s' L ∧
      s'.isRed = Function.update s.isRed i red := by
  obtain ⟨c, hc⟩ := h.live hi
  obtain ⟨s', heq, hchanged, hroot⟩ := modify_spec hc fun c => { c with mark := red }
  refine ⟨s', heq, ⟨?_, h.sums.congr fun j _ => hchanged.sum_eq fun c => ?_, h.toList⟩, ⟨hchanged.next, fun j hj => ?_⟩, ?_⟩
  · rw [hroot]
    refine h.holds.congr fun j _ l y hat => hchanged.read_at hat (fun c hc => ?_) fun c => ?_
    · rw [← hc]
      split_ifs <;> rfl
    · split_ifs <;> rfl
  · split_ifs <;> rfl
  · have hne : j ≠ i := fun heq => hj (heq ▸ hi)
    rw [hchanged.nodes]
    simp only [if_neg hne, Option.map_id_fun', id_eq]
  · funext j
    rw [isRed, hchanged.nodes, Function.update_apply]
    by_cases hj : j = i
    · subst hj
      rw [hc, Option.map_some, Option.elim_some, if_pos rfl, if_pos rfl]
    · simp only [if_neg hj, Option.map_id_fun', id_eq, isRed]

theorem Inv.rotate (h : Inv s L Q (f :: fs) (join f.side a n x b)) (hQ : ∃ j ∈ (f.fill (join f.side a n x b)).ids, j ∈ Q) :
    ∃ s', s.rotate n = some s' ∧ Inv s' L Q fs (join f.side a n x (join f.side b f.id f.value f.other)) ∧ Within s s' L ∧
      s'.isRed = s.isRed := by
  obtain ⟨s', heq, hholds, hturned, houtside⟩ := rotate_spec h.holds
  have hlist : (join f.side a n x (join f.side b f.id f.value f.other)).toList = (f.fill (join f.side a n x b)).toList := toList_rotate
  have hdistinct := nodup_around h.holds.nodup
  have hsums := h.sums
  rw [plug_cons, offPath_plug hQ] at hsums
  obtain ⟨hhere, habove⟩ := hsums
  obtain ⟨-, hn, hother⟩ := offPath_join.mp hhere
  obtain ⟨-, ha, hb⟩ := offPath_join.mp hn
  have hsame : ∀ i, i ∈ a.ids ∨ i ∈ b.ids ∨ i ∈ f.other.ids ∨ i ∈ idsAbove fs → s'.sum (some i) = s.sum (some i) := fun i hi =>
    hturned.sum i (by grind) (by grind)
  have hids : ∀ j, j ∈ (join f.side a n x (join f.side b f.id f.value f.other)).ids ↔ j ∈ (f.fill (join f.side a n x b)).ids :=
    fun j => by rw [LinkedTree.Tree.ids, hlist]; rfl
  refine ⟨s', heq, ⟨hholds, (offPath_plug ?_).mpr ⟨offPath_join.mpr ⟨fun hnone => ?_, ?_, offPath_join.mpr ⟨fun _ => ?_, ?_, ?_⟩⟩,
    ?_⟩, ?_⟩,
    ⟨hturned.next, fun i hi => houtside i (h.ids ▸ hi)⟩, funext hturned.isRed⟩
  · obtain ⟨j, hj, hjQ⟩ := hQ
    exact ⟨j, (hids j).mpr hj, hjQ⟩
  · obtain ⟨j, hj, hjQ⟩ := hQ
    exact absurd hjQ (hnone j ((hids j).mpr hj))
  · exact ha.congr fun i hi => hsame i (.inl hi)
  · rw [hturned.sum_down, sum_ptr fun i hi => hsame i (.inr (.inl hi)), sum_ptr fun i hi => hsame i (.inr (.inr (.inl hi)))]
  · exact hb.congr fun i hi => hsame i (.inr (.inl hi))
  · exact hother.congr fun i hi => hsame i (.inr (.inr (.inl hi)))
  · intro g hg
    refine (habove g hg).congr fun i hi => hsame i (.inr (.inr (.inr ?_)))
    exact mem_idsAbove hg hi
  · rw [← h.toList, toList_plug, hlist, ← toList_plug, plug_cons]

end CapTaint.Klee.DiscretePDF
