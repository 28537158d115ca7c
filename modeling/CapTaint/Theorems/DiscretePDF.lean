import CapTaint.Theorems.PdfItems
import Mathlib.Tactic.Linarith

/-! # DiscretePDF samples by weight

The tree is a finite map of the items to their weights, whatever is inserted, updated and removed. The loop of `choose`
stops at the item whose part of the total weight has the number in it. -/

namespace CapTaint.Klee.DiscretePDF

open LinkedTree LinkedTree.Tree

section
variable {T : Type} {s s' : DiscretePDF T} {f : Frame (T × ℚ)} {fs gs : List (Frame (T × ℚ))} {t a b l r : LinkedTree.Tree (T × ℚ)}
  {i n q : Nat} {x y : T × ℚ} {Q : List Nat} {side : Side} {L : List (Nat × T × ℚ)}

/-! ### Values -/

theorem OffPath.parts (h : OffPath s Q (plug fs t)) : OffPath s Q t ∧ ∀ f ∈ fs, OffPath s Q f.other := by
  induction fs generalizing t with
  | nil => exact ⟨h, fun f hf => absurd hf List.not_mem_nil⟩
  | cons f fs ih =>
    obtain ⟨hfill, hfs⟩ := ih h
    obtain ⟨-, ht, hother⟩ := offPath_join.mp hfill
    exact ⟨ht, List.forall_mem_cons.mpr ⟨hother, hfs⟩⟩

theorem Path.append (h : Path s L fs (plug gs t)) : Path s L (gs ++ fs) t := by
  obtain ⟨hhere, hgs⟩ := h.here.parts
  refine ⟨holds_plug.mpr (plug_append gs fs t ▸ holds_plug.mp h.holds), hhere, fun f hf => ?_, plug_append gs fs t ▸ h.toList⟩
  rcases List.mem_append.mp hf with hf | hf
  · exact hgs f hf
  · exact h.above f hf

theorem Inv.path (h : Inv s L [] fs t) : Path s L fs t :=
  ⟨h.holds, h.sums.parts.1, h.sums.parts.2, h.toList⟩

/-- The key or the weight of a node is changed. The sums above its children are not right any more. -/
theorem setValue_spec {g : Node T → Node T} (h : Inv s L [] fs (join side a n x b))
    (hkeep : ∀ c, (g c).toLinks = c.toLinks ∧ (g c).mark = c.mark ∧ (g c).sumWeights = c.sumWeights)
    (hvalue : ∀ c, view.value c = x → view.value (g c) = y) :
    ∃ s', s.modify n g = some s' ∧ Path s' (plug fs (join side a n y b)).toList (⟨side, n, y, b⟩ :: fs) a ∧
      Within s s' L ∧ s'.isRed = s.isRed ∧ s'.m_root = s.m_root ∧ (RedBlack s' ↔ RedBlack s) := by
  obtain ⟨c, hc, hlinks, hcx⟩ := h.holds.at
  obtain ⟨s', heq, hchanged, hroot⟩ := modify_spec hc g
  have hsum : ∀ i, s'.sum (some i) = s.sum (some i) := fun i => hchanged.sum_eq fun c => by
    split_ifs
    · exact (hkeep c).2.2
    · rfl
  have hpath := h.path
  obtain ⟨-, ha, hb⟩ := offPath_join.mp hpath.here
  have hred : s'.isRed = s.isRed := funext fun i => hchanged.isRed_eq fun c => by
    split_ifs
    · exact (hkeep c).2.1
    · rfl
  have hholds : view.Holds s'.nodes s'.m_root fs (join side a n y b) := by
    rw [hroot]
    refine h.holds.setValue ⟨g c, ?_, (hkeep c).1.trans hlinks, hvalue c hcx⟩ fun i hi l z hat => ?_
    · rw [hchanged.get hc, if_pos rfl]
    · exact hchanged.read_at hat (fun c hc => by rw [if_neg hi, hc]) fun c => by rw [if_neg hi]
  refine ⟨s', heq, ⟨holds_cons.mpr hholds, ha.congr fun i _ => hsum i, ?_, rfl⟩, ⟨hchanged.next, fun i hi => ?_⟩, hred, hroot, ?_⟩
  · exact List.forall_mem_cons.mpr ⟨hb.congr fun i _ => hsum i, fun f hf => (hpath.above f hf).congr fun i _ => hsum i⟩
  · have hne : i ≠ n := fun heq => hi (heq ▸ h.mem_self)
    rw [hchanged.nodes]
    simp only [if_neg hne, Option.map_id_fun', id_eq]
  · rw [redBlack_iff hholds, redBlack_iff h.holds, hred, isRed_join, isRed_join]
    exact exists_congr fun k => and_congr_left' ⟨Balanced.setValue, Balanced.setValue⟩

/-! ### Removal -/

/-- The pointer at a place is written. -/
theorem write_spec {p : Option Nat} (h : view.Holds s.nodes s.m_root fs t) :
    ∃ s' side, s.write (placeOf fs) p = some s' ∧ s'.m_root = (if fs = [] then p else s.m_root) ∧
      Changed s s' (fun i c => if parent fs = some i then { c with toLinks := c.toLinks.setChild side p } else c) ∧
        ∀ g gs, fs = g :: gs → side = g.side := by
  cases fs with
  | nil => exact ⟨_, .left, rfl, rfl, ⟨fun i => by simp [parent], rfl⟩, fun g gs hfs => by cases hfs⟩
  | cons f fs =>
    obtain ⟨c, hc, -⟩ := h.above.1
    obtain ⟨s', heq, h', hroot⟩ := modify_spec hc fun c => { c with toLinks := c.toLinks.setChild f.side p }
    exact ⟨s', f.side, heq, by rw [hroot, if_neg (List.cons_ne_nil _ _)], by simpa [eq_comm] using h',
      fun _ _ hfs => by cases hfs; rfl⟩

/-- The parent of the child, if there is one, is written. -/
theorem setParent_spec {p q : Option Nat} (hp : ∀ i, p = some i → (s.nodes i).isSome = true) :
    ∃ s', p.elim (some s) (fun child => s.setLinks child ({ · with parent := q })) = some s' ∧ s'.m_root = s.m_root ∧
      Changed s s' fun i c => if p = some i then { c with parent := q } else c := by
  cases p with
  | none => exact ⟨s, rfl, rfl, ⟨fun i => by simp, rfl⟩⟩
  | some k =>
    obtain ⟨c, hc⟩ := Option.isSome_iff_exists.mp (hp k rfl)
    obtain ⟨s', heq, h', hroot⟩ := modify_spec hc fun c => { c with parent := q }
    exact ⟨s', heq, hroot, by simpa [eq_comm] using h'⟩

/-- The only child of a node, or nothing, is linked to the parent of the node. -/
theorem unlink_spec (h : Path s L fs (join side a n x .nil)) :
    ∃ s₁ s₂, s.write (placeOf fs) a.ptr = some s₁ ∧
      a.ptr.elim (some s₁) (fun child => s₁.setLinks child ({ · with parent := parent fs })) = some s₂ ∧
      Path s₂ (plug fs a).toList fs a ∧ s₂.isRed = s.isRed ∧ s₂.m_root = (if fs = [] then a.ptr else s.m_root) ∧
      s₂.next = s.next ∧ ∀ i ∉ (plug fs a).ids, s₂.nodes i = s.nodes i := by
  have hdistinct := (ids_place_perm fs).nodup_iff.mp h.holds.nodup
  have haptr : ∀ i, a.ptr = some i → i ∈ a.ids := fun i hi => ptr_mem hi
  have hfsptr : ∀ i, parent fs = some i → i ∈ idsAbove fs := fun i hi => parent_mem hi
  obtain ⟨s₁, side', heq₁, hroot₁, h₁, hside⟩ := write_spec (p := a.ptr) h.holds
  obtain ⟨s₂, heq₂, hroot₂, h₂⟩ := setParent_spec (s := s₁) (p := a.ptr) (q := parent fs) fun i hi => by
    rw [h₁.live]
    exact holds_live h.holds (mem_plug (mem_ids_join.mpr (.inl (haptr i hi))))
  have h₂ := h₁.trans h₂
  have hsum : ∀ i, s₂.sum (some i) = s.sum (some i) := fun i => h₂.sum_eq fun c => by split_ifs <;> rfl
  have hholds : view.Holds s₂.nodes s₂.m_root fs a := by
    rw [hroot₂, hroot₁]
    refine h.holds.splice (fun i hi l y hat => ?_) ?_ fun i hin hia hifs l y hat => ?_
    · have hifs : parent fs ≠ some i := fun heq => by grind
      refine h₂.read_at hat (fun c hc => ?_) fun c => ?_
      · simp [hi, hifs, hc]
      · simp [hi, hifs, view]
    · rintro g gs rfl
      have hga : a.ptr ≠ some g.id := fun heq => by
        have := hfsptr g.id rfl
        grind
      refine h₂.read_at h.holds.above.1 (fun c hc => ?_) fun c => ?_
      · simp [hga, hc, hside g gs rfl, setChild_links]
      · simp [hga, view]
    · refine h₂.read_at hat (fun c hc => ?_) fun c => ?_
      · simp [hia, hifs, hc]
      · simp [hia, hifs, view]
  obtain ⟨-, ha, -⟩ := offPath_join.mp h.here
  refine ⟨s₁, s₂, heq₁, heq₂, ⟨hholds, ha.congr fun i _ => hsum i, fun f hf => (h.above f hf).congr fun i _ => hsum i, rfl⟩,
    funext fun i => ?_, hroot₂.trans hroot₁, h₂.next, fun i hi => ?_⟩
  · exact h₂.isRed_eq fun c => by split_ifs <;> rfl
  · have hmem := mt (ids_plug_perm fs a).mem_iff.mpr hi
    have hia : a.ptr ≠ some i := fun heq => hmem (List.mem_append_left _ (haptr i heq))
    have hifs : parent fs ≠ some i := fun heq => hmem (List.mem_append_right _ (hfsptr i heq))
    rw [h₂.nodes]
    simp only [if_neg hia, if_neg hifs, Option.map_id_fun', id_eq]

theorem lengthen_root (fuel : Nat) (h : Inv s L Q [] t) (hn : t.ptr = some n) :
    ∃ s', s.lengthen (fuel + 1) n = some s' ∧ Inv s' L Q [] t ∧ Within s s' L ∧ RootBlack s' := by
  have hmem := h.mem (ptr_mem hn)
  have hroot : s.m_root = some n := h.root_eq.trans hn
  cases hred : s.isRed n with
  | true =>
    obtain ⟨s', heq, h', hw, hred'⟩ := h.setMark hmem false
    have hmark : s.markBlack n = some s' := heq
    refine ⟨s', ?_, h', hw, fun i hi => ?_⟩
    · simp only [lengthen, h.isBlack_eq hmem, hred, hmark, Bool.not_true, Bool.false_eq_true, if_false, Option.bind_eq_bind,
        Option.bind_some]
    · obtain rfl := Option.some.inj ((h'.root_eq.trans hn).symm.trans hi)
      rw [hred', Function.update_self]
  | false =>
    obtain ⟨ta, tv, tb, ht⟩ := exists_join .left hn
    obtain ⟨c, hc, hlinks⟩ := (ht ▸ h).node
    have hparent : c.parent = none := by rw [hlinks, parent_links]; rfl
    refine ⟨s, ?_, h, .refl s L, fun i hi => ?_⟩
    · simp only [lengthen, h.isBlack_eq hmem, hred, hc, hparent, Bool.not_false, if_true, Option.bind_eq_bind, Option.bind_some]
      rfl
    · obtain rfl := Option.some.inj (hroot.symm.trans hi)
      exact hred

/-- The balance is put right below the place of a node that has been removed. -/
theorem balance_spec {fuel : Nat} (black : Bool) (h : Path s L fs a) (hroot : fs ≠ [] → RootBlack s) (hblack : fs = [] → black = true)
    (hfuel : L.length < fuel) :
    ∃ s' t, a.ptr.elim (some s) (fun child => if black then s.lengthen fuel child else some s) = some s' ∧
      Inv s' L (parent fs).toList [] t ∧ Within s s' L ∧ RootBlack s' := by
  cases fs with
  | nil =>
    cases hn : a.ptr with
    | none =>
      refine ⟨s, a, rfl, h.inv_root, .refl s L, fun i hi => ?_⟩
      rw [h.holds.root_eq] at hi
      exact absurd (hn.symm.trans hi) (Option.some_ne_none i).symm
    | some n =>
      obtain ⟨fuel, rfl⟩ := Nat.exists_eq_succ_of_ne_zero (Nat.ne_zero_of_lt hfuel)
      obtain ⟨s', heq, h', hw, hroot'⟩ := lengthen_root fuel h.inv_root hn
      exact ⟨s', a, by rw [Option.elim_some, hblack rfl]; exact heq, h', hw, hroot'⟩
  | cons f fs =>
    have hinv : Inv s L [f.id] (f :: fs) a := inv_cons.mpr h.inv_parent
    have hroot := hroot (List.cons_ne_nil _ _)
    have hsame : ∃ t, Inv s L [f.id] [] t := ⟨_, holds_plug.mp hinv.holds, hinv.sums, hinv.toList⟩
    obtain ⟨t, ht⟩ := hsame
    cases hn : a.ptr with
    | none => exact ⟨s, t, rfl, ht, .refl s L, hroot⟩
    | some n =>
      cases black with
      | false => exact ⟨s, t, rfl, ht, .refl s L, hroot⟩
      | true =>
        have hlength : (f :: fs).length < L.length := by
          obtain ⟨ta, tv, tb, hta⟩ := exists_join .left hn
          exact (hta ▸ hinv).length_lt
        obtain ⟨s', heq, ⟨t', h'⟩, hw, hroot'⟩ := lengthen_spec hinv hn (fun g hg => .inl (by
          obtain rfl := Option.some.inj hg
          rfl)) hroot (show (f :: fs).length + 1 < fuel by omega)
        exact ⟨s', t', heq, h', hw, hroot'⟩

theorem Inv.free (h : Inv s L Q fs t) (hn : n ∉ L.map Prod.fst) : Inv (s.free n) L Q fs t := by
  have hsame : ∀ i ∈ (plug fs t).ids, (s.free n).nodes i = s.nodes i := fun i hi =>
    Function.update_of_ne (fun heq => hn (by rw [← h.ids, ← heq]; exact hi)) ..
  refine ⟨h.holds.congr fun i hi l y hat => ?_, h.sums.congr fun i hi => ?_, h.toList⟩
  · rw [View.At, hsame i hi]
    exact hat
  · rw [DiscretePDF.sum, DiscretePDF.sum, hsame i hi]

theorem RootBlack.free (h : RootBlack s) : RootBlack (s.free n) := by
  intro i hi
  have hred := h i hi
  rw [isRed] at hred ⊢
  change (Function.update s.nodes n none i).elim false Node.mark = false
  rw [Function.update_apply]
  split
  case isTrue => rfl
  case isFalse => exact hred

theorem Inv.redBlack_free (h : Inv s L Q fs t) (hn : n ∉ L.map Prod.fst) : RedBlack (s.free n) ↔ RedBlack s := by
  have hsame : ∀ i ∈ (plug fs t).ids, (s.free n).isRed i = s.isRed i := fun i hi => by
    have hne : i ≠ n := fun heq => hn (by rw [← h.ids, ← heq]; exact hi)
    exact congrArg (Option.elim · false Node.mark) (Function.update_of_ne hne ..)
  rw [redBlack_iff (holds_plug.mp (h.free hn).holds), redBlack_iff (holds_plug.mp h.holds)]
  refine exists_congr fun k => and_congr ⟨fun hbal => hbal.congr fun i hi => (hsame i hi).symm, fun hbal => hbal.congr hsame⟩ ?_
  exact iff_of_true trivial trivial

/-- The red child that takes the place of a black node is made black. -/
theorem lengthen_redBlack {k fuel : Nat} (h : Inv s L Q fs t) (hn : t.ptr = some n) (hred : t.isRed s.isRed = true)
    (hbal : Balanced s.isRed t k) (hfits : Fits s.isRed fs false (k + 1)) (heq : s.lengthen (fuel + 1) n = some s') : RedBlack s' := by
  have hmem := h.mem (ptr_mem hn)
  have hnred : s.isRed n = true := by
    rw [isRed_eq_elim, hn] at hred
    exact hred
  obtain ⟨s₁, heq₁, h₁, hw₁, hred₁⟩ := h.setMark hmem false
  have hmark : s.markBlack n = some s₁ := heq₁
  have hlengthen : s.lengthen (fuel + 1) n = s.markBlack n := by
    simp only [lengthen, h.isBlack_eq hmem, hnred, Bool.not_true, Bool.false_eq_true, if_false, Option.bind_eq_bind, Option.bind_some]
  obtain rfl := Option.some.inj (heq.symm.trans (hlengthen.trans hmark))
  have hdistinct := (ids_plug_perm _ _).nodup_iff.mp h.holds.nodup
  have hnmem := ptr_mem hn
  obtain ⟨htop, -⟩ := balanced_blacken s'.isRed hbal hred (List.nodup_append.mp hdistinct).1
    (fun i _ hne => by rw [hred₁, Function.update_of_ne fun heq => hne (hn.trans (congrArg some heq.symm))])
    (by rw [isRed_eq_elim, hn, Option.elim_some, hred₁, Function.update_self])
  refine (redBlack_iff h₁.holds).mpr ⟨k + 1, htop.balanced, ?_⟩
  rw [htop.black]
  exact hfits.congr fun i hi => by rw [hred₁, Function.update_of_ne (by grind)]

/-- The node at the place is removed. Its child takes the place. -/
theorem cut_spec (h : Path s L fs (join side a n x .nil)) (hroot : RootBlack s) (hlength : L.length ≤ s.next) :
    ∃ s' t, s.cut (placeOf fs) n = some s' ∧ Inv s' (plug fs a).toList [] [] t ∧ RootBlack s' ∧ s'.next = s.next ∧
      (∀ i ∉ L.map Prod.fst, s'.nodes i = s.nodes i) ∧
      (RedBlack s → (RedBlack s' ↔ s.isRed n = true ∨ a.ptr ≠ none ∨ fs = [])) := by
  have hdistinct := (ids_place_perm fs).nodup_iff.mp h.holds.nodup
  obtain ⟨c, hc, hlinks, -⟩ := h.holds.at
  replace hlinks : c.toLinks = side.links (parent fs) a.ptr none := hlinks
  have hparent : c.parent = parent fs := by rw [hlinks, parent_links]
  have hchild : (if c.left.isSome then c.left else c.right) = a.ptr := by
    rw [hlinks]
    cases side with
    | left => cases a <;> rfl
    | right => rfl
  have hids : ∀ i, i ∈ L.map Prod.fst ↔ i ∈ a.ids ++ n :: [] ++ idsAbove fs := fun i => by
    rw [← h.toList]
    exact (ids_place_perm fs).mem_iff
  have hkeep : ∀ i, i ∈ (plug fs a).ids ↔ i ∈ a.ids ++ idsAbove fs := fun i => (ids_plug_perm fs a).mem_iff
  have hgone : n ∉ (plug fs a).ids := fun hmem => by
    have := (hkeep n).mp hmem
    grind
  obtain ⟨s₁, s₂, heq₁, heq₂, h₂, hred₂, hroot₂, hnext₂, hout₂⟩ := unlink_spec h
  have hlength₂ : (plug fs a).toList.length < s₂.next + 1 := by
    have hjoin : (join side a n x .nil).toList.length = a.toList.length + 1 := by cases side <;> simp [join, LinkedTree.Tree.toList]
    rw [← h.toList, toList_plug, List.length_append, List.length_append, hjoin] at hlength
    rw [hnext₂, toList_plug, List.length_append, List.length_append]
    omega
  have hrootn : fs = [] → s.isRed n = false := by
    rintro rfl
    exact hroot n (h.holds.root_eq.trans ptr_join)
  have hroot₂' : fs ≠ [] → RootBlack s₂ := fun hfs i hi => by
    rw [hroot₂, if_neg hfs] at hi
    rw [hred₂]
    exact hroot i hi
  obtain ⟨s₃, t₃, heq₃, h₃, hw₃, hroot₃⟩ := balance_spec (!s.isRed n) h₂ hroot₂'
    (fun hfs => by rw [hrootn hfs]; rfl) hlength₂
  have hn₂ : s₂.nodes n = some c := (hout₂ n hgone).trans hc
  have hn₃ : s₃.nodes n = some c := (hw₃.outside n hgone).trans hn₂
  obtain ⟨s₄, t₄, heq₄, h₄, hw₄, hroot₄, hcolours₄⟩ : ∃ s₄ t₄,
      s₃.propogateSumsUp (s₃.next + 1) (parent fs) = some s₄ ∧
      Inv s₄ (plug fs a).toList [] [] t₄ ∧ Within s₃ s₄ (plug fs a).toList ∧ RootBlack s₄ ∧ (RedBlack s₄ ↔ RedBlack s₃) := by
    cases hfs : parent fs with
    | none =>
      rw [hfs] at h₃
      exact ⟨s₃, t₃, by rw [propogateSumsUp], h₃, .refl s₃ _, hroot₃, Iff.rfl⟩
    | some q =>
      rw [hfs] at h₃
      have hq : q ∈ (plug fs a).ids := (hkeep q).mpr (List.mem_append_right _ (parent_mem hfs))
      have hfuel : (plug fs a).toList.length ≤ s₃.next + 1 := by
        rw [hw₃.next]
        omega
      obtain ⟨s₄, heq₄, h₄⟩ := propogateSumsUp_of_inv h₃ hq hroot₃ hfuel
      exact ⟨s₄, _, heq₄, h₄⟩
  have hout : ∀ i ∉ L.map Prod.fst, s₄.nodes i = s.nodes i := fun i hi => by
    have hi' : i ∉ (plug fs a).ids := fun hmem => hi ((hids i).mpr (by have := (hkeep i).mp hmem; grind))
    rw [hw₄.outside i hi', hw₃.outside i hi', hout₂ i hi']
  refine ⟨s₄.free n, t₄, ?_, h₄.free hgone, hroot₄.free, ?_, fun i hi => ?_, fun hcolours => ?_⟩
  · have hblack : s₂.isBlack n = some (!s.isRed n) := by
      rw [isBlack, isRed, hn₂, hc]
      rfl
    simp only [cut, hc, hchild, hparent, heq₁, Option.bind_eq_bind, Option.bind_some]
    cases hptr : a.ptr with
    | none =>
      rw [hptr, Option.elim_none] at heq₂ heq₃
      obtain rfl := Option.some.inj heq₂
      obtain rfl := Option.some.inj heq₃
      simp only [hn₂, hparent, heq₄, Option.bind_some]
      rfl
    | some child =>
      rw [hptr, Option.elim_some] at heq₂ heq₃
      simp only [heq₂, hblack, Option.bind_some]
      cases hred : s.isRed n with
      | false =>
        rw [hred, Bool.not_false, if_pos rfl] at heq₃
        simp only [heq₃, hn₃, hparent, heq₄, Bool.not_false, if_true, Option.bind_some]
        rfl
      | true =>
        rw [hred, Bool.not_true, if_neg Bool.false_ne_true] at heq₃
        obtain rfl := Option.some.inj heq₃
        simp only [hn₂, hparent, heq₄, Bool.not_true, Bool.false_eq_true, if_false, Option.bind_some]
        rfl
  · exact hw₄.next.trans (hw₃.next.trans hnext₂)
  · have hne : i ≠ n := fun heq => hi ((hids i).mpr (by grind))
    exact (Function.update_of_ne hne ..).trans (hout i hi)
  · rw [h₄.redBlack_free hgone, hcolours₄]
    obtain ⟨k, hbal, hfits⟩ := (redBlack_iff h.holds).mp hcolours
    rw [isRed_join] at hfits
    cases hptr : a.ptr with
    | none =>
      rw [hptr, Option.elim_none] at heq₃
      obtain rfl := Option.some.inj heq₃
      obtain rfl : a = .nil := by
        cases a with
        | nil => rfl
        | node => cases hptr
      rw [redBlack_iff h₂.holds, hred₂]
      exact (fits_nil_iff hbal hfits).trans (by simp)
    | some child =>
      obtain ⟨hn, hared, habal, rfl⟩ := hbal.only_child fun hnil => by rw [hnil] at hptr; cases hptr
      rw [hptr, Option.elim_some, hn, Bool.not_false, if_pos rfl] at heq₃
      rw [hn] at hfits
      obtain ⟨ta, tv, tb, hta⟩ := exists_join .left hptr
      have hinv₂ : Inv s₂ (plug fs a).toList [child] fs a := hta ▸ (hta ▸ h₂).inv_self
      exact iff_of_true (lengthen_redBlack hinv₂ hptr (hred₂ ▸ hared) (hred₂ ▸ habal) (hred₂ ▸ hfits) heq₃) (.inr (.inl (by simp)))

/-- The greatest item below a place is the last one. -/
theorem leftMax_spec {fuel : Nat} (h : view.Holds s.nodes s.m_root fs (.node a n x b))
    (hfuel : (LinkedTree.Tree.node a n x b).toList.length < fuel) :
    ∃ gs a' m y, s.leftMax fuel (placeOf fs) = some (placeOf (gs ++ fs)) ∧ LinkedTree.Tree.node a n x b = plug gs (.node a' m y .nil) ∧
      (LinkedTree.Tree.node a n x b).toList = (plug gs a').toList ++ [(m, y)] := by
  induction fuel generalizing fs a n x b with
  | zero => exact absurd hfuel (Nat.not_lt_zero _)
  | succ fuel ih =>
    obtain ⟨c, hc, hlinks, -⟩ := (show view.Holds s.nodes s.m_root fs (join .right b n x a) from h).at
    have hright : c.right = b.ptr := congrArg Links.right hlinks
    have hptr : (LinkedTree.Tree.node a n x b).ptr = some n := rfl
    simp only [leftMax, read_place h, hptr, hc, hright, Option.bind_eq_bind, Option.bind_some]
    cases b with
    | nil => exact ⟨[], a, n, x, rfl, rfl, by simp [plug, LinkedTree.Tree.toList]⟩
    | node b₁ k z b₂ =>
      have hdown : view.Holds s.nodes s.m_root (⟨.right, n, x, a⟩ :: fs) (.node b₁ k z b₂) := holds_cons.mpr h
      rw [LinkedTree.Tree.toList, List.length_append, List.length_cons] at hfuel
      obtain ⟨gs, a', m, y, heq, hplug, hlist⟩ := ih hdown (by omega)
      refine ⟨gs ++ [⟨.right, n, x, a⟩], a', m, y, ?_, ?_, ?_⟩
      · rw [List.append_assoc]
        exact heq
      · rw [plug_append, ← hplug]
        rfl
      · rw [plug_append, LinkedTree.Tree.toList, hlist]
        simp [plug, Frame.fill, join, LinkedTree.Tree.toList]

theorem placeOf_append {v w : T × ℚ} {other : LinkedTree.Tree (T × ℚ)} (gs : List (Frame (T × ℚ))) :
    placeOf (gs ++ ⟨side, n, v, other⟩ :: fs) = placeOf (gs ++ ⟨side, n, w, other⟩ :: fs) := by
  cases gs <;> rfl

/-- The node that goes when the item of the node `n` is removed: `n` itself, or the node of the greatest item below its left
child. -/
def unlinkedFor (s : DiscretePDF T) (n : Nat) : Option Nat := do
  let c ← s.nodes n
  match c.left with
  | none => return n
  | some _ => do
    let leftMaxp ← s.leftMax (s.next + 1) (.child .left n)
    let m ← s.read leftMaxp
    m

/-- The node `m` is red, has a child, or is the root. -/
def Spare (s : DiscretePDF T) (m : Nat) : Prop :=
  ∃ c, s.nodes m = some c ∧ (c.mark = true ∨ c.left.isSome = true ∨ c.right.isSome = true ∨ c.parent = none)

theorem spare_iff (h : view.Holds s.nodes s.m_root fs (join side a n x .nil)) :
    Spare s n ↔ s.isRed n = true ∨ a.ptr ≠ none ∨ fs = [] := by
  obtain ⟨c, hc, hlinks, -⟩ := h.at
  replace hlinks : c.toLinks = side.links (parent fs) a.ptr none := hlinks
  have hred : s.isRed n = c.mark := by rw [isRed, hc, Option.elim_some]
  have hkids : (c.left.isSome = true ∨ c.right.isSome = true) ↔ a.ptr ≠ none := by
    rw [hlinks, ← Option.isSome_iff_ne_none]
    cases side with
    | left => simp [Side.links]
    | right => simp [Side.links]
  have hroot : c.parent = none ↔ fs = [] := by
    rw [hlinks, parent_links]
    cases fs <;> simp [parent]
  rw [hred, ← hroot, ← hkids, Spare]
  constructor
  · rintro ⟨c', hc', hspare⟩
    obtain rfl := Option.some.inj (hc.symm.trans hc')
    rwa [or_assoc]
  · intro hspare
    rw [or_assoc] at hspare
    exact ⟨c, hc, hspare⟩

/-- The node that is removed has at most one child, and its item is not the one that goes. -/
theorem replaceItem_spec (h : Inv s L [] fs (.node l n x r)) (hroot : RootBlack s) (hlength : L.length ≤ s.next) :
    ∃ s' fs' side a m y L', s.replaceItem (placeOf fs) n = some (s', placeOf fs', m) ∧ Path s' L' fs' (join side a m y .nil) ∧
      RootBlack s' ∧ Within s s' L ∧ L'.map Prod.fst = L.map Prod.fst ∧
      (plug fs' a).toList.map Prod.snd = (before fs ++ l.toList).map Prod.snd ++ (r.toList ++ after fs).map Prod.snd ∧
      (RedBlack s' ↔ RedBlack s) ∧ s.unlinkedFor n = some m ∧ (Spare s m ↔ s'.isRed m = true ∨ a.ptr ≠ none ∨ fs' = []) := by
  obtain ⟨c, hc, hlinks, -⟩ := (show view.Holds s.nodes s.m_root fs (join .left l n x r) from h.holds).at
  have hleft : c.left = l.ptr := congrArg Links.left hlinks
  have hparts := toList_split h.toList
  cases l with
  | nil =>
    have hplace : Path s L fs (join .right r n x .nil) := h.path
    refine ⟨s, fs, .right, r, n, x, L, ?_, hplace, hroot, .refl s L, rfl, ?_, Iff.rfl, ?_, spare_iff hplace.holds⟩
    · simp only [replaceItem, hc, hleft, Option.bind_eq_bind, Option.bind_some]
      rfl
    · simp [toList_plug, LinkedTree.Tree.toList]
    · simp only [unlinkedFor, hc, hleft, Option.bind_eq_bind, Option.bind_some]
      rfl
  | node l₁ k z l₂ =>
    have hdown : view.Holds s.nodes s.m_root (⟨.left, n, x, r⟩ :: fs) (.node l₁ k z l₂) := holds_cons.mpr h.holds
    have hshort : (LinkedTree.Tree.node l₁ k z l₂).toList.length < s.next + 1 := by
      rw [hparts, LinkedTree.Tree.toList.eq_2 (LinkedTree.Tree.node l₁ k z l₂)] at hlength
      simp only [List.length_append] at hlength
      omega
    obtain ⟨gs, a, m, y, heq₁, hplug, hlist⟩ := leftMax_spec hdown hshort
    have hholds : view.Holds s.nodes s.m_root (gs ++ ⟨.left, n, x, r⟩ :: fs) (.node a m y .nil) := by
      refine holds_plug.mpr ?_
      rw [plug_append, ← hplug]
      exact holds_plug.mp hdown
    obtain ⟨cm, hcm, -, hvalue⟩ := (show view.Holds s.nodes s.m_root _ (join .left a m y .nil) from hholds).at
    obtain ⟨s', heq₂, h', hw, hred, hroot', hcolours⟩ := setValue_spec (y := y) (g := fun c => { c with key := cm.key, weight := cm.weight })
      (show Inv s L [] fs (join .left (.node l₁ k z l₂) n x r) from h) (fun c => ⟨rfl, rfl, rfl⟩) fun c _ => hvalue
    have hread := read_place hholds
    have hptr : (LinkedTree.Tree.node a m y .nil).ptr = some m := rfl
    have hptr' : (LinkedTree.Tree.node l₁ k z l₂).ptr = some k := rfl
    replace heq₁ : s.leftMax (s.next + 1) (.child .left n) = some (placeOf (gs ++ ⟨.left, n, x, r⟩ :: fs)) := heq₁
    refine ⟨s', gs ++ ⟨.left, n, y, r⟩ :: fs, .left, a, m, y, _, ?_, (hplug ▸ h').append, fun i hi => ?_, hw, ?_, ?_, hcolours, ?_, ?_⟩
    · rw [placeOf_append (w := x)]
      simp only [replaceItem, hc, hleft, hptr', heq₁, hread, hptr, hcm, heq₂, Option.bind_eq_bind, Option.bind_some]
      rfl
    · rw [hred]
      exact hroot i (hroot' ▸ hi)
    · rw [hparts, toList_plug, ← hplug]
      simp [join, LinkedTree.Tree.toList]
    · rw [plug_append, plug_cons, toList_plug, hlist]
      simp [Frame.fill, join, LinkedTree.Tree.toList]
    · simp only [unlinkedFor, hc, hleft, hptr', heq₁, hread, hptr, Option.bind_eq_bind, Option.bind_some]
    · rw [spare_iff (show view.Holds s.nodes s.m_root _ (join .left a m y .nil) from hholds), hred]
      simp

/-! ### Choices -/

/-- The total weight of entries. -/
def weights (entries : List (T × ℚ)) : ℚ := (entries.map Prod.snd).sum

theorem weights_append (A B : List (T × ℚ)) : weights (A ++ B) = weights A + weights B := by
  rw [weights, List.map_append, List.sum_append]
  rfl

theorem weights_cons (x : T × ℚ) (A : List (T × ℚ)) : weights (x :: A) = x.2 + weights A := by
  rw [weights, List.map_cons, List.sum_cons]
  rfl

def entries (t : LinkedTree.Tree (T × ℚ)) : List (T × ℚ) := t.toList.map Prod.snd

theorem entries_tree : entries (.node l n x r) = entries l ++ x :: entries r := by
  simp [entries, LinkedTree.Tree.toList]

theorem sum_eq_weights (h : OffPath s [] t) : s.sum t.ptr = weights (entries t) := by
  induction t with
  | nil => rfl
  | node l n x r ihl ihr =>
    obtain ⟨hn, hl, hr⟩ := h
    rw [entries_tree, weights_append, weights_cons, ← ihl hl, ← ihr hr]
    exact (hn fun j _ => List.not_mem_nil).trans (by rw [add_comm x.2, add_assoc])

/-- The loop stops where the number is. -/
theorem walk_spec {fuel : Nat} {w : ℚ} {above : Option Nat} (hshape : view.Shape s.nodes above (.node l n x r))
    (hsums : OffPath s [] (.node l n x r)) (hw : 0 ≤ w) (hlt : w < weights (entries (.node l n x r)))
    (hfuel : (LinkedTree.Tree.node l n x r).toList.length < fuel) :
    ∃ A y B, walk fuel s w n = some y.1 ∧ entries (.node l n x r) = A ++ y :: B ∧ weights A ≤ w ∧ w < weights A + y.2 := by
  induction fuel generalizing w above l n x r with
  | zero => exact absurd hfuel (Nat.not_lt_zero _)
  | succ fuel ih =>
    obtain ⟨⟨c, hc, hlinks, hvalue⟩, hlshape, hrshape⟩ := hshape
    obtain ⟨-, hlsums, hrsums⟩ := hsums
    have hleft : c.left = l.ptr := congrArg Links.left hlinks
    have hright : c.right = r.ptr := congrArg Links.right hlinks
    have hkey : c.key = x.1 := congrArg Prod.fst hvalue
    have hweight : c.weight = x.2 := congrArg Prod.snd hvalue
    have hbelow : s.sumBelow l.ptr = some (weights (entries l)) := by
      rw [← sum_eq_weights hlsums]
      exact sumBelow_eq fun i hi => shape_live hlshape (ptr_mem hi)
    rw [entries_tree, weights_append, weights_cons] at hlt
    rw [LinkedTree.Tree.toList, List.length_append, List.length_cons] at hfuel
    simp only [walk, hc, hleft, hright, hkey, hweight, hbelow, Option.bind_eq_bind, Option.bind_some]
    rw [entries_tree]
    by_cases hdown : w < weights (entries l)
    · cases l with
      | nil => exact absurd (hw.trans_lt hdown) (lt_irrefl _)
      | node l₁ k z l₂ =>
        obtain ⟨A, y, B, heq, hsplit, hle, hlt'⟩ := ih hlshape hlsums hw hdown (by omega)
        refine ⟨A, y, B ++ x :: entries r, ?_, by rw [hsplit, List.append_assoc, List.cons_append], hle, hlt'⟩
        rw [if_pos ⟨rfl, hdown⟩]
        exact heq
    · rw [if_neg fun h => hdown h.2]
      have hge : weights (entries l) ≤ w := not_lt.mp hdown
      by_cases hhere : w - weights (entries l) < x.2
      · refine ⟨entries l, x, entries r, ?_, rfl, hge, sub_lt_iff_lt_add'.mp hhere⟩
        cases r with
        | nil => rfl
        | node => exact if_pos hhere
      · cases r with
        | nil =>
          refine absurd ?_ hhere
          rw [sub_lt_iff_lt_add']
          simpa [entries, weights, LinkedTree.Tree.toList] using hlt
        | node r₁ k z r₂ =>
          have hrest : 0 ≤ w - weights (entries l) - x.2 := sub_nonneg.mpr (not_lt.mp hhere)
          obtain ⟨A, y, B, heq, hsplit, hle, hlt'⟩ := ih hrshape hrsums hrest (by linarith) (by omega)
          refine ⟨entries l ++ x :: A, y, B, (if_neg hhere).trans heq, ?_, ?_, ?_⟩
          · rw [hsplit, List.append_assoc, List.cons_append]
          · rw [weights_append, weights_cons]
            linarith
          · rw [weights_append, weights_cons]
            linarith

/-! ### Maps -/

section
variable [LinearOrder T] {item : T} {m : SortedList (Prod.fst : T × ℚ → T)}

theorem Stores.lookup_spec (h : Stores s m) (item : T) :
    ∃ L fs t, s.lookup item (s.next + 1) .root = some (placeOf fs) ∧ Inv s L [] fs t ∧ L.map Prod.snd = m.entries ∧
      Around item fs ∧ (t = .nil ∧ m.lookup item = none ∨ ∃ l n w r, t = .node l n (item, w) r ∧ m.lookup item = some (item, w)) := by
  obtain ⟨⟨L, t, hinv, hentries⟩, hroot, hfresh⟩ := h
  have hshort : t.toList.length < s.next + 1 := by
    rw [show t.toList = L from hinv.toList]
    exact Nat.lt_succ_of_le (hinv.length_le hfresh)
  obtain ⟨fs, t', heq, h', haround, hcase⟩ := DiscretePDF.lookup_spec item hinv (sorted_of_entries hentries)
    ⟨fun y hy => absurd hy List.not_mem_nil, fun y hy => absurd hy List.not_mem_nil⟩ hshort
  refine ⟨L, fs, t', heq, h', hentries, haround, ?_⟩
  have hparts := toList_split h'.toList
  rcases hcase with rfl | ⟨l, n, w, r, rfl⟩
  · refine .inl ⟨rfl, Option.eq_none_iff_forall_ne_some.mpr fun x hx => ?_⟩
    obtain ⟨hmem, hkey⟩ := SortedList.lookup_eq_some.mp hx
    rw [← hentries, hparts, LinkedTree.Tree.toList, List.append_nil] at hmem
    obtain ⟨y, hy, rfl⟩ := List.mem_map.mp hmem
    rcases List.mem_append.mp hy with hy | hy
    · exact (haround.1 y hy).ne hkey
    · exact (haround.2 y hy).ne' hkey
  · refine .inr ⟨l, n, w, r, rfl, SortedList.lookup_eq_some.mpr ⟨?_, rfl⟩⟩
    rw [← hentries, hparts]
    refine List.mem_map_of_mem (a := (n, item, w)) ?_
    simp [LinkedTree.Tree.toList]

omit [LinearOrder T] in
theorem entries_node {v : T × ℚ} : (plug fs (.node l n v r)).toList.map Prod.snd =
    (before fs ++ l.toList).map Prod.snd ++ v :: (r.toList ++ after fs).map Prod.snd := by
  simp [toList_plug, LinkedTree.Tree.toList]

/-- The node that goes when the item is removed. -/
def unlinked (s : DiscretePDF T) (item : T) : Option Nat := do
  let np ← s.lookup item (s.next + 1) .root
  let n ← (← s.read np)
  s.unlinkedFor n

/-- The node that goes when the item is removed is red, has a child, or is the root. -/
def Spared (s : DiscretePDF T) (item : T) : Prop := ∃ m, s.unlinked item = some m ∧ Spare s m

theorem remove_spec (h : Stores s m) (hitem : (m.lookup item).isSome = true) :
    ∃ s', s.remove item = some s' ∧ Stores s' (m.remove item) ∧ (RedBlack s → (RedBlack s' ↔ Spared s item)) := by
  obtain ⟨L, fs, t, heq₁, hinv, hentries, haround, hcase⟩ := h.lookup_spec item
  rcases hcase with ⟨-, hnone⟩ | ⟨l, n, w, r, rfl, -⟩
  · rw [hnone] at hitem
    cases hitem
  · have hlength := hinv.length_le h.fresh
    obtain ⟨s₂, fs₂, side, a, k, y, L₂, heq₂, h₂, hroot₂, hw₂, hids₂, hlist₂, hcolours₂, hunlinked, hspare⟩ :=
      replaceItem_spec hinv h.root hlength
    have hlength₂ : L₂.length ≤ s₂.next := by
      rw [← List.length_map Prod.fst, hids₂, List.length_map, hw₂.next]
      exact hlength
    obtain ⟨s₃, t₃, heq₃, h₃, hroot₃, hnext₃, hout₃, hcolours₃⟩ := cut_spec h₂ hroot₂ hlength₂
    have hread := read_place hinv.holds
    have hptr : (LinkedTree.Tree.node l n (item, w) r).ptr = some n := rfl
    refine ⟨s₃, ?_, ⟨⟨_, t₃, h₃, ?_⟩, hroot₃, fun i hi => ?_⟩, fun hred => ?_⟩
    · simp only [remove, heq₁, hread, hptr, heq₂, Option.bind_eq_bind, Option.bind_some]
      exact heq₃
    · rw [hlist₂]
      refine (SortedList.entries_remove (x := (item, w)) ?_).symm
      rw [← hentries, ← hinv.toList, entries_node]
    · rw [hnext₃, hw₂.next] at hi
      have hmem : i ∉ L.map Prod.fst := fun hmem => (hinv.lt_next h.fresh i hmem).not_ge hi
      rw [hout₃ i (hids₂ ▸ hmem), hw₂.outside i hmem]
      exact h.fresh i hi
    · rw [hcolours₃ (hcolours₂.mpr hred), ← hspare]
      have hgoes : s.unlinked item = some k := by
        simp only [unlinked, heq₁, hread, hptr, Option.bind_eq_bind, Option.bind_some]
        exact hunlinked
      simp [Spared, hgoes]

theorem update_spec (weight : ℚ) (h : Stores s m) (hitem : (m.lookup item).isSome = true) :
    ∃ s', s.update item weight = some s' ∧ Stores s' (m.replace (item, weight)) ∧ (RedBlack s' ↔ RedBlack s) := by
  obtain ⟨L, fs, t, heq₁, hinv, hentries, haround, hcase⟩ := h.lookup_spec item
  rcases hcase with ⟨-, hnone⟩ | ⟨l, n, w, r, rfl, -⟩
  · rw [hnone] at hitem
    cases hitem
  · have hparts := toList_split hinv.toList
    obtain ⟨s₂, heq₂, h₂, hw₂, hred₂, hroot₂, hcolours₂⟩ := setValue_spec (y := (item, weight))
      (g := fun c => { c with weight := weight })
      (show Inv s L [] fs (join .left l n (item, w) r) from hinv) (fun c => ⟨rfl, rfl, rfl⟩)
      (fun c hc => by
        have hkey : c.key = item := congrArg Prod.fst hc
        exact Prod.ext hkey rfl)
    have hblack₂ : RootBlack s₂ := fun i hi => by
      rw [hred₂]
      exact h.root i (hroot₂ ▸ hi)
    have hids : (plug fs (join .left l n (item, weight) r)).toList.map Prod.fst = L.map Prod.fst := by
      rw [hparts, toList_plug]
      simp [join, LinkedTree.Tree.toList]
    have hlength : (plug fs (join .left l n (item, weight) r)).toList.length ≤ s₂.next + 1 := by
      rw [← List.length_map Prod.fst, hids, List.length_map, hw₂.next]
      exact (hinv.length_le h.fresh).trans (Nat.le_succ _)
    have hinv₂ := h₂.inv_parent
    obtain ⟨s₃, heq₃, h₃, hw₃, hroot₃, hcolours₃⟩ := propogateSumsUp_of_inv hinv₂ hinv₂.mem_self hblack₂ hlength
    have hread := read_place hinv.holds
    have hptr : (LinkedTree.Tree.node l n (item, w) r).ptr = some n := rfl
    refine ⟨s₃, ?_, ⟨⟨_, _, h₃, ?_⟩, hroot₃, ?_⟩, hcolours₃.trans hcolours₂⟩
    · simp only [update, heq₁, hread, hptr, heq₂, Option.bind_eq_bind, Option.bind_some]
      exact heq₃
    · obtain ⟨hl, hr⟩ := (sorted_of_entries hentries).node hinv.toList
      refine (entries_node (v := (item, weight))).trans (SortedList.entries_replace (B := [(item, w)]) ?_ ?_ ?_ ?_).symm
      · rw [← hentries, ← hinv.toList, entries_node, List.append_assoc, List.singleton_append]
      · intro y hy
        obtain ⟨z, hz, rfl⟩ := List.mem_map.mp hy
        exact (List.mem_append.mp hz).elim (haround.1 z) (hl z)
      · exact fun y hy => by rw [List.mem_singleton.mp hy]
      · intro y hy
        obtain ⟨z, hz, rfl⟩ := List.mem_map.mp hy
        exact (List.mem_append.mp hz).elim (hr z) (haround.2 z)
    · exact hw₃.fresh (by rw [hids]; exact hw₂.next ▸ hinv.lt_next h.fresh) (hw₂.fresh (hinv.lt_next h.fresh) h.fresh)

theorem Stores.inTree (h : Stores s m) (item : T) : s.inTree item = some (m.lookup item).isSome := by
  obtain ⟨L, fs, t, heq, hinv, -, -, hcase⟩ := h.lookup_spec item
  simp only [DiscretePDF.inTree, heq, read_place hinv.holds, Option.bind_eq_bind, Option.bind_some]
  rcases hcase with ⟨rfl, hlookup⟩ | ⟨l, n, w, r, rfl, hlookup⟩
  · rw [hlookup]
    rfl
  · rw [hlookup]
    rfl

theorem Stores.getWeight (h : Stores s m) (item : T) : s.getWeight item = (m.lookup item).map Prod.snd := by
  obtain ⟨L, fs, t, heq, hinv, -, -, hcase⟩ := h.lookup_spec item
  simp only [DiscretePDF.getWeight, heq, read_place hinv.holds, Option.bind_eq_bind, Option.bind_some]
  rcases hcase with ⟨rfl, hlookup⟩ | ⟨l, n, w, r, rfl, hlookup⟩
  · rw [hlookup]
    rfl
  · obtain ⟨c, hc, -, hvalue⟩ := (show view.Holds s.nodes s.m_root fs (join .left l n (item, w) r) from hinv.holds).at
    have hweight : c.weight = w := congrArg Prod.snd hvalue
    rw [hlookup]
    simp only [LinkedTree.Tree.ptr, hc, hweight, Option.bind_some, Option.map_some]
    rfl

theorem Stores.choose {p : ℚ} (h : Stores s m) (hp : 0 ≤ p) (hp1 : p < 1) (htotal : 0 < weights m.entries) :
    ∃ A y B, s.choose p = some y.1 ∧ m.entries = A ++ y :: B ∧ weights A ≤ weights m.entries * p ∧
      weights m.entries * p < weights A + y.2 := by
  obtain ⟨⟨L, t, hinv, hentries⟩, -, hfresh⟩ := h
  have hlist : entries t = m.entries := by rw [entries, show t.toList = L from hinv.toList, hentries]
  cases t with
  | nil =>
    rw [← hlist] at htotal
    exact absurd htotal (lt_irrefl _)
  | node l n x r =>
    obtain ⟨c, hc, -⟩ := (show view.Holds s.nodes s.m_root [] (join .left l n x r) from hinv.holds).at
    have hroot : s.m_root = some n := hinv.root_eq
    have hsum : c.sumWeights = weights m.entries := by
      rw [← hlist]
      refine Eq.trans ?_ (sum_eq_weights hinv.sums)
      change c.sumWeights = s.sum (some n)
      rw [DiscretePDF.sum, hc, Option.elim_some]
    have hshort : (LinkedTree.Tree.node l n x r).toList.length < s.next + 1 := by
      rw [show (LinkedTree.Tree.node l n x r).toList = L from hinv.toList]
      exact Nat.lt_succ_of_le (hinv.length_le hfresh)
    have hlt : weights m.entries * p < weights m.entries := mul_lt_of_lt_one_right htotal hp1
    rw [← hlist] at hlt
    obtain ⟨A, y, B, heq, hsplit, hle, hlt'⟩ := walk_spec hinv.holds.shape hinv.sums (mul_nonneg (hlist ▸ htotal.le) hp) hlt hshort
    rw [hlist] at heq hsplit hle hlt'
    refine ⟨A, y, B, ?_, hsplit, hle, hlt'⟩
    simp only [DiscretePDF.choose, if_neg (not_or.mpr ⟨hp.not_gt, hp1.not_ge⟩), hroot, hc, hsum, Option.bind_eq_bind, Option.bind_some]
    exact heq

/-! ### Runs -/

/-- What is promised of a command, on the finite map: an item that is inserted is new, and an item that is updated or removed is
present. -/
def Command.onMap (m : SortedList (Prod.fst : T × ℚ → T)) : Command T → Option (SortedList (Prod.fst : T × ℚ → T))
  | .insert item weight => if (m.lookup item).isSome then none else some (m.replace (item, weight))
  | .update item weight => if (m.lookup item).isSome then some (m.replace (item, weight)) else none
  | .remove item => if (m.lookup item).isSome then some (m.remove item) else none

def Command.map (commands : List (Command T)) : Option (SortedList (Prod.fst : T × ℚ → T)) :=
  commands.foldlM Command.onMap .empty

/-- The tree is a search tree of the map, with its parent pointers, the sums are the total weights, and the tree answers
and samples like the map. -/
structure Samples (s : DiscretePDF T) (m : SortedList (Prod.fst : T × ℚ → T)) : Prop where
  tree : ∃ t, view.Holds s.nodes s.m_root [] t ∧ entries t = m.entries ∧
    ∀ fs l n x r, t = plug fs (.node l n x r) →
      (s.nodes n).map Node.sumWeights = some (weights (entries (.node l n x r))) ∧
        (∀ y ∈ entries l, y.1 < x.1) ∧ ∀ y ∈ entries r, x.1 < y.1
  inTree : ∀ item, s.inTree item = some (m.lookup item).isSome
  getWeight : ∀ item, s.getWeight item = (m.lookup item).map Prod.snd
  choose : ∀ p, 0 ≤ p → p < 1 → 0 < weights m.entries → ∃ A y B, s.choose p = some y.1 ∧ m.entries = A ++ y :: B ∧
    weights A ≤ weights m.entries * p ∧ weights m.entries * p < weights A + y.2

theorem Stores.samples (h : Stores s m) : Samples s m := by
  refine ⟨?_, h.inTree, h.getWeight, fun p hp hp1 htotal => h.choose hp hp1 htotal⟩
  obtain ⟨⟨L, t, hinv, hentries⟩, -, -⟩ := h
  refine ⟨t, hinv.holds, by rw [entries, show t.toList = L from hinv.toList, hentries], ?_⟩
  rintro fs l n x r rfl
  have hplace : Inv s L [] fs (.node l n x r) := ⟨holds_plug.mpr hinv.holds, hinv.sums, hinv.toList⟩
  obtain ⟨hl, hr⟩ := (sorted_of_entries hentries).node hplace.toList
  refine ⟨?_, fun y hy => ?_, fun y hy => ?_⟩
  · obtain ⟨c, hc, -⟩ := (show view.Holds s.nodes s.m_root fs (join .left l n x r) from hplace.holds).at
    rw [hc, Option.map_some, ← sum_eq_weights hplace.path.here]
    refine congrArg some (Eq.trans ?_ (congrArg (Option.elim · 0 Node.sumWeights) hc.symm))
    rfl
  · obtain ⟨z, hz, rfl⟩ := List.mem_map.mp hy
    exact hl z hz
  · obtain ⟨z, hz, rfl⟩ := List.mem_map.mp hy
    exact hr z hz

theorem Stores.exec {m' : SortedList (Prod.fst : T × ℚ → T)} {command : Command T} (h : Stores s m)
    (hcommand : command.onMap m = some m') :
    ∃ s', s.exec command = some s' ∧ Stores s' m' ∧ (RedBlack s → (RedBlack s' ↔ ∀ item, command = .remove item → Spared s item)) := by
  cases command with
  | insert item weight =>
    rw [Command.onMap, Option.ite_none_left_eq_some] at hcommand
    obtain ⟨hnew, heq⟩ := hcommand
    obtain rfl := Option.some.inj heq
    have habsent : ∀ y ∈ m.entries, y.1 ≠ item := fun y hy hkey => hnew (by
      rw [SortedList.lookup_eq_some.mpr ⟨hy, hkey⟩]
      rfl)
    obtain ⟨s', heq, hstores, hcolours⟩ := insert_spec weight h habsent
    exact ⟨s', heq, hstores, fun hred => iff_of_true (hcolours hred) fun _ hremove => by cases hremove⟩
  | update item weight =>
    rw [Command.onMap, Option.ite_none_right_eq_some] at hcommand
    obtain ⟨hitem, heq⟩ := hcommand
    obtain rfl := Option.some.inj heq
    obtain ⟨s', heq, hstores, hcolours⟩ := update_spec weight h hitem
    exact ⟨s', heq, hstores, fun hred => iff_of_true (hcolours.mpr hred) fun _ hremove => by cases hremove⟩
  | remove item =>
    rw [Command.onMap, Option.ite_none_right_eq_some] at hcommand
    obtain ⟨hitem, heq⟩ := hcommand
    obtain rfl := Option.some.inj heq
    obtain ⟨s', heq, hstores, hcolours⟩ := remove_spec h hitem
    exact ⟨s', heq, hstores, fun hred => (hcolours hred).trans (by simp)⟩

theorem stores_empty : Stores (empty : DiscretePDF T) .empty :=
  ⟨⟨[], .nil, ⟨⟨trivial, rfl, List.nodup_nil⟩, trivial, rfl⟩, rfl⟩, fun _ hi => absurd hi.symm (Option.some_ne_none _),
    fun _ _ => rfl⟩

theorem Stores.foldlM {m' : SortedList (Prod.fst : T × ℚ → T)} {commands : List (Command T)} (h : Stores s m)
    (hcommands : commands.foldlM Command.onMap m = some m') : ∃ s', commands.foldlM DiscretePDF.exec s = some s' ∧ Stores s' m' := by
  induction commands generalizing s m with
  | nil =>
    obtain rfl := Option.some.inj hcommands
    exact ⟨s, rfl, h⟩
  | cons command commands ih =>
    rw [List.foldlM_cons] at hcommands
    obtain ⟨m₁, hfirst, hrest⟩ := Option.bind_eq_some_iff.mp hcommands
    obtain ⟨s₁, heq₁, h₁, -⟩ := h.exec hfirst
    obtain ⟨s', heq', h'⟩ := ih h₁ hrest
    exact ⟨s', by rw [List.foldlM_cons, heq₁]; exact heq', h'⟩

/-- No null pointer is used in a run, and the tree that it leaves samples by weight. -/
theorem run_samples {commands : List (Command T)} (h : Command.map commands = some m) :
    ∃ s, run commands = some s ∧ Samples s m := by
  obtain ⟨s, heq, hstores⟩ := stores_empty.foldlM h
  exact ⟨s, heq, hstores.samples⟩

end

theorem run_samples_three : ∃ s, run [.insert 3 (1 / 2), .insert 1 2, .insert 2 1, .update 3 4, .remove 1] = some s ∧
    Samples s (T := Nat) ⟨[(2, 1), (3, 4)], by decide⟩ :=
  run_samples (by rfl)

end

/-! ### The red-black runs of a DiscretePDF

`insert` and `update` keep a red-black tree, and so does `remove` when the node that it unlinks is spared: `lengthen` is not
called for a node without a child. -/

variable {T : Type} [LinearOrder T] {s : DiscretePDF T} {m m' : SortedList (Prod.fst : T × ℚ → T)} {commands : List (Command T)}

omit [LinearOrder T] in
theorem redBlack_empty : RedBlack (empty : DiscretePDF T) :=
  ⟨.nil, ⟨trivial, rfl, List.nodup_nil⟩, exists_balanced_iff.mp ⟨0, .nil⟩⟩

/-- From a red-black tree on. -/
theorem Stores.redBlack_iff (h : Stores s m) (hred : RedBlack s) (hcommands : commands.foldlM Command.onMap m = some m') :
    (∀ earlier later, commands = earlier ++ later → ∃ s', earlier.foldlM DiscretePDF.exec s = some s' ∧ RedBlack s') ↔
      ∀ earlier item later, commands = earlier ++ .remove item :: later →
        ∃ s', earlier.foldlM DiscretePDF.exec s = some s' ∧ Spared s' item := by
  induction commands generalizing s m with
  | nil =>
    refine iff_of_true (fun earlier later heq => ?_) fun earlier item later heq => ?_
    · obtain ⟨rfl, -⟩ := List.append_eq_nil_iff.mp heq.symm
      exact ⟨s, rfl, hred⟩
    · simp at heq
  | cons command commands ih =>
    rw [List.foldlM_cons] at hcommands
    obtain ⟨m₁, hfirst, hrest⟩ := Option.bind_eq_some_iff.mp hcommands
    obtain ⟨s₁, heq₁, h₁, hcolours⟩ := h.exec hfirst
    have hstep : ∀ earlier : List (Command T), (command :: earlier).foldlM DiscretePDF.exec s =
        earlier.foldlM DiscretePDF.exec s₁ := fun earlier =>
      congrArg (Option.bind · fun s => earlier.foldlM DiscretePDF.exec s) heq₁
    constructor
    · intro hall
      have hred₁ : RedBlack s₁ := by
        obtain ⟨s', heq, hred'⟩ := hall [command] commands rfl
        rw [hstep] at heq
        obtain rfl := Option.some.inj heq
        exact hred'
      intro earlier item later heq
      cases earlier with
      | nil =>
        obtain ⟨rfl, -⟩ := List.cons.inj heq
        exact ⟨s, rfl, (hcolours hred).mp hred₁ item rfl⟩
      | cons first earlier =>
        obtain ⟨rfl, htail⟩ := List.cons.inj heq
        rw [hstep]
        refine (ih h₁ hred₁ hrest).mp (fun before after hparts => ?_) earlier item later htail
        rw [← hstep]
        exact hall (command :: before) after (congrArg (command :: ·) hparts)
    · intro hspared
      have hred₁ : RedBlack s₁ := (hcolours hred).mpr fun item hremove => by
        obtain ⟨s', heq, hs'⟩ := hspared [] item commands (by rw [hremove]; rfl)
        obtain rfl := Option.some.inj heq
        exact hs'
      intro earlier later heq
      cases earlier with
      | nil => exact ⟨s, rfl, hred⟩
      | cons first earlier =>
        obtain ⟨rfl, htail⟩ := List.cons.inj heq
        rw [hstep]
        refine (ih h₁ hred₁ hrest).mpr (fun before item after hparts => ?_) earlier later htail
        rw [← hstep]
        exact hspared (command :: before) item after (congrArg (command :: ·) hparts)

/-- Every state of a run is a red-black tree exactly when each `remove` unlinks a node that is red, has a child or is the
root. -/
theorem run_redBlack_iff (h : Command.map commands = some m) :
    (∀ earlier later, commands = earlier ++ later → ∃ s, run earlier = some s ∧ RedBlack s) ↔
      ∀ earlier item later, commands = earlier ++ .remove item :: later → ∃ s, run earlier = some s ∧ Spared s item :=
  stores_empty.redBlack_iff redBlack_empty h

theorem run_redBlack_iff_redLeaf :
    (∀ earlier later, [.insert 1 1, .insert 2 1, .remove 2] = earlier ++ later →
      ∃ s : DiscretePDF Nat, run earlier = some s ∧ RedBlack s) ↔
    ∀ earlier item later, [.insert 1 1, .insert 2 1, .remove 2] = earlier ++ .remove item :: later →
      ∃ s : DiscretePDF Nat, run earlier = some s ∧ Spared s item :=
  run_redBlack_iff (m := ⟨[(1, 1)], by decide⟩) (by rfl)

/-- The fourth item makes the two nodes below the root black. -/
def blackLeafRun : List (Command Nat) := [.insert 2 1, .insert 1 1, .insert 3 1, .insert 4 1, .remove 1]

/-- The left subtree has lost its only black node, and the right one has kept its own. -/
theorem not_redBlack_blackLeafRun : ∃ s, run blackLeafRun = some s ∧ ¬RedBlack s := by
  obtain ⟨s, hs⟩ : ∃ s, run blackLeafRun = some s := Option.isSome_iff_exists.mp (by decide +kernel)
  have hmarks : (run blackLeafRun).map (fun s => (s.isRed 0, s.isRed 2)) = some (false, false) := by decide +kernel
  have hlinks : (run blackLeafRun).map (fun s => (s.m_root, (s.nodes 0).map fun c => (c.left, c.right))) =
      some (some 0, some (none, some 2)) := by decide +kernel
  rw [hs, Option.map_some, Option.some.injEq, Prod.mk.injEq] at hmarks hlinks
  obtain ⟨hred₀, hred₂⟩ := hmarks
  obtain ⟨hroot, hkids⟩ := hlinks
  refine ⟨s, hs, ?_⟩
  rintro ⟨t, hholds, hred⟩
  obtain ⟨h, hbal⟩ := exists_balanced_iff.mpr hred
  have hptr : t.ptr = some 0 := hholds.root_eq.symm.trans hroot
  obtain ⟨l, x, r, rfl⟩ := exists_join .left hptr
  obtain ⟨c, hc, hlinks, -⟩ := hholds.at
  rw [hc, Option.map_some, Option.some.injEq, Prod.mk.injEq] at hkids
  have hl : l.ptr = none := (congrArg Links.left hlinks).symm.trans hkids.1
  have hr : r.ptr = some 2 := (congrArg Links.right hlinks).symm.trans hkids.2
  obtain ⟨k, -, hleft, hright⟩ := (balanced_join_black hred₀).mp hbal
  cases l with
  | node => cases hl
  | nil =>
    cases hleft
    have hnil := hright.zero (by rw [isRed_eq_elim, hr]; exact hred₂)
    rw [hnil] at hr
    cases hr

end CapTaint.Klee.DiscretePDF
