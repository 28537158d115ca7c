import Mathlib

/-! # Laying out with a cursor

A cursor passes a list of items: it is rounded up to the alignment of an item, and the size of the item is added. The
items have places of their own. The padding that is lost on the way says where the cursor is right. -/

namespace CapTaint.Cursor

variable {κ β : Type*} {align x p : Nat}

def roundUp (align x : Nat) : Nat := if x % align ≠ 0 then (x / align + 1) * align else x

theorem dvd_roundUp (align x : Nat) : align ∣ roundUp align x := by
  unfold roundUp
  split
  · exact Dvd.intro_left _ rfl
  · rename_i h
    exact Nat.dvd_of_mod_eq_zero (not_not.mp h)

theorem roundUp_of_dvd (h : align ∣ x) : roundUp align x = x := if_neg (not_not.mpr (Nat.mod_eq_zero_of_dvd h))

theorem le_roundUp (hpos : 0 < align) (x : Nat) : x ≤ roundUp align x := by
  unfold roundUp
  split
  · have hdiv := Nat.div_add_mod x align
    have hlt := Nat.mod_lt x hpos
    rw [Nat.add_mul, Nat.one_mul, Nat.mul_comm]
    omega
  · exact le_rfl

/-- Below a multiple of the alignment, rounding up leaves a multiple of it. -/
theorem roundUp_eq_sub (hpos : 0 < align) {m : Nat} (hm : align ∣ m) (x : Nat) :
    (roundUp align x : ℤ) = m - (m - x) / align * align := by
  obtain ⟨k, rfl⟩ := hm
  have ha : (0 : ℤ) < align := Int.natCast_pos.mpr hpos
  have hx : (x : ℤ) = align * (x / align) + x % align := by
    have := Int.mul_ediv_add_emod (x : ℤ) align
    linarith
  have hlt : ((x : ℤ) % align) < align := Int.emod_lt_of_pos _ ha
  have hnonneg : 0 ≤ ((x : ℤ) % align) := Int.emod_nonneg _ ha.ne'
  unfold roundUp
  split_ifs with h
  · have hrem : 0 < ((x : ℤ) % align) := lt_of_le_of_ne hnonneg (by exact_mod_cast h.symm)
    have hdiv : ((align * k : Nat) - x : ℤ) / align = k - x / align - 1 := by
      rw [Int.ediv_eq_iff_of_pos ha]
      push_cast
      constructor <;> nlinarith
    rw [hdiv]
    push_cast
    ring
  · have hrem : ((x : ℤ) % align) = 0 := by exact_mod_cast not_not.mp h
    have hdiv : ((align * k : Nat) - x : ℤ) / align = k - x / align := by
      rw [Int.ediv_eq_iff_of_pos ha]
      push_cast
      constructor <;> nlinarith
    rw [hdiv]
    push_cast
    linarith

/-! ### Items -/

/-- What a cursor passes. -/
structure Item (κ : Type*) where
  align : Nat
  size : Nat
  /-- where the item is to be -/
  place : Nat
  mark : κ

/-- What is noted on the way, and where the cursor ends. -/
def passes (note : κ → Nat → List β) : Nat → List (Item κ) → List β × Nat
  | x, [] => ([], x)
  | x, item :: items =>
    (note item.mark (roundUp item.align x) ++ (passes note (roundUp item.align x + item.size) items).1,
      (passes note (roundUp item.align x + item.size) items).2)

/-- What is noted at the places. -/
def wanted (note : κ → Nat → List β) (items : List (Item κ)) : List β := items.flatMap fun item => note item.mark item.place

namespace Item

/-- The end of an item that starts at its place. -/
def stop (item : Item κ) : ℤ := roundUp item.align item.place + item.size

/-- What is lost when the cursor is rounded up for the item: what was lost before and the padding between the end of the
    last item and the place of this one, down to a multiple of the alignment. -/
def lost (item : Item κ) (stop before : ℤ) : ℤ := (before + (roundUp item.align item.place - stop)) / item.align * item.align

end Item

/-- Nothing is lost at the marked items. -/
def Kept (marked : κ → Prop) : ℤ → ℤ → List (Item κ) → Prop
  | _, _, [] => True
  | stop, before, item :: items =>
    (marked item.mark → item.align ∣ item.place ∧ item.lost stop before = 0) ∧ Kept marked item.stop (item.lost stop before) items

/-- What is lost up to `last`, behind all items. -/
def lostUpTo (last : ℤ) : ℤ → ℤ → List (Item κ) → ℤ
  | stop, before, [] => before + (last - stop)
  | stop, before, item :: items => lostUpTo last item.stop (item.lost stop before) items

/-- The notes of the marked items tell their places, and the others do not depend on them. -/
structure Telling (marked : κ → Prop) (note : κ → Nat → List β) : Prop where
  length : ∀ k a b, (note k a).length = (note k b).length
  injective : ∀ k, marked k → Function.Injective (note k)
  constant : ∀ k, ¬marked k → ∀ a b, note k a = note k b

variable {marked : κ → Prop} {note : κ → Nat → List β} {items items' : List (Item κ)} {item : Item κ} {stop before last : ℤ}

theorem Item.roundUp_eq (hpos : 0 < item.align) (hx : (x : ℤ) = stop - before) :
    (roundUp item.align x : ℤ) = roundUp item.align item.place - item.lost stop before := by
  rw [roundUp_eq_sub hpos (dvd_roundUp item.align item.place) x, Item.lost, hx]
  ring_nf

/-- The cursor is at the place of an item when nothing is lost there. -/
theorem Item.roundUp_eq_place_iff (hpos : 0 < item.align) (hx : (x : ℤ) = stop - before) :
    roundUp item.align x = item.place ↔ item.align ∣ item.place ∧ item.lost stop before = 0 := by
  have heq := item.roundUp_eq hpos hx
  constructor
  · intro h
    have hdvd : item.align ∣ item.place := h ▸ dvd_roundUp item.align x
    rw [roundUp_of_dvd hdvd] at heq
    exact ⟨hdvd, by omega⟩
  · rintro ⟨hdvd, hlost⟩
    rw [roundUp_of_dvd hdvd] at heq
    omega

theorem passes_snd (hpos : ∀ item ∈ items, 0 < item.align) (hx : (x : ℤ) = stop - before) :
    (last - (passes note x items).2 : ℤ) = lostUpTo last stop before items := by
  induction items generalizing x stop before with
  | nil =>
    rw [passes, lostUpTo, hx]
    ring
  | cons item items ih =>
    rw [List.forall_mem_cons] at hpos
    refine ih hpos.2 ?_
    rw [Nat.cast_add, item.roundUp_eq hpos.1 hx, Item.stop]
    ring

/-- The marked items are noted at their places exactly when nothing is lost there. -/
theorem passes_fst_iff (hnote : Telling marked note) (hpos : ∀ item ∈ items, 0 < item.align) (hx : (x : ℤ) = stop - before) :
    (passes note x items).1 = wanted note items ↔ Kept marked stop before items := by
  induction items generalizing x stop before with
  | nil => exact iff_of_true rfl trivial
  | cons item items ih =>
    rw [List.forall_mem_cons] at hpos
    have hnext : ((roundUp item.align x + item.size : Nat) : ℤ) = item.stop - item.lost stop before := by
      rw [Nat.cast_add, item.roundUp_eq hpos.1 hx, Item.stop]
      ring
    have hsplit : (passes note x (item :: items)).1 = wanted note (item :: items) ↔
        note item.mark (roundUp item.align x) = note item.mark item.place ∧
          (passes note (roundUp item.align x + item.size) items).1 = wanted note items :=
      ⟨fun h => List.append_inj h (hnote.length _ _ _), fun ⟨hfirst, hrest⟩ => congrArg₂ (· ++ ·) hfirst hrest⟩
    rw [hsplit, ih hpos.2 hnext, Kept]
    refine and_congr_left fun _ => ?_
    by_cases hmark : marked item.mark
    · rw [(hnote.injective _ hmark).eq_iff, item.roundUp_eq_place_iff hpos.1 hx]
      exact ⟨fun h _ => h, fun h => h hmark⟩
    · exact iff_of_true (hnote.constant _ hmark _ _) fun h => absurd h hmark

theorem length_passes (hnote : Telling marked note) (items : List (Item κ)) (x : Nat) :
    (passes note x items).1.length = (wanted note items).length := by
  induction items generalizing x with
  | nil => rfl
  | cons item items ih =>
    rw [passes, wanted, List.flatMap_cons, List.length_append, List.length_append, ih, hnote.length _ _ item.place]
    rfl

/-! ### Runs in a row -/

theorem passes_append (note : κ → Nat → List β) (x : Nat) (items items' : List (Item κ)) :
    passes note x (items ++ items') =
      ((passes note x items).1 ++ (passes note (passes note x items).2 items').1, (passes note (passes note x items).2 items').2) := by
  induction items generalizing x with
  | nil => rfl
  | cons item items ih =>
    rw [List.cons_append, passes, ih, passes]
    dsimp only
    rw [List.append_assoc]

theorem wanted_append (note : κ → Nat → List β) (items items' : List (Item κ)) :
    wanted note (items ++ items') = wanted note items ++ wanted note items' := List.flatMap_append

end CapTaint.Cursor
