import Mathlib

/-! # Numbers at offsets

Numbers that lie at byte offsets, one behind the other, make one number, and they can be taken out of it again. -/

namespace CapTaint.Placed

variable {base total : Nat} {offsets sizes values : List Nat}

/-- The offsets are in order from `base` on, with space for the sizes up to `total`. -/
def Fits : Nat → List Nat → List Nat → Nat → Prop
  | base, [], [], total => base ≤ total
  | base, o :: offsets, n :: sizes, total => base ≤ o ∧ Fits (o + n) offsets sizes total
  | _, [], _ :: _, _ => False
  | _, _ :: _, [], _ => False

/-- The number that the numbers at the offsets make. -/
def placed : List Nat → List Nat → Nat
  | o :: offsets, v :: values => v * 256 ^ o + placed offsets values
  | [], _ => 0
  | _ :: _, [] => 0

/-- The numbers of the sizes at the offsets. -/
def taken (x : Nat) (offsets sizes : List Nat) : List Nat := List.zipWith (fun o n => x / 256 ^ o % 256 ^ n) offsets sizes

/-- Each number has its size. -/
def Sized (values sizes : List Nat) : Prop := List.Forall₂ (fun v n => v < 256 ^ n) values sizes

theorem Fits.le : ∀ {base : Nat} {offsets sizes : List Nat}, Fits base offsets sizes total → base ≤ total
  | _, [], [], h => h
  | _, _ :: _, _ :: _, h => h.1.trans ((Nat.le_add_right _ _).trans h.2.le)

theorem Fits.mono {total' : Nat} (hle : total ≤ total') : ∀ {base : Nat} {offsets sizes : List Nat},
    Fits base offsets sizes total → Fits base offsets sizes total'
  | _, [], [], h => Nat.le_trans h hle
  | _, _ :: _, _ :: _, h => ⟨h.1, h.2.mono hle⟩

theorem Fits.lower {base' : Nat} (hle : base' ≤ base) : ∀ {offsets sizes : List Nat}, Fits base offsets sizes total →
    Fits base' offsets sizes total
  | [], [], h => hle.trans h
  | _ :: _, _ :: _, h => ⟨hle.trans h.1, h.2⟩

theorem Fits.length : ∀ {base : Nat} {offsets sizes : List Nat}, Fits base offsets sizes total → sizes.length = offsets.length
  | _, [], [], _ => rfl
  | _, _ :: _, _ :: _, h => congrArg Nat.succ h.2.length

theorem Fits.le_headD : ∀ {base : Nat} {offsets sizes : List Nat}, Fits base offsets sizes total → base ≤ offsets.headD total
  | _, [], [], h => h
  | _, _ :: _, _ :: _, h => h.1

theorem dvd_placed : ∀ {base : Nat} {offsets sizes : List Nat} (values : List Nat), Fits base offsets sizes total →
    256 ^ base ∣ placed offsets values
  | _, [], _, values, _ => dvd_zero _
  | _, _ :: _, _ :: _, [], _ => dvd_zero _
  | base, o :: offsets, n :: sizes, v :: values, h => by
    have hrest := dvd_placed values h.2
    exact dvd_add (Dvd.dvd.mul_left (pow_dvd_pow 256 h.1) v) ((pow_dvd_pow 256 (h.1.trans (Nat.le_add_right _ _))).trans hrest)

/-- The number in front leaves the others where they are. -/
theorem front_lt {v o n : Nat} (hv : v < 256 ^ n) : v * 256 ^ o < 256 ^ (o + n) := by
  rw [pow_add, Nat.mul_comm (256 ^ o)]
  exact Nat.mul_lt_mul_of_pos_right hv (Nat.pow_pos (by decide))

theorem div_of_ge {a rest m k : Nat} (ha : a < 256 ^ m) (hrest : 256 ^ m ∣ rest) (hk : m ≤ k) :
    (a + rest) / 256 ^ k = rest / 256 ^ k := by
  obtain ⟨q, rfl⟩ := hrest
  obtain ⟨d, rfl⟩ := Nat.exists_eq_add_of_le hk
  have hpos : 0 < 256 ^ m := Nat.pow_pos (by decide)
  rw [pow_add, ← Nat.div_div_eq_div_mul, ← Nat.div_div_eq_div_mul, Nat.add_mul_div_left _ _ hpos, Nat.div_eq_of_lt ha,
    Nat.zero_add, Nat.mul_div_cancel_left _ hpos]

theorem placed_lt : ∀ {base : Nat} {offsets sizes values : List Nat}, Fits base offsets sizes total → Sized values sizes →
    placed offsets values < 256 ^ total
  | _, [], _, _, _, _ => Nat.pow_pos (by decide)
  | _, o :: offsets, n :: sizes, v :: values, h, hvalues => by
    obtain ⟨hv, hvalues⟩ := List.forall₂_cons.mp hvalues
    obtain ⟨q, hq⟩ := dvd_placed values h.2
    have hlt := placed_lt h.2 hvalues
    obtain ⟨d, hd⟩ := Nat.exists_eq_add_of_le h.2.le
    have hfront := front_lt (o := o) hv
    rw [placed, hq]
    rw [hq, hd, pow_add 256 (o + n)] at hlt
    have hqd : q + 1 ≤ 256 ^ d := Nat.lt_of_mul_lt_mul_left hlt
    calc v * 256 ^ o + 256 ^ (o + n) * q < 256 ^ (o + n) * (q + 1) := by rw [Nat.mul_succ]; omega
      _ ≤ 256 ^ (o + n) * 256 ^ d := Nat.mul_le_mul_left _ hqd
      _ = 256 ^ total := by rw [hd, ← pow_add]

/-- The first number is at its offset. -/
theorem head_placed {o n v : Nat} (h : Fits base (o :: offsets) (n :: sizes) total) :
    (v * 256 ^ o + placed offsets values) / 256 ^ o = v + 256 ^ n * (placed offsets values / 256 ^ (o + n)) := by
  obtain ⟨q, hq⟩ := dvd_placed values h.2
  have hpos : 0 < 256 ^ o := Nat.pow_pos (by decide)
  rw [hq, Nat.mul_div_cancel_left _ (Nat.pow_pos (by decide)), pow_add, Nat.mul_assoc, Nat.mul_comm v, ← Nat.mul_add,
    Nat.mul_div_cancel_left _ hpos]

/-- A number below the first offset is not seen. -/
theorem taken_add {m a x : Nat} (ha : a < 256 ^ m) (hx : 256 ^ m ∣ x) : ∀ {base : Nat} {offsets sizes : List Nat}, m ≤ base →
    Fits base offsets sizes total → taken (a + x) offsets sizes = taken x offsets sizes
  | _, [], [], _, _ => rfl
  | _, o :: offsets, n :: sizes, hle, h => by
    have hoffset := hle.trans h.1
    have htail := taken_add ha hx (hoffset.trans (Nat.le_add_right o n)) h.2
    rw [taken, taken, List.zipWith_cons_cons, List.zipWith_cons_cons, div_of_ge ha hx hoffset]
    exact congrArg _ htail

/-- What has been placed is taken out. -/
theorem taken_placed : ∀ {base : Nat} {offsets sizes values : List Nat}, Fits base offsets sizes total → Sized values sizes →
    taken (placed offsets values) offsets sizes = values
  | _, [], [], values, _, hvalues => by
    cases hvalues
    rfl
  | base, o :: offsets, n :: sizes, v :: values, h, hvalues => by
    obtain ⟨hv, hvalues⟩ := List.forall₂_cons.mp hvalues
    have htail := taken_add (front_lt (o := o) hv) (dvd_placed values h.2) le_rfl h.2
    rw [taken_placed h.2 hvalues] at htail
    rw [placed, taken, List.zipWith_cons_cons, head_placed h, Nat.add_mul_mod_self_left, Nat.mod_eq_of_lt hv]
    exact congrArg _ htail

/-! ### Lists of items -/

section
variable {β : Type*} {f g : β → Nat} {x o : Nat} {b : β}

theorem exists_mem_zip : ∀ {offsets : List Nat} {items : List β}, items.length ≤ offsets.length → b ∈ items →
    ∃ o, (o, b) ∈ offsets.zip items
  | _, [], _, hb => absurd hb List.not_mem_nil
  | o :: offsets, item :: items, hlength, hb => by
    rcases List.mem_cons.mp hb with rfl | hb
    · exact ⟨o, List.mem_cons_self⟩
    · obtain ⟨o', ho'⟩ := exists_mem_zip (Nat.le_of_succ_le_succ hlength) hb
      exact ⟨o', List.mem_cons_of_mem _ ho'⟩

theorem Fits.le_of_mem_zip : ∀ {base : Nat} {offsets : List Nat} {items : List β}, Fits base offsets (items.map f) total →
    (o, b) ∈ offsets.zip items → o + f b ≤ total
  | _, [], _, _, hb => absurd hb List.not_mem_nil
  | _, o' :: offsets, item :: items, h, hb => by
    rcases List.mem_cons.mp hb with heq | hb
    · cases heq
      exact h.2.le
    · exact h.2.le_of_mem_zip hb

theorem taken_of_mem_zip : ∀ {offsets : List Nat} {items : List β}, taken x offsets (items.map f) = items.map g →
    (o, b) ∈ offsets.zip items → x / 256 ^ o % 256 ^ f b = g b
  | [], [], _, hb => absurd hb List.not_mem_nil
  | o' :: offsets, item :: items, h, hb => by
    obtain ⟨hfirst, hrest⟩ := List.cons_eq_cons.mp h
    rcases List.mem_cons.mp hb with heq | hb
    · cases heq
      exact hfirst
    · exact taken_of_mem_zip hrest hb

end

/-! ### Bytes -/

theorem front_byte {v o n k x : Nat} (hx : 256 ^ (o + n) ∣ x) (hk : k < n) : (v * 256 ^ o + x) / 256 ^ (o + k) % 256 = v / 256 ^ k % 256 := by
  obtain ⟨q, rfl⟩ := hx
  obtain ⟨t, rfl⟩ := Nat.exists_eq_add_of_lt hk
  have hsum : v * 256 ^ o + 256 ^ (o + (k + t + 1)) * q = 256 ^ o * (v + 256 ^ k * (256 * (256 ^ t * q))) := by ring
  rw [hsum, pow_add, ← Nat.div_div_eq_div_mul, Nat.mul_div_cancel_left _ (Nat.pow_pos (by decide)),
    Nat.add_mul_div_left _ _ (Nat.pow_pos (by decide)), Nat.add_mul_mod_self_left]

theorem gap_byte {x k : Nat} (hx : 256 ^ (k + 1) ∣ x) : x / 256 ^ k % 256 = 0 := by
  obtain ⟨q, rfl⟩ := hx
  rw [pow_succ, Nat.mul_assoc, Nat.mul_div_cancel_left _ (Nat.pow_pos (by decide)), Nat.mul_mod_right]

end CapTaint.Placed
