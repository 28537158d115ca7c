import CapTaint.Theorems.InitializeGlobalObject

/-! # Constants are their images

The number that `evalConstant` makes of a constant is the one that lies in memory, exactly when its data arrays read the same
in both directions, its arrays have no padding between their elements, and all of its parts have a size. -/

namespace CapTaint.EvalConstant

open Cursor (roundUp roundUp_of_dvd)
open Placed

variable {layout : DataLayout} {c c' : Constant} {type : SizedType} {operands : List Constant} {offset total : Nat}

/-! ### Concatenations -/

def totalWidth (kids : List ConstantExpr) : Nat := (kids.map ConstantExpr.width).sum

theorem totalWidth_cons (kid : ConstantExpr) (kids : List ConstantExpr) : totalWidth (kid :: kids) = kid.width + totalWidth kids := by
  rw [totalWidth, List.map_cons, List.sum_cons]
  rfl

/-- The number that the kids make, the first of them the most significant. -/
def concatNumber : List ConstantExpr → Nat
  | [] => 0
  | kid :: kids => kid.value * 2 ^ totalWidth kids + concatNumber kids

theorem concatNumber_append : ∀ xs ys : List ConstantExpr,
    concatNumber (xs ++ ys) = concatNumber xs * 2 ^ totalWidth ys + concatNumber ys
  | [], ys => by rw [List.nil_append, concatNumber, Nat.zero_mul, Nat.zero_add]
  | x :: xs, ys => by
    have hwidth : totalWidth (xs ++ ys) = totalWidth xs + totalWidth ys := by
      rw [totalWidth, List.map_append, List.sum_append]
      rfl
    rw [List.cons_append, concatNumber, concatNumber, concatNumber_append xs ys, hwidth, pow_add, Nat.add_mul, Nat.mul_assoc, Nat.add_assoc]

theorem concat_eq_some {l r e : ConstantExpr} (h : l.concat r = some e) :
    e.width = l.width + r.width ∧ e.value = l.value * 2 ^ r.width + r.value := by
  rw [ConstantExpr.concat] at h
  split_ifs at h with hlt
  cases h
  refine ⟨rfl, ?_⟩
  show l.value <<< r.width ||| r.value = _
  rw [← Nat.shiftLeft_add_eq_or_of_lt r.value_lt, Nat.shiftLeft_eq]

theorem createN_eq_some : ∀ {kids : List ConstantExpr} {e : ConstantExpr}, ConstantExpr.createN kids = some e →
    kids ≠ [] ∧ e.width = totalWidth kids ∧ e.value = concatNumber kids
  | [kid], e, h => by
    cases h
    refine ⟨List.cons_ne_nil _ _, ?_, ?_⟩
    · rw [totalWidth, List.map_singleton, List.sum_singleton]
    · rw [concatNumber, concatNumber, totalWidth, List.map_nil, List.sum_nil, pow_zero, Nat.mul_one, Nat.add_zero]
  | kid :: kid' :: kids, e, h => by
    obtain ⟨r, hr, h⟩ := Option.bind_eq_some_iff.mp h
    obtain ⟨-, hwidth, hvalue⟩ := createN_eq_some hr
    obtain ⟨hw, hv⟩ := concat_eq_some h
    refine ⟨List.cons_ne_nil _ _, ?_, ?_⟩
    · rw [hw, hwidth, totalWidth_cons kid]
    · rw [hv, hwidth, hvalue]
      rfl

theorem createN_of_lt : ∀ {kids : List ConstantExpr}, kids ≠ [] → totalWidth kids < 2 ^ 32 → ∃ e, ConstantExpr.createN kids = some e
  | [], h, _ => absurd rfl h
  | [kid], _, _ => ⟨kid, rfl⟩
  | kid :: kid' :: kids, _, h => by
    have hsum := totalWidth_cons kid (kid' :: kids)
    obtain ⟨r, hr⟩ := createN_of_lt (List.cons_ne_nil kid' kids) (by omega)
    have hwidth := (createN_eq_some hr).2.1
    rw [ConstantExpr.createN, hr, Option.bind_some, ConstantExpr.concat, dif_pos (by omega)]
    exact ⟨_, rfl⟩

theorem totalWidth_reverse (kids : List ConstantExpr) : totalWidth kids.reverse = totalWidth kids := by
  rw [totalWidth, List.map_reverse, List.sum_reverse]
  rfl

/-- The kids of an array lie at the strides, the first one at the bottom. -/
theorem concatNumber_reverse {n : Nat} : ∀ {kids : List ConstantExpr} (i : Nat), (∀ kid ∈ kids, kid.width = n * 8) →
    concatNumber kids.reverse * 256 ^ (i * n) = placed (stridesFrom n i kids.length) (kids.map ConstantExpr.value)
  | [], i, _ => by rw [List.reverse_nil, concatNumber, Nat.zero_mul]; rfl
  | kid :: kids, i, h => by
    obtain ⟨hkid, hkids⟩ := List.forall_mem_cons.mp h
    have hrest := concatNumber_reverse (i + 1) hkids
    have hwidth : 2 ^ totalWidth [kid] = 256 ^ n := by
      rw [totalWidth, List.map_singleton, List.sum_singleton, hkid, show 256 = 2 ^ 8 from rfl, ← pow_mul, Nat.mul_comm]
    have hlast : concatNumber [kid] = kid.value := (createN_eq_some (rfl : ConstantExpr.createN [kid] = some kid)).2.2.symm
    rw [List.reverse_cons, concatNumber_append, hwidth, hlast, List.length_cons, stridesFrom, List.map_cons, placed, ← hrest, Nat.add_mul,
      Nat.mul_assoc, ← pow_add, Nat.add_comm n, ← Nat.succ_mul, Nat.add_comm]

/-- The kids of a struct lie at their offsets, with padding between them. -/
theorem structKids_eq : ∀ {base : Nat} {offsets sizes : List Nat} {kids : List ConstantExpr}, Fits base offsets sizes total →
    List.Forall₂ (fun (kid : ConstantExpr) n => kid.width ≤ n * 8) kids sizes → total * 8 < 2 ^ 32 →
    ∃ all, structKids kids offsets total = some all ∧ totalWidth all + offsets.headD total * 8 = total * 8 ∧
      concatNumber all * 256 ^ offsets.headD total = placed offsets (kids.map ConstantExpr.value) ∧ (kids ≠ [] → all ≠ [])
  | _, [], [], [], _, _, _ => by
    refine ⟨[], by rw [structKids], ?_, ?_, fun h => absurd rfl h⟩
    · rw [totalWidth, List.map_nil, List.sum_nil, Nat.zero_add, List.headD_nil]
    · rw [concatNumber, Nat.zero_mul]
      rfl
  | _, o :: offsets, n :: sizes, kid :: kids, hfits, hkids, htotal => by
    obtain ⟨hkid, hkids⟩ := List.forall₂_cons.mp hkids
    obtain ⟨all, hall, hwidth, hvalue, -⟩ := structKids_eq hfits.2 hkids htotal
    have hnext := hfits.2.le_headD
    have hspace : o * 8 + n * 8 ≤ offsets.headD total * 8 := by omega
    have hlast : ∃ last, structKids (kid :: kids) (o :: offsets) total = some (all ++ last) ∧
        totalWidth last = offsets.headD total * 8 - o * 8 ∧ concatNumber last = kid.value ∧ last ≠ [] := by
      have hone : totalWidth [kid] = kid.width := (createN_eq_some (rfl : ConstantExpr.createN [kid] = some kid)).2.1.symm
      have hvalue : concatNumber [kid] = kid.value := (createN_eq_some (rfl : ConstantExpr.createN [kid] = some kid)).2.2.symm
      have hheadD : offsets.headD total * 8 ≤ total * 8 := by omega
      rw [structKids, hall]
      by_cases hpad : kid.width < offsets.headD total * 8 - o * 8
      · obtain ⟨padding, halloc, hwidth, hzero⟩ : ∃ padding, ConstantExpr.alloc 0 (offsets.headD total * 8 - o * 8 - kid.width) =
            some padding ∧ padding.width = offsets.headD total * 8 - o * 8 - kid.width ∧ padding.value = 0 :=
          ⟨_, alloc_of_lt (by omega) (by omega) (Nat.two_pow_pos _), rfl, rfl⟩
        refine ⟨[padding, kid], ?_, ?_, ?_, List.cons_ne_nil _ _⟩
        · show (if _ then _ else _) = _
          rw [if_pos hpad, halloc]
          rfl
        · rw [totalWidth_cons, hone]
          omega
        · rw [concatNumber, hzero, Nat.zero_mul, Nat.zero_add, hvalue]
      · refine ⟨[kid], ?_, by omega, hvalue, List.cons_ne_nil _ _⟩
        show (if _ then _ else _) = _
        rw [if_neg hpad]
        rfl
    obtain ⟨last, hkids', hwidth', hvalue', hne⟩ := hlast
    refine ⟨all ++ last, hkids', ?_, ?_, fun _ h => hne (List.append_eq_nil_iff.mp h).2⟩
    · have hsum : totalWidth (all ++ last) = totalWidth all + totalWidth last := by
        rw [totalWidth, List.map_append, List.sum_append]
        rfl
      rw [hsum, hwidth', List.headD_cons]
      omega
    · obtain ⟨d, hd⟩ := Nat.exists_eq_add_of_le (show o ≤ offsets.headD total by omega)
      have hpow : 2 ^ (offsets.headD total * 8 - o * 8) = 256 ^ d := by
        rw [show 256 = 2 ^ 8 from rfl, ← pow_mul]
        congr 1
        omega
      rw [concatNumber_append, hwidth', hvalue', hpow, List.headD_cons, List.map_cons, placed, ← hvalue, hd, pow_add, Nat.add_mul,
        Nat.mul_assoc, Nat.mul_comm (256 ^ d), Nat.add_comm]

/-! ### Elements -/

/-- The parts of a constant with their offsets, as deep as the indices go. -/
inductive Element (layout : DataLayout) : Constant → Nat → Constant → Prop
  | self (c : Constant) : Element layout c 0 c
  | inside {c c' c'' : Constant} {o o' : Nat} : (o, c') ∈ (elementOffsetsOf layout c.type).zip c.elements →
    Element layout c' o' c'' → Element layout c (o + o') c''

theorem mod_div_mod {x k a b : Nat} (h : a + b ≤ k) : x % 2 ^ k / 2 ^ a % 2 ^ b = x / 2 ^ a % 2 ^ b := by
  refine Nat.eq_of_testBit_eq fun i => ?_
  simp only [Nat.testBit_mod_two_pow, Nat.testBit_div_two_pow]
  by_cases hi : i < b
  · have hk : i + a < k := by omega
    simp [hi, hk]
  · simp [hi]

theorem part_image {o : Nat} (hc : WellTyped c) (h : (o, c') ∈ (elementOffsetsOf layout c.type).zip c.elements) :
    o * 8 + sizeInBits layout c'.type ≤ sizeInBits layout c.type ∧
      image layout c / 256 ^ o % 256 ^ storeSize layout c'.type = image layout c' := by
  have hfits := (hc.fits layout).le_of_mem_zip h
  have hbits := sizeInBits_le layout c'.type
  have hnumber : ∀ value, c ≠ .number value := by
    rintro value rfl
    exact absurd (List.of_mem_zip h).2 List.not_mem_nil
  refine ⟨by omega, ?_⟩
  have hsized := sized_elements hc fun c'' hc'' => image_lt layout c'' (hc.elements c'' hc'')
  have htaken := taken_placed (fits_type layout c.type) hsized
  rw [← image_eq_placed hnumber, ← hc.elementTypes, List.map_map] at htaken
  exact taken_of_mem_zip htaken h

/-- An element lies in the image at its offset. -/
theorem element_image {o : Nat} (h : Element layout c o c') (hc : WellTyped c) :
    WellTyped c' ∧ o * 8 + sizeInBits layout c'.type ≤ sizeInBits layout c.type ∧
      image layout c / 2 ^ (o * 8) % 2 ^ sizeInBits layout c'.type = image layout c' := by
  induction h with
  | self c =>
    refine ⟨hc, by omega, ?_⟩
    rw [Nat.zero_mul, pow_zero, Nat.div_one, Nat.mod_eq_of_lt (image_lt layout c hc)]
  | @inside c c' c'' o o' hpart _ ih =>
    obtain ⟨hfits, himage⟩ := part_image hc hpart
    obtain ⟨hc'', hfits', himage'⟩ := ih (hc.elements c' (List.of_mem_zip hpart).2)
    have hbits := sizeInBits_le layout c'.type
    refine ⟨hc'', by omega, ?_⟩
    have hpow : ∀ n, 256 ^ n = 2 ^ (n * 8) := fun n => by rw [show 256 = 2 ^ 8 from rfl, ← pow_mul, Nat.mul_comm]
    rw [hpow, hpow] at himage
    rw [← himage, mod_div_mod (by omega), Nat.div_div_eq_div_mul, ← pow_add, ← Nat.add_mul] at himage'
    exact himage'

/-! ### Evaluation -/

theorem evalOperands_eq_some : ∀ {operands : List Constant} {kids : List ConstantExpr},
    evalOperands layout operands = some kids ↔ List.Forall₂ (fun c e => evalConstant layout c = some e) operands kids
  | [], kids => by
    rw [evalOperands, Option.some.injEq, List.forall₂_nil_left_iff, eq_comm]
  | operand :: operands, kids => by
    rw [evalOperands]
    constructor
    · intro h
      obtain ⟨kid, hkid, h⟩ := Option.bind_eq_some_iff.mp h
      obtain ⟨kids', hkids, h⟩ := Option.bind_eq_some_iff.mp h
      cases h
      exact .cons hkid (evalOperands_eq_some.mp hkids)
    · intro h
      obtain ⟨kid, kids', hkid, hkids, rfl⟩ := List.forall₂_cons_left_iff.mp h
      rw [hkid, evalOperands_eq_some.mpr hkids]
      rfl

theorem mapM_evalNumber : ∀ values : List Number, values.mapM (evalNumber layout) = evalOperands layout (values.map .number)
  | [] => by rw [List.map_nil, evalOperands]; rfl
  | value :: values => by
    rw [List.mapM_cons, List.map_cons, evalOperands, evalConstant, mapM_evalNumber values]

/-- The constant evaluates to its image. -/
def Evaluates (layout : DataLayout) (c : Constant) : Prop :=
  evalConstant layout c = ConstantExpr.alloc (image layout c) (sizeInBits layout c.type)

theorem alloc_mod {value width : Nat} (h : width < 2 ^ 32) : ConstantExpr.alloc (value % 2 ^ width) width = ConstantExpr.alloc value width := by
  rw [ConstantExpr.alloc, ConstantExpr.alloc]
  by_cases hpos : 0 < width % 2 ^ 32
  · rw [dif_pos hpos, dif_pos hpos]
    refine congrArg some (ConstantExpr.ext rfl ?_)
    show value % 2 ^ width % 2 ^ (width % 2 ^ 32) = value % 2 ^ (width % 2 ^ 32)
    rw [Nat.mod_eq_of_lt h, Nat.mod_mod]
  · rw [dif_neg hpos, dif_neg hpos]

theorem extractValue_eq {e : ConstantExpr} (h : offset * 8 + sizeInBits layout type ≤ e.width) :
    extractValue layout e offset type = ConstantExpr.alloc (e.value / 2 ^ (offset * 8)) (sizeInBits layout type) := by
  have hlt := e.width_lt
  rw [extractValue, ConstantExpr.extract, ConstantExpr.alloc]
  have hoffset : offset * 8 % 2 ^ 32 = offset * 8 := Nat.mod_eq_of_lt (by omega)
  have hwidth : sizeInBits layout type % 2 ^ 32 = sizeInBits layout type := Nat.mod_eq_of_lt (by omega)
  by_cases hpos : 0 < sizeInBits layout type % 2 ^ 32
  · rw [dif_pos hpos, dif_pos ⟨hpos, by rw [hoffset, hwidth]; exact h⟩]
    refine congrArg some (ConstantExpr.ext rfl ?_)
    show e.value >>> (offset * 8 % 2 ^ 32) % _ = _
    rw [hoffset, Nat.shiftRight_eq_div_pow]
  · rw [dif_neg hpos, dif_neg fun h => hpos h.1]

/-! ### The condition -/

/-- The little-endian number in the bytes from an offset on. -/
def readBytes (m : Memory) (offset : Nat) : Nat → Nat
  | 0 => 0
  | n + 1 => (m offset).toNat + 256 * readBytes m (offset + 1) n

theorem readBytes_wrote (m : Memory) {n x : Nat} : ∀ {k j : Nat}, j + k ≤ n →
    readBytes (wrote m 0 0 n x) j k = x / 256 ^ j % 256 ^ k
  | 0, j, _ => by rw [readBytes, pow_zero, Nat.mod_one]
  | k + 1, j, h => by
    rw [readBytes, readBytes_wrote m (by omega : j + 1 + k ≤ n), wrote, if_pos (by omega), BitVec.toNat_ofNat, Nat.sub_zero, pow_succ 256 j,
      ← Nat.div_div_eq_div_mul]
    exact ((congrArg (x / 256 ^ j % ·) (pow_succ' 256 k)).trans Nat.mod_mul).symm

/-- The number of the constant has the width of its type and is the one that lies in a zeroed object after the
    initialization, and its elements are taken out of it. -/
def IsImage (layout : DataLayout) (c : Constant) : Prop :=
  ∃ e m, evalConstant layout c = some e ∧ e.width = sizeInBits layout c.type ∧
    initializeGlobalObject layout c 0 (fun _ => 0) = some m ∧ e.value = readBytes m 0 (storeSize layout c.type) ∧
    ∀ offset c', Element layout c offset c' → extractValue layout e offset c'.type = evalConstant layout c'

section
variable (layout)

mutual
/-- The numbers can be written. Data arrays read the same in both directions. The elements of an array follow each other
    without padding. Nothing is empty. -/
def Faithful : Constant → Prop
  | .number value => Written (layout.scalarSizeInBits value.type)
  | .null => Written layout.pointerSizeInBits
  | .aggregateZero type => 0 < sizeInBits layout type
  | .data element elements => elements ≠ [] ∧ Written (layout.scalarSizeInBits element) ∧
    layout.scalarSizeInBits element = allocSize layout (.scalar element) * 8 ∧ elements.reverse = elements
  | .array element operands => operands ≠ [] ∧ sizeInBits layout element = allocSize layout element * 8 ∧ AllFaithful operands
  | .struct _ operands => operands ≠ [] ∧ AllFaithful operands

def AllFaithful : List Constant → Prop
  | [] => True
  | operand :: operands => Faithful operand ∧ AllFaithful operands
end

end

theorem allFaithful_iff : AllFaithful layout operands ↔ ∀ operand ∈ operands, Faithful layout operand := by
  induction operands with
  | nil => simp [AllFaithful]
  | cons operand operands ih => rw [AllFaithful, List.forall_mem_cons, ih]

theorem Faithful.writes : ∀ c : Constant, WellTyped c → Faithful layout c → Writes layout c := by
  refine Constant.inductOperands ?number ?null ?zero ?data ?array ?struct
  case number => exact fun _ _ h => h
  case null => exact fun _ h => h
  case zero => exact fun _ _ _ => trivial
  case data =>
    intro element values hc h value hvalue
    rw [hc value hvalue]
    exact h.2.1
  case array =>
    exact fun element operands ih hc h => allWrite_iff.mpr fun c' hc' => ih c' hc' (hc.elements c' hc') (allFaithful_iff.mp h.2.2 c' hc')
  case struct =>
    exact fun isPacked operands ih hc h => allWrite_iff.mpr fun c' hc' => ih c' hc' (hc.elements c' hc') (allFaithful_iff.mp h.2 c' hc')

/-- An aggregate is no smaller than its elements. -/
theorem WellTyped.le (layout : DataLayout) (hc : WellTyped c) (hc' : c' ∈ c.elements) :
    sizeInBits layout c'.type ≤ sizeInBits layout c.type := by
  obtain ⟨o, ho⟩ := exists_mem_zip (hc.length layout) hc'
  have hfits := (part_image hc ho).1
  omega

theorem Faithful.pos : ∀ c : Constant, WellTyped c → Faithful layout c → 0 < sizeInBits layout c.type := by
  refine Constant.inductOperands ?number ?null ?zero ?data ?array ?struct
  case number => exact fun _ _ h => h.1
  case null => exact fun _ h => h.1
  case zero => exact fun _ _ h => h
  case data =>
    intro element values hc h
    obtain ⟨value, hvalue⟩ := List.exists_mem_of_ne_nil _ h.1
    have hle := hc.le layout (List.mem_map_of_mem hvalue : Constant.number value ∈ values.map Constant.number)
    refine lt_of_lt_of_le ?_ hle
    show 0 < layout.scalarSizeInBits value.type
    rw [hc value hvalue]
    exact h.2.1.1
  case array =>
    intro element operands ih hc h
    obtain ⟨c', hc'⟩ := List.exists_mem_of_ne_nil _ h.1
    exact (ih c' hc' (hc.elements c' hc') (allFaithful_iff.mp h.2.2 c' hc')).trans_le (hc.le layout hc')
  case struct =>
    intro isPacked operands ih hc h
    obtain ⟨c', hc'⟩ := List.exists_mem_of_ne_nil _ h.1
    exact (ih c' hc' (hc.elements c' hc') (allFaithful_iff.mp h.2 c' hc')).trans_le (hc.le layout hc')

/-- The kids of constants that evaluate to their images. -/
theorem exists_kids : ∀ {cs : List Constant}, (∀ c ∈ cs, Evaluates layout c ∧ 0 < sizeInBits layout c.type ∧
      sizeInBits layout c.type < 2 ^ 32 ∧ image layout c < 2 ^ sizeInBits layout c.type) →
    ∃ kids, evalOperands layout cs = some kids ∧ kids.map ConstantExpr.width = cs.map (fun c => sizeInBits layout c.type) ∧
      kids.map ConstantExpr.value = cs.map (image layout)
  | [], _ => ⟨[], by rw [evalOperands], rfl, rfl⟩
  | c :: cs, h => by
    obtain ⟨⟨heval, hpos, hlt, hvalue⟩, hrest⟩ := List.forall_mem_cons.mp h
    obtain ⟨kids, hkids, hwidths, hvalues⟩ := exists_kids hrest
    obtain ⟨kid, hkid, hw, hv⟩ : ∃ kid, evalConstant layout c = some kid ∧ kid.width = sizeInBits layout c.type ∧
        kid.value = image layout c := ⟨_, heval.trans (alloc_of_lt hpos hlt hvalue), rfl, rfl⟩
    refine ⟨kid :: kids, ?_, ?_, ?_⟩
    · rw [evalOperands, hkid, hkids]
      rfl
    · rw [List.map_cons, List.map_cons, hwidths, hw]
    · rw [List.map_cons, List.map_cons, hvalues, hv]

theorem alloc_of_eq {e : ConstantExpr} {value width : Nat} (hw : e.width = width) (hv : e.value = value) :
    ConstantExpr.alloc value width = some e := by
  subst hw hv
  exact alloc_of_lt e.width_pos e.width_lt e.value_lt

theorem evaluates_nullValue (layout : DataLayout) (type : SizedType) : Evaluates layout (nullValue type) := by
  rcases type with (width | kind | _) | ⟨element, num⟩ | ⟨element, num⟩ | ⟨isPacked, elements⟩ <;> rfl

/-- The kids of an array without padding. -/
theorem createN_reverse {n : Nat} {kids : List ConstantExpr} (hne : kids ≠ []) (hwidths : ∀ kid ∈ kids, kid.width = n * 8)
    (hlt : kids.length * n * 8 < 2 ^ 32) : ∃ e, ConstantExpr.createN kids.reverse = some e ∧ e.width = kids.length * n * 8 ∧
      e.value = placed (stridesFrom n 0 kids.length) (kids.map ConstantExpr.value) := by
  have htotal : totalWidth kids.reverse = kids.length * n * 8 := by
    rw [totalWidth_reverse, totalWidth, map_eq_replicate hwidths, List.sum_replicate, smul_eq_mul, Nat.mul_assoc]
  obtain ⟨e, he⟩ := createN_of_lt (fun h => hne (List.reverse_eq_nil_iff.mp h)) (htotal ▸ hlt)
  obtain ⟨-, hwidth, hvalue⟩ := createN_eq_some he
  have hplaced := concatNumber_reverse 0 hwidths
  rw [Nat.zero_mul, pow_zero, Nat.mul_one] at hplaced
  exact ⟨e, he, hwidth.trans htotal, hvalue.trans hplaced⟩

theorem widths_of_map {cs : List Constant} {kids : List ConstantExpr} {w : Nat}
    (hwidths : kids.map ConstantExpr.width = cs.map fun c => sizeInBits layout c.type) (h : ∀ c ∈ cs, sizeInBits layout c.type = w) :
    ∀ kid ∈ kids, kid.width = w := by
  intro kid hkid
  have hmem : kid.width ∈ cs.map fun c => sizeInBits layout c.type := hwidths ▸ List.mem_map_of_mem hkid
  obtain ⟨c, hc, hw⟩ := List.mem_map.mp hmem
  exact hw.symm.trans (h c hc)

theorem fit_of_map : ∀ {cs : List Constant} {kids : List ConstantExpr},
    kids.map ConstantExpr.width = cs.map (fun c => sizeInBits layout c.type) →
    List.Forall₂ (fun (kid : ConstantExpr) n => kid.width ≤ n * 8) kids (cs.map fun c => storeSize layout c.type)
  | [], [], _ => .nil
  | c :: cs, kid :: kids, h => by
    obtain ⟨hfirst, hrest⟩ := List.cons_eq_cons.mp h
    exact .cons (hfirst.le.trans (sizeInBits_le layout c.type)) (fit_of_map hrest)

theorem evalOperands_reverse {cs : List Constant} {kids : List ConstantExpr} (h : evalOperands layout cs = some kids) :
    evalOperands layout cs.reverse = some kids.reverse :=
  evalOperands_eq_some.mpr (List.rel_reverse (evalOperands_eq_some.mp h))

theorem roundUp_zero (align : Nat) : roundUp align 0 = 0 := roundUp_of_dvd (dvd_zero align)

theorem headD_elementOffsets (isPacked : Bool) (elements : List SizedType) (h : elements ≠ []) (total : Nat) :
    (elementOffsets layout isPacked elements 0).headD total = 0 := by
  rcases elements with _ | ⟨element, elements⟩
  · exact absurd rfl h
  · exact roundUp_zero _

/-- What is known of an element whose image is evaluated. -/
def Ready (layout : DataLayout) (c : Constant) : Prop :=
  Evaluates layout c ∧ 0 < sizeInBits layout c.type ∧ sizeInBits layout c.type < 2 ^ 32 ∧ image layout c < 2 ^ sizeInBits layout c.type

theorem array_evaluates {cs : List Constant} {n : Nat} (hne : cs ≠ []) (hcs : ∀ c ∈ cs, Ready layout c)
    (hsize : ∀ c ∈ cs, sizeInBits layout c.type = n * 8) (hlt : cs.length * n * 8 < 2 ^ 32) :
    ∃ kids, evalOperands layout cs = some kids ∧ ConstantExpr.createN kids.reverse =
      ConstantExpr.alloc (placed (stridesFrom n 0 cs.length) (cs.map (image layout))) (cs.length * n * 8) := by
  obtain ⟨kids, hkids, hwidths, hvalues⟩ := exists_kids hcs
  have hlength : kids.length = cs.length := by
    have hmap := congrArg List.length hwidths
    rwa [List.length_map, List.length_map] at hmap
  have hkids' : kids ≠ [] := fun h => hne (List.length_eq_zero_iff.mp (hlength.symm.trans (h ▸ rfl)))
  obtain ⟨e, he, hw, hv⟩ := createN_reverse hkids' (widths_of_map hwidths hsize) (hlength ▸ hlt)
  rw [hlength] at hw hv
  exact ⟨kids, hkids, he.trans (alloc_of_eq hw (hv.trans (by rw [hvalues]))).symm⟩

/-- An element without padding fills its stride. -/
theorem size_of_space (h : sizeInBits layout type = allocSize layout type * 8) : allocSize layout type = storeSize layout type := by
  have hbits := sizeInBits_le layout type
  have hstore := storeSize_le_allocSize layout type
  omega

theorem sizeInBits_array (element : SizedType) (num : Nat) :
    sizeInBits layout (.array element num) = num * allocSize layout element * 8 := by
  rw [sizeInBits]
  rfl

theorem evaluates : ∀ c : Constant, WellTyped c → Faithful layout c → sizeInBits layout c.type < 2 ^ 32 → Evaluates layout c := by
  refine Constant.inductOperands ?number ?null ?zero ?data ?array ?struct
  case number => exact fun _ _ _ _ => rfl
  case null => exact fun _ _ _ => rfl
  case zero => exact fun _ _ _ _ => rfl
  case data =>
    rintro element values hc ⟨hne, hwritten, hspace, hreverse⟩ hlt
    have hstride : allocSize layout (.scalar element) = storeSize layout (.scalar element) := size_of_space hspace
    have hbits : sizeInBits layout (Constant.data element values).type = values.length * storeSize layout (.scalar element) * 8 := by
      rw [Constant.type, sizeInBits_array, hstride]
    have hready : ∀ c' ∈ values.map Constant.number, Ready layout c' ∧ sizeInBits layout c'.type = storeSize layout (.scalar element) * 8 := by
      intro c' hc'
      have hle := hc.le layout hc'
      obtain ⟨value, hvalue, rfl⟩ := List.mem_map.mp hc'
      have htype : (Constant.number value).type = .scalar element := congrArg SizedType.scalar (hc value hvalue)
      have hsize : sizeInBits layout (.scalar element) = allocSize layout (.scalar element) * 8 := hspace
      rw [htype] at hle
      rw [Ready, htype]
      refine ⟨⟨rfl, hwritten.1, by omega, ?_⟩, hsize.trans (by rw [hstride])⟩
      rw [← htype]
      exact numberBits_lt layout value
    obtain ⟨kids, hkids, heval⟩ := array_evaluates (fun h => hne (List.map_eq_nil_iff.mp h)) (fun c' hc' => (hready c' hc').1)
      (fun c' hc' => (hready c' hc').2) (by rwa [List.length_map, ← hbits])
    have hsame : kids.reverse = kids := by
      have hback := evalOperands_reverse hkids
      rw [← List.map_reverse, hreverse, hkids] at hback
      exact (Option.some.inj hback).symm
    rw [hsame, List.length_map, List.map_map] at heval
    rw [Evaluates, evalConstant, mapM_evalNumber, hkids, Option.bind_some, heval, hbits]
    rfl
  case array =>
    rintro element operands ih hc ⟨hne, hspace, hall⟩ hlt
    have hstride := size_of_space hspace
    have hbits : sizeInBits layout (Constant.array element operands).type = operands.length * storeSize layout element * 8 := by
      rw [Constant.type, sizeInBits_array, hstride]
    have hready : ∀ c' ∈ operands, Ready layout c' := by
      intro c' hc'
      have htyped := hc.elements c' hc'
      have hfaithful := allFaithful_iff.mp hall c' hc'
      have hle := (hc.le layout hc').trans_lt hlt
      exact ⟨ih c' hc' htyped hfaithful hle, Faithful.pos c' htyped hfaithful, hle, image_lt layout c' htyped⟩
    obtain ⟨kids, hkids, heval⟩ := array_evaluates hne hready (fun c' hc' => by rw [hc.1 c' hc', hspace, hstride]) (hbits ▸ hlt)
    rw [Evaluates, evalConstant, hkids, Option.bind_some, heval, hbits, image, images_eq_map]
  case struct =>
    rintro isPacked operands ih hc ⟨hne, hall⟩ hlt
    have hready : ∀ c' ∈ operands, Ready layout c' := by
      intro c' hc'
      have htyped := hc.elements c' hc'
      have hfaithful := allFaithful_iff.mp hall c' hc'
      have hle := (hc.le layout hc').trans_lt hlt
      exact ⟨ih c' hc' htyped hfaithful hle, Faithful.pos c' htyped hfaithful, hle, image_lt layout c' htyped⟩
    obtain ⟨kids, hkids, hwidths, hvalues⟩ := exists_kids hready
    have hwhole : sizeInBits layout (Constant.struct isPacked operands).type / 8 * 8 =
        sizeInBits layout (Constant.struct isPacked operands).type := by
      rw [Constant.type, sizeInBits]
      omega
    obtain ⟨all, hkids', hwidth, hvalue, hall'⟩ := structKids_eq (hc.fits layout) (fit_of_map hwidths) (by omega)
    have hkids'' : structKids kids (elementOffsets layout isPacked (operandTypes operands) 0)
        (sizeInBits layout (.struct isPacked (operandTypes operands)) / 8) = some all := hkids'
    have htypes : operandTypes operands ≠ [] := by
      rw [operandTypes_eq_map]
      exact fun h => hne (List.map_eq_nil_iff.mp h)
    have hhead : (elementOffsetsOf layout (Constant.struct isPacked operands).type).headD
        (sizeInBits layout (Constant.struct isPacked operands).type / 8) = 0 := headD_elementOffsets isPacked _ htypes _
    rw [hhead] at hwidth hvalue
    have hkids₀ : kids ≠ [] := by
      rintro rfl
      exact hne (List.map_eq_nil_iff.mp hvalues.symm)
    obtain ⟨e, he⟩ := createN_of_lt (hall' hkids₀) (by omega)
    obtain ⟨-, hw, hv⟩ := createN_eq_some he
    rw [Evaluates, evalConstant, hkids, Option.bind_some, hkids'', Option.bind_some, he,
      image_eq_placed (c := .struct isPacked operands) (fun _ h => by cases h)]
    refine (alloc_of_eq (by omega) ?_).symm
    rw [pow_zero, Nat.mul_one] at hvalue
    rw [hv, hvalue, hvalues]
    rfl

/-! ### Both are the same number -/

theorem nullValue_element {type : SizedType} (h : c ∈ (nullValue type).elements) : ∃ type, c = nullValue type := by
  have hzero : ∀ {type}, c ∈ (Constant.aggregateZero type).elements → ∃ type, c = nullValue type := by
    intro type h
    obtain ⟨element, -, rfl⟩ := List.mem_map.mp h
    exact ⟨element, rfl⟩
  rcases type with (width | kind | _) | ⟨element, num⟩ | ⟨element, num⟩ | ⟨isPacked, elements⟩
  · exact absurd h List.not_mem_nil
  · exact absurd h List.not_mem_nil
  · exact absurd h List.not_mem_nil
  · exact hzero h
  · exact hzero h
  · exact hzero h

theorem Faithful.element (h : Faithful layout c) (hc : WellTyped c) (hmem : c' ∈ c.elements) :
    Faithful layout c' ∨ ∃ type, c' = nullValue type := by
  rcases c with value | _ | type | ⟨element, values⟩ | ⟨element, operands⟩ | ⟨isPacked, operands⟩
  · exact absurd hmem List.not_mem_nil
  · exact absurd hmem List.not_mem_nil
  · obtain ⟨type, -, rfl⟩ := List.mem_map.mp hmem
    exact .inr ⟨type, rfl⟩
  · obtain ⟨value, hvalue, rfl⟩ := List.mem_map.mp hmem
    refine .inl ?_
    rw [Faithful, hc value hvalue]
    exact h.2.1
  · exact .inl (allFaithful_iff.mp h.2.2 c' hmem)
  · exact .inl (allFaithful_iff.mp h.2 c' hmem)

/-- The elements of a constant that evaluates to its image do so, and those of a zero aggregate. -/
theorem element_evaluates {o : Nat} (h : Element layout c o c') : WellTyped c → sizeInBits layout c.type < 2 ^ 32 →
    (Faithful layout c ∨ ∃ type, c = nullValue type) → Evaluates layout c' := by
  induction h with
  | self c =>
    rintro hc hlt (hfaithful | ⟨type, rfl⟩)
    · exact evaluates c hc hfaithful hlt
    · exact evaluates_nullValue layout type
  | @inside c c' c'' o o' hpart _ ih =>
    intro hc hlt hcases
    have hmem := (List.of_mem_zip hpart).2
    refine ih (hc.elements c' hmem) ((hc.le layout hmem).trans_lt hlt) ?_
    rcases hcases with hfaithful | ⟨type, rfl⟩
    · exact hfaithful.element hc hmem
    · exact .inr (nullValue_element hmem)

theorem readBytes_image (hc : WellTyped c) (m : Memory) :
    readBytes (wrote m 0 0 (storeSize layout c.type) (image layout c)) 0 (storeSize layout c.type) = image layout c := by
  rw [readBytes_wrote m (Nat.zero_add _).le, pow_zero, Nat.div_one,
    Nat.mod_eq_of_lt ((image_lt layout c hc).trans_le (two_pow_le layout c.type))]

/-- What is taken out of the image of a constant is the image of the element. -/
theorem extractValue_image {e : ConstantExpr} {o : Nat} (hc : WellTyped c) (hwidth : e.width = sizeInBits layout c.type)
    (hvalue : e.value = image layout c) (h : Element layout c o c') :
    extractValue layout e o c'.type = ConstantExpr.alloc (image layout c') (sizeInBits layout c'.type) := by
  obtain ⟨-, hfits, himage⟩ := element_image h hc
  have hlt := e.width_lt
  rw [extractValue_eq (hwidth ▸ hfits), ← himage, alloc_mod (by omega), hvalue]

theorem isImage_of_faithful (hc : WellTyped c) (hlt : sizeInBits layout c.type < 2 ^ 32) (h : Faithful layout c) : IsImage layout c := by
  have heval := evaluates c hc h hlt
  have hinit := initializes c hc (h.writes c hc) 0 (fun _ => 0) (by omega) fun _ _ _ => rfl
  rw [Evaluates, alloc_of_lt (h.pos c hc) hlt (image_lt layout c hc)] at heval
  refine ⟨_, _, heval, rfl, hinit, (readBytes_image hc _).symm, fun o c' hc' => ?_⟩
  exact (extractValue_image hc rfl rfl hc').trans (element_evaluates hc' hc hlt (.inl h)).symm

theorem IsImage.value (hc : WellTyped c) (h : IsImage layout c) : sizeInBits layout c.type < 2 ^ 32 ∧ Writes layout c ∧
    ∃ e, evalConstant layout c = some e ∧ e.width = sizeInBits layout c.type ∧ e.value = image layout c ∧
      ∀ offset c', Element layout c offset c' → extractValue layout e offset c'.type = evalConstant layout c' := by
  obtain ⟨e, m, heval, hwidth, hinit, hvalue, helements⟩ := h
  have hlt : sizeInBits layout c.type < 2 ^ 32 := hwidth ▸ e.width_lt
  have hwrites := writes_of_initialize c hc 0 (fun _ => 0) (by rw [hinit]; rfl)
  have hwritten := initializes c hc hwrites 0 (fun _ => 0) (by omega) fun _ _ _ => rfl
  rw [hinit] at hwritten
  rw [Option.some.inj hwritten, readBytes_image hc] at hvalue
  exact ⟨hlt, hwrites, e, heval, hwidth, hvalue, helements⟩

theorem element_of_mem (layout : DataLayout) (hc : WellTyped c) (hmem : c' ∈ c.elements) : ∃ o, Element layout c o c' ∧
    ∀ o' c'', Element layout c' o' c'' → Element layout c (o + o') c'' := by
  obtain ⟨o, hpart⟩ := exists_mem_zip (hc.length layout) hmem
  exact ⟨o, .inside hpart (.self c'), fun o' c'' h => .inside hpart h⟩

/-- An element of an image is evaluated to its own. -/
theorem IsImage.element_value {e' : ConstantExpr} (hc : WellTyped c) (h : IsImage layout c) (hmem : c' ∈ c.elements)
    (heval' : evalConstant layout c' = some e') : e'.width = sizeInBits layout c'.type ∧ e'.value = image layout c' := by
  obtain ⟨hlt, -, e, -, hwidth, hvalue, helements⟩ := h.value hc
  obtain ⟨o, helement, -⟩ := element_of_mem layout hc hmem
  have hextract := (extractValue_image hc hwidth hvalue helement).symm.trans ((helements o c' helement).trans heval')
  obtain ⟨-, hw, hv⟩ := alloc_eq_some hextract
  rw [Nat.mod_eq_of_lt ((hc.le layout hmem).trans_lt hlt)] at hw hv
  rw [Nat.mod_eq_of_lt (image_lt layout c' (hc.elements c' hmem))] at hv
  exact ⟨hw, hv⟩

theorem IsImage.element {e' : ConstantExpr} (hc : WellTyped c) (h : IsImage layout c) (hmem : c' ∈ c.elements)
    (heval' : evalConstant layout c' = some e') (hwrites' : Writes layout c') : IsImage layout c' := by
  have hc' := hc.elements c' hmem
  obtain ⟨hlt, -, e, -, hwidth, hvalue, helements⟩ := h.value hc
  obtain ⟨hwidth', hvalue'⟩ := h.element_value hc hmem heval'
  have hlt' := (hc.le layout hmem).trans_lt hlt
  have hinit := initializes c' hc' hwrites' 0 (fun _ => 0) (by omega) fun _ _ _ => rfl
  refine ⟨e', _, heval', hwidth', hinit, hvalue'.trans (readBytes_image hc' _).symm, fun o' c'' hc'' => ?_⟩
  obtain ⟨o, -, hdeep⟩ := element_of_mem layout hc hmem
  have hdeep'' := hdeep o' c'' hc''
  exact (extractValue_image hc' hwidth' hvalue' hc'').trans
    ((extractValue_image hc hwidth hvalue hdeep'').symm.trans (helements _ c'' hdeep''))

theorem kids_of_values : ∀ {cs : List Constant} {kids : List ConstantExpr}, evalOperands layout cs = some kids →
    (∀ c ∈ cs, ∀ e, evalConstant layout c = some e → e.width = sizeInBits layout c.type ∧ e.value = image layout c) →
    (∀ c ∈ cs, ∃ e, evalConstant layout c = some e) ∧ kids.map ConstantExpr.width = cs.map (fun c => sizeInBits layout c.type) ∧
      kids.map ConstantExpr.value = cs.map (image layout)
  | [], kids, h, _ => by
    cases h
    exact ⟨fun _ h => absurd h List.not_mem_nil, rfl, rfl⟩
  | c :: cs, kids, h, hvalues => by
    obtain ⟨hfirst, hrest⟩ := List.forall_mem_cons.mp hvalues
    rw [evalOperands] at h
    obtain ⟨kid, hkid, h⟩ := Option.bind_eq_some_iff.mp h
    obtain ⟨kids', hkids, h⟩ := Option.bind_eq_some_iff.mp h
    cases h
    obtain ⟨hall, hwidths, hvs⟩ := kids_of_values hkids hrest
    obtain ⟨hw, hv⟩ := hfirst kid hkid
    refine ⟨List.forall_mem_cons.mpr ⟨⟨kid, hkid⟩, hall⟩, ?_, ?_⟩
    · rw [List.map_cons, List.map_cons, hw, hwidths]
    · rw [List.map_cons, List.map_cons, hv, hvs]

/-- The widths of the kids of an array add up to its size only without padding. -/
theorem space_of_widths {cs : List Constant} {kids : List ConstantExpr} (hne : kids ≠ [])
    (hwidths : kids.map ConstantExpr.width = cs.map fun c => sizeInBits layout c.type) (htype : ∀ c ∈ cs, c.type = type)
    (htotal : totalWidth kids = sizeInBits layout (.array type cs.length)) : sizeInBits layout type = allocSize layout type * 8 := by
  have hlength : kids.length = cs.length := by
    have hmap := congrArg List.length hwidths
    rwa [List.length_map, List.length_map] at hmap
  have hall := widths_of_map (w := sizeInBits layout type) hwidths fun c hc => congrArg _ (htype c hc)
  rw [totalWidth, map_eq_replicate hall, List.sum_replicate, smul_eq_mul, sizeInBits_array, hlength, Nat.mul_assoc] at htotal
  exact Nat.eq_of_mul_eq_mul_left (hlength ▸ List.length_pos_iff.mpr hne) htotal

theorem numberBits_injective {element : ScalarType} : ∀ {value value' : Number}, value.type = element → value'.type = element →
    numberBits value = numberBits value' → value = value'
  | .int _ _, .int _ _, h, h', heq => by
    cases h
    cases h'
    exact congrArg (Number.int _) (BitVec.eq_of_toNat_eq heq)
  | .int _ _, .fp _ _, h, h', _ => by
    cases h
    cases h'
  | .fp _ _, .int _ _, h, h', _ => by
    cases h
    cases h'
  | .fp _ _, .fp _ _, h, h', heq => by
    cases h
    cases h'
    exact congrArg (Number.fp _) (BitVec.eq_of_toNat_eq heq)

theorem map_numberBits_injective {element : ScalarType} : ∀ {values values' : List Number}, (∀ value ∈ values, value.type = element) →
    (∀ value ∈ values', value.type = element) → values.map numberBits = values'.map numberBits → values = values'
  | [], [], _, _, _ => rfl
  | value :: values, value' :: values', h, h', heq => by
    obtain ⟨hv, hvs⟩ := List.forall_mem_cons.mp h
    obtain ⟨hv', hvs'⟩ := List.forall_mem_cons.mp h'
    obtain ⟨hfirst, hrest⟩ := List.cons_eq_cons.mp heq
    rw [numberBits_injective hv hv' hfirst, map_numberBits_injective hvs hvs' hrest]

/-- Data that make one number forwards and in memory read the same in both directions. -/
theorem reverse_of_concat {element : ScalarType} {values : List Number} {kids : List ConstantExpr}
    (hc : WellTyped (.data element values)) (hwidths : ∀ kid ∈ kids, kid.width = storeSize layout (.scalar element) * 8)
    (hvalues : kids.map ConstantExpr.value = values.map numberBits)
    (hsame : concatNumber kids = image layout (.data element values)) : values.reverse = values := by
  have hlength : kids.length = values.length := by
    have hmap := congrArg List.length hvalues
    rwa [List.length_map, List.length_map] at hmap
  have hstrides : ∀ kid ∈ kids.reverse, kid.width = storeSize layout (.scalar element) * 8 :=
    fun kid hkid => hwidths kid (List.mem_reverse.mp hkid)
  have hback := concatNumber_reverse 0 hstrides
  rw [List.reverse_reverse, Nat.zero_mul, pow_zero, Nat.mul_one, List.length_reverse, hlength, List.map_reverse, hvalues, hsame,
    image] at hback
  have hfits := fits_type layout (Constant.data element values).type
  have hsized := sized_elements hc fun c' hc' => image_lt layout c' (hc.elements c' hc')
  have hsizes : ((elementTypes (Constant.data element values).type).map (storeSize layout)).reverse =
      (elementTypes (Constant.data element values).type).map (storeSize layout) := by
    show ((List.replicate values.length _).map _).reverse = (List.replicate values.length _).map _
    rw [List.map_replicate, List.reverse_replicate]
  have hmap : (Constant.data element values).elements.map (image layout) = values.map numberBits := List.map_map
  have hsized' := List.rel_reverse hsized
  rw [hsizes, hmap] at hsized'
  rw [hmap] at hsized
  have htaken : (values.map numberBits).reverse = values.map numberBits :=
    (taken_placed hfits hsized').symm.trans ((congrArg (taken · _ _) hback.symm).trans (taken_placed hfits hsized))
  rw [← List.map_reverse] at htaken
  exact map_numberBits_injective (fun value h => hc value (List.mem_reverse.mp h)) hc htaken

theorem faithful_of_isImage : ∀ c : Constant, WellTyped c → IsImage layout c → Faithful layout c := by
  refine Constant.inductOperands ?number ?null ?zero ?data ?array ?struct
  case number => exact fun value hc h => (h.value hc).2.1
  case null => exact fun hc h => (h.value hc).2.1
  case zero =>
    intro type hc h
    obtain ⟨-, -, e, heval, -⟩ := h.value hc
    have hpos := (alloc_eq_some heval).1
    show 0 < sizeInBits layout type
    omega
  case data =>
    intro element values hc h
    obtain ⟨hlt, hwrites, e, heval, hwidth, hvalue, -⟩ := h.value hc
    rw [evalConstant, mapM_evalNumber] at heval
    obtain ⟨kids, hkids, heval⟩ := Option.bind_eq_some_iff.mp heval
    obtain ⟨hne, hw, hv⟩ := createN_eq_some heval
    obtain ⟨-, hwidths, hvs⟩ := kids_of_values hkids fun c' hc' e' he' => h.element_value hc hc' he'
    have htypes : ∀ c' ∈ values.map Constant.number, c'.type = .scalar element := by
      intro c' hc'
      obtain ⟨value, hvalue, rfl⟩ := List.mem_map.mp hc'
      exact congrArg SizedType.scalar (hc value hvalue)
    have htotal : totalWidth kids = sizeInBits layout (.array (.scalar element) (values.map Constant.number).length) := by
      rw [List.length_map, ← hw, hwidth]
      rfl
    have hspace := space_of_widths hne hwidths htypes htotal
    have hvalues : values ≠ [] := by
      rintro rfl
      exact hne (List.map_eq_nil_iff.mp hwidths)
    obtain ⟨value, hmem⟩ := List.exists_mem_of_ne_nil _ hvalues
    refine ⟨hvalues, hc value hmem ▸ hwrites value hmem, hspace, ?_⟩
    have hstride : ∀ kid ∈ kids, kid.width = storeSize layout (.scalar element) * 8 :=
      widths_of_map hwidths fun c' hc' => by rw [htypes c' hc', hspace, size_of_space hspace]
    rw [List.map_map] at hvs
    exact reverse_of_concat hc hstride hvs (hv.symm.trans hvalue)
  case array =>
    intro element operands ih hc h
    obtain ⟨hlt, hwrites, e, heval, hwidth, hvalue, -⟩ := h.value hc
    rw [evalConstant] at heval
    obtain ⟨kids, hkids, heval⟩ := Option.bind_eq_some_iff.mp heval
    obtain ⟨hne, hw, -⟩ := createN_eq_some heval
    obtain ⟨hall, hwidths, -⟩ := kids_of_values hkids fun c' hc' e' he' => h.element_value hc hc' he'
    have hkids₀ : kids ≠ [] := fun h => hne (List.reverse_eq_nil_iff.mpr h)
    rw [totalWidth_reverse] at hw
    refine ⟨?_, space_of_widths hkids₀ hwidths hc.1 (hw.symm.trans hwidth), allFaithful_iff.mpr fun c' hc' => ?_⟩
    · rintro rfl
      exact hkids₀ (List.map_eq_nil_iff.mp hwidths)
    · obtain ⟨e', he'⟩ := hall c' hc'
      exact ih c' hc' (hc.elements c' hc') (h.element hc hc' he' (allWrite_iff.mp hwrites c' hc'))
  case struct =>
    intro isPacked operands ih hc h
    obtain ⟨hlt, hwrites, e, heval, hwidth, hvalue, -⟩ := h.value hc
    rw [evalConstant] at heval
    obtain ⟨kids, hkids, heval⟩ := Option.bind_eq_some_iff.mp heval
    obtain ⟨all, hall', heval⟩ := Option.bind_eq_some_iff.mp heval
    obtain ⟨hall, hwidths, -⟩ := kids_of_values hkids fun c' hc' e' he' => h.element_value hc hc' he'
    refine ⟨?_, allFaithful_iff.mpr fun c' hc' => ?_⟩
    · rintro rfl
      rw [evalOperands] at hkids
      cases hkids
      rw [structKids] at hall'
      cases hall'
      cases heval
    · obtain ⟨e', he'⟩ := hall c' hc'
      exact ih c' hc' (hc.elements c' hc') (h.element hc hc' he' (allWrite_iff.mp hwrites c' hc'))

/-- `evalConstant` and `initializeGlobalObject` agree on a constant exactly when it is faithful, and its size is an
    `unsigned` number of bits. -/
theorem isImage_iff (hc : WellTyped c) : IsImage layout c ↔ sizeInBits layout c.type < 2 ^ 32 ∧ Faithful layout c :=
  ⟨fun h => ⟨(h.value hc).1, faithful_of_isImage c hc h⟩, fun h => isImage_of_faithful hc h.1 h.2⟩

/-! ### Data -/

def byteData (bytes : List (BitVec 8)) : Constant := .data (.integer 8) (bytes.map fun byte => .int 8 byte)

theorem byteData_wellTyped (bytes : List (BitVec 8)) : WellTyped (byteData bytes) := by
  intro value hvalue
  obtain ⟨byte, -, rfl⟩ := List.mem_map.mp hvalue
  rfl

theorem byteData_isImage_iff : IsImage .x86_64 (byteData [1, 2]) ↔
    sizeInBits .x86_64 (byteData [1, 2]).type < 2 ^ 32 ∧ Faithful .x86_64 (byteData [1, 2]) := isImage_iff (byteData_wellTyped [1, 2])

/-- The data `1, 2` make `0x0102`, and `0x0201` lies in memory. -/
theorem not_isImage_byteData : WellTyped (byteData [1, 2]) ∧ ¬IsImage .x86_64 (byteData [1, 2]) := by
  refine ⟨byteData_wellTyped [1, 2], ?_⟩
  rintro ⟨e, m, heval, -, hinit, hvalue, -⟩
  have heval' : e.value = 0x0102 := by
    have hsome := congrArg (Option.map ConstantExpr.value) heval
    rw [(by decide +kernel : (evalConstant .x86_64 (byteData [1, 2])).map ConstantExpr.value = some 0x0102)] at hsome
    exact (Option.some.inj hsome).symm
  have hinit' : readBytes m 0 2 = 0x0201 := by
    have hsome := congrArg (Option.map fun m => readBytes m 0 2) hinit
    rw [(by decide +kernel : (initializeGlobalObject .x86_64 (byteData [1, 2]) 0 fun _ => 0).map (fun m => readBytes m 0 2) =
      some 0x0201)] at hsome
    exact (Option.some.inj hsome).symm
  have hsize : storeSize .x86_64 (byteData [1, 2]).type = 2 := by decide +kernel
  rw [hsize, heval', hinit'] at hvalue
  exact absurd hvalue (by decide)

end CapTaint.EvalConstant
