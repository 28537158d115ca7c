import CapTaint.Klee.AddressSpace
import CapTaint.Klee.Solver
import CapTaint.Theorems.ObjectState

/-! Symbolic pointers resolve to the objects that they may point to. `V` are the valuations that satisfy the constraints of
the state. -/

namespace CapTaint.Klee

variable {opt : Bool} {V : Valuation → Prop} {w pointerWidth : Nat} {e l r p : Expr} {f g a : Valuation → Nat}
  {mo : MemoryObject} {solver : TimingSolver}

theorem Denotes.sub (hV : ∃ v, V v) (hl : Denotes opt V w l f) (hr : Denotes opt V w r g) :
    ∃ e, SubExpr.create opt l r = .ok e ∧ Denotes opt V w e fun v => (2 ^ w - g v + f v) % 2 ^ w := by
  refine denotes_of_evaluates hV fun v hv => ?_
  have hsub := arith_evaluates .sub (hl.operand hv) (hr.operand hv) nofun
  have hdifference : (ArithKind.sub.eval (l.bits v w) (r.bits v w)).toNat = (2 ^ w - g v + f v) % 2 ^ w := by
    rw [ArithKind.eval, BitVec.toNat_sub, hl.bits hv, hr.bits hv]
  rwa [hdifference] at hsub

theorem Denotes.compare (hV : ∃ v, V v) (kind : Comparison) (hl : Denotes opt V w l f) (hr : Denotes opt V w r g) :
    ∃ e, createComparison opt l r kind = .ok e ∧
      Denotes opt V 1 e fun v => (kind.eval (BitVec.ofNat w (f v)) (BitVec.ofNat w (g v))).toNat := by
  refine denotes_of_evaluates hV fun v hv => ?_
  have hcompare := compare_evaluates kind (hl.operand hv) (hr.operand hv)
  rwa [Expr.bits, Expr.bits, hl.value v hv, hr.value v hv] at hcompare

theorem Denotes.lt (h : Denotes opt V w e f) {v : Valuation} (hv : V v) : f v < 2 ^ w := h.bits hv ▸ (e.bits v w).isLt

theorem ConstantExpr.create_denotes (opt : Bool) (V : Valuation → Prop) {c : Nat} (hw : 0 < w) (hc : c < 2 ^ w) :
    ∃ e, ConstantExpr.create c w = .ok e ∧ Denotes opt V w e fun _ => c := by
  refine ⟨_, if_pos hc, (Denotes.constant hw _).congr fun _ _ => ?_⟩
  rw [BitVec.toNat_ofNat, Nat.mod_eq_of_lt hc]

/-! ### Solvers -/

/-- A solver that always answers, and correctly. -/
structure TimingSolver.Correct (opt : Bool) (V : Valuation → Prop) (solver : TimingSolver) : Prop where
  mustBeTrue : ∀ e, e.Typed 1 → (∀ v, V v → e.Sound opt false v) →
    ∃ b, solver.mustBeTrue e = some b ∧ (b = true ↔ ∀ v, V v → e.Holds v)
  getValue : ∀ e w, e.Typed w → (∀ v, V v → e.Sound opt false v) → ∃ c, solver.getValue e = some c ∧ ∃ v, V v ∧ e.value v = c

/-- A condition as the value of a `bool`. -/
abbrev Tests (opt : Bool) (V : Valuation → Prop) (e : Expr) (test : Valuation → Bool) : Prop :=
  Denotes opt V 1 e fun v => (test v).toNat

variable {test : Valuation → Bool}

theorem TimingSolver.Correct.must (h : solver.Correct opt V) (he : Tests opt V e test) :
    ∃ b, solver.mustBeTrue e = some b ∧ (b = true ↔ ∀ v, V v → test v = true) := by
  obtain ⟨b, hb, hiff⟩ := h.mustBeTrue e he.typed he.sound
  refine ⟨b, hb, hiff.trans (forall_congr' fun v => imp_congr_right fun hv => ?_)⟩
  rw [Expr.Holds, he.value v hv, Bool.toNat_eq_one]

theorem TimingSolver.Correct.may (h : solver.Correct opt V) (hV : ∃ v, V v) (he : Tests opt V e test) :
    ∃ b, solver.mayBeTrue opt e = .ok (some b) ∧ (b = true ↔ ∃ v, V v ∧ test v = true) := by
  have hzero : Denotes opt V 1 (.constant e.getWidth 0) fun _ => 0 := by
    rw [he.typed.2]
    exact Denotes.constant Nat.one_pos 0
  obtain ⟨isZero, hok, hdenotes⟩ := he.compare hV .eq hzero
  have hnot : ∀ b : Bool, (Comparison.eval (BitVec.ofNat 1 b.toNat) 0 .eq).toNat = (!b).toNat := by decide
  have htest : Tests opt V isZero fun v => !test v := hdenotes.congr fun v _ => hnot (test v)
  obtain ⟨b, hb, hiff⟩ := h.must htest
  refine ⟨!b, ?_, ?_⟩
  · have hcreate : e.createIsZero opt = .ok isZero := hok
    simp only [TimingSolver.mayBeTrue, TimingSolver.mustBeFalse, hcreate, bind, Except.bind, pure, Except.pure, hb,
      Option.map_some]
  · rw [Bool.not_eq_true', ← Bool.not_eq_true, hiff]
    simp only [not_forall, Bool.not_eq_true', Bool.not_eq_false, exists_prop]

/-! ### Bounds -/

/-- The addresses that an object occupies. An object without bytes has its own address. -/
def MemoryObject.InBounds (mo : MemoryObject) (address : Nat) : Prop :=
  if mo.size = 0 then address = mo.address else mo.address ≤ address ∧ address < mo.address + mo.size

instance (mo : MemoryObject) (address : Nat) : Decidable (mo.InBounds address) := by
  unfold MemoryObject.InBounds
  infer_instance

/-- The object lies in the range of the pointers. -/
structure MemoryObject.Fits (pointerWidth : Nat) (mo : MemoryObject) : Prop where
  address_lt : mo.address < 2 ^ pointerWidth
  size_lt : mo.size < 2 ^ pointerWidth
  end_le : mo.address + mo.size ≤ 2 ^ pointerWidth

theorem MemoryObject.InBounds.address_le {x : Nat} (h : mo.InBounds x) : mo.address ≤ x := by
  unfold InBounds at h
  split at h
  · exact h.ge
  · exact h.1

theorem MemoryObject.inBounds_address (mo : MemoryObject) : mo.InBounds mo.address := by
  unfold InBounds
  split <;> omega

/-- What is below an address that an object occupies and not below the object is occupied by it. -/
theorem MemoryObject.InBounds.of_le {x y : Nat} (h : mo.InBounds x) (hy : mo.address ≤ y) (hyx : y ≤ x) : mo.InBounds y := by
  unfold InBounds at h ⊢
  split at h <;> rename_i hsize <;> simp only [hsize, if_true, if_false] <;> omega

/-- The bounds check of a pointer. -/
theorem MemoryObject.Fits.boundsCheck (hV : ∃ v, V v) (hfits : mo.Fits pointerWidth) (hp : Denotes opt V pointerWidth p a) :
    ∃ e, mo.getBoundsCheckPointer opt pointerWidth p = .ok e ∧ Tests opt V e fun v => decide (mo.InBounds (a v)) := by
  have hpos : 0 < pointerWidth := hp.typed.pos
  obtain ⟨base, hbase, hbaseDenotes⟩ := ConstantExpr.create_denotes opt V hpos hfits.address_lt
  obtain ⟨offset, hoffset, hoffsetDenotes⟩ := hp.sub hV hbaseDenotes
  have hgetOffset : mo.getOffsetExpr opt pointerWidth p = .ok offset := by
    simp only [MemoryObject.getOffsetExpr, MemoryObject.getBaseExpr, hbase, bind, Except.bind, hoffset]
  have hlt : ∀ v, V v → a v < 2 ^ pointerWidth := fun v hv => hp.lt hv
  have haddress := hfits.address_lt
  have hend := hfits.end_le
  -- the offset, which wraps around below the object
  have hwrap : ∀ v, V v → (2 ^ pointerWidth - mo.address + a v) % 2 ^ pointerWidth =
      if mo.address ≤ a v then a v - mo.address else 2 ^ pointerWidth - mo.address + a v := by
    intro v hv
    have hv' := hlt v hv
    split
    · rw [show 2 ^ pointerWidth - mo.address + a v = a v - mo.address + 2 ^ pointerWidth by omega, Nat.add_mod_right]
      exact Nat.mod_eq_of_lt (by omega)
    · exact Nat.mod_eq_of_lt (by omega)
  unfold MemoryObject.getBoundsCheckPointer MemoryObject.getBoundsCheckOffset
  simp only [hgetOffset, bind, Except.bind]
  by_cases hsize : mo.size = 0
  · obtain ⟨e, he, hdenotes⟩ := hoffsetDenotes.compare hV .eq (Denotes.constant hpos (0 : BitVec pointerWidth))
    refine ⟨e, by rw [if_pos hsize, he], hdenotes.congr fun v hv => congrArg Bool.toNat (decide_eq_decide.mpr ?_)⟩
    have hv' := hlt v hv
    have hzero : (0 : BitVec pointerWidth).toNat = 0 := by simp
    rw [hwrap v hv, MemoryObject.InBounds, if_pos hsize, ← BitVec.toNat_inj, BitVec.toNat_ofNat, BitVec.ofNat_toNat,
      BitVec.setWidth_eq, hzero]
    split
    · rw [Nat.mod_eq_of_lt (by omega)]
      omega
    · rw [Nat.mod_eq_of_lt (by omega)]
      omega
  · obtain ⟨size, hsizeExpr, hsizeDenotes⟩ := ConstantExpr.create_denotes opt V hpos hfits.size_lt
    obtain ⟨e, he, hdenotes⟩ := hoffsetDenotes.compare hV .ult hsizeDenotes
    have hsize' := hfits.size_lt
    refine ⟨e, ?_, hdenotes.congr fun v hv => congrArg Bool.toNat (decide_eq_decide.mpr ?_)⟩
    · simp only [hsize, if_false, MemoryObject.getSizeExpr, hsizeExpr, he]
    · have hv' := hlt v hv
      rw [hwrap v hv, MemoryObject.InBounds, if_neg hsize, BitVec.toNat_ofNat, BitVec.toNat_ofNat,
        Nat.mod_eq_of_lt hsize']
      split
      · rw [Nat.mod_eq_of_lt (by omega)]
        omega
      · rw [Nat.mod_eq_of_lt (by omega)]
        omega

/-- The comparison of a pointer with the base of an object. -/
theorem MemoryObject.Fits.compareBase (hV : ∃ v, V v) (hfits : mo.Fits pointerWidth) (hp : Denotes opt V pointerWidth p a)
    (kind : Comparison) :
    ∃ base e, mo.getBaseExpr pointerWidth = .ok base ∧ createComparison opt p base kind = .ok e ∧
      Tests opt V e fun v => kind.eval (BitVec.ofNat pointerWidth (a v)) (BitVec.ofNat pointerWidth mo.address) := by
  obtain ⟨base, hbase, hdenotes⟩ := ConstantExpr.create_denotes opt V hp.typed.pos hfits.address_lt
  obtain ⟨e, he, htests⟩ := hp.compare hV kind hdenotes
  exact ⟨base, e, hbase, he, htests⟩

theorem uge_eval {x y : Nat} (hx : x < 2 ^ w) (hy : y < 2 ^ w) :
    Comparison.uge.eval (BitVec.ofNat w x) (BitVec.ofNat w y) = decide (y ≤ x) := by
  unfold Comparison.eval BitVec.ule
  rw [BitVec.toNat_ofNat, BitVec.toNat_ofNat, Nat.mod_eq_of_lt hx, Nat.mod_eq_of_lt hy]

theorem ult_eval {x y : Nat} (hx : x < 2 ^ w) (hy : y < 2 ^ w) :
    Comparison.ult.eval (BitVec.ofNat w x) (BitVec.ofNat w y) = decide (x < y) := by
  unfold Comparison.eval BitVec.ult
  rw [BitVec.toNat_ofNat, BitVec.toNat_ofNat, Nat.mod_eq_of_lt hx, Nat.mod_eq_of_lt hy]

/-! ### Searches -/

namespace AddressSpace

/-- The pointer may point to the object. -/
def Resolves (V : Valuation → Prop) (a : Valuation → Nat) (entry : Entry) : Prop := ∃ v, V v ∧ entry.1.InBounds (a v)

variable {x y : Entry} {entries rl : List Entry}

/-- What a search with `resolve` does: it adds the objects that the pointer may point to, or returns the only one. -/
def Ends (V : Valuation → Prop) (a : Valuation → Nat) (entries rl : List Entry) (result : Search Bool × List Entry) : Prop :=
  (result.1 = .goOn ∧ ∃ found, result.2 = rl ++ found ∧ found.Sublist entries ∧
      ∀ x ∈ entries, x ∈ found ↔ Resolves V a x) ∨
    rl = [] ∧ result.1 = .done false ∧ ∃ x ∈ entries, result.2 = [x] ∧ ∀ v, V v → x.1.InBounds (a v)

/-- The pointer is below an object, and so below those behind it. -/
theorem none_above (hfit : x.1.Fits pointerWidth) (hp : Denotes opt V pointerWidth p a)
    (hmust : ∀ v, V v →
      Comparison.ult.eval (BitVec.ofNat pointerWidth (a v)) (BitVec.ofNat pointerWidth x.1.address) = true)
    (hx : ∀ y ∈ entries, x.1.address < y.1.address) : ∀ y ∈ x :: entries, ¬Resolves V a y := by
  rintro y hy ⟨v, hv, hin⟩
  have hbelow := hmust v hv
  rw [ult_eval (hp.lt hv) hfit.address_lt, decide_eq_true_eq] at hbelow
  have hle := hin.address_le
  rcases List.mem_cons.mp hy with rfl | hy
  · exact absurd hle (Nat.not_le_of_lt hbelow)
  · exact absurd (hx y hy) (Nat.not_lt_of_le (hle.trans hbelow.le))

/-- The pointer is not below an object, and so the objects below that one do not reach it. -/
theorem none_below (hfit : x.1.Fits pointerWidth) (hp : Denotes opt V pointerWidth p a)
    (hmust : ∀ v, V v →
      Comparison.uge.eval (BitVec.ofNat pointerWidth (a v)) (BitVec.ofNat pointerWidth x.1.address) = true)
    (hx : ∀ y ∈ entries, ∀ b, x.1.address ≤ b → ¬y.1.InBounds b) : ∀ y ∈ entries, ¬Resolves V a y := by
  rintro y hy ⟨v, hv, hin⟩
  have hle := hmust v hv
  rw [uge_eval (hp.lt hv) hfit.address_lt, decide_eq_true_eq] at hle
  exact hx y hy (a v) hle hin

/-- The check after an object has been added. -/
theorem resolveAdded_eq (rl : List Entry) (hsolver : solver.Correct opt V) (he : Tests opt V e fun v => decide (x.1.InBounds (a v))) :
    resolveAdded solver 0 e (rl ++ [x]) = .done false ∧ rl = [] ∧ (∀ v, V v → x.1.InBounds (a v)) ∨
      resolveAdded solver 0 e (rl ++ [x]) = .goOn := by
  unfold resolveAdded
  by_cases hrl : rl = []
  · subst hrl
    obtain ⟨b, hb, hiff⟩ := hsolver.must he
    cases b with
    | true => exact .inl ⟨by simp [hb], rfl, fun v hv => of_decide_eq_true (hiff.mp rfl v hv)⟩
    | false => exact .inr (by simp [hb])
  · have hlength : 0 < rl.length := List.length_pos_iff.mpr hrl
    exact .inr (by simp [hlength.ne'])

/-- The search goes on behind an object to which the pointer may point or not. -/
theorem Ends.cons {result : Search Bool × List Entry} {b : Bool} (hb : b = true ↔ Resolves V a x)
    (hx : ∀ y ∈ entries, y ≠ x) (h : Ends V a entries (if b then rl ++ [x] else rl) result) :
    Ends V a (x :: entries) rl result := by
  cases b with
  | true =>
    rcases h with ⟨hgoOn, found, hfound, hsub, hall⟩ | ⟨hnil, -⟩
    · refine .inl ⟨hgoOn, x :: found, ?_, hsub.cons_cons x, fun y hy => ?_⟩
      · rw [hfound, if_pos rfl, List.append_assoc]
        rfl
      · rcases List.mem_cons.mp hy with rfl | hy
        · exact iff_of_true List.mem_cons_self (hb.mp rfl)
        · exact (List.mem_cons.trans (or_iff_right (hx y hy))).trans (hall y hy)
    · exact absurd hnil (by simp)
  | false =>
    have hno : ¬Resolves V a x := fun h => Bool.false_ne_true (hb.mpr h)
    rcases h with ⟨hgoOn, found, hfound, hsub, hall⟩ | ⟨hnil, hdone, y, hy, hresult, hmust⟩
    · refine .inl ⟨hgoOn, found, hfound, hsub.cons x, fun y hy => ?_⟩
      rcases List.mem_cons.mp hy with rfl | hy
      · exact iff_of_false (fun hmem => hx y (hsub.subset hmem) rfl) hno
      · exact hall y hy
    · exact .inr ⟨hnil, hdone, y, List.mem_cons_of_mem x hy, hresult, hmust⟩

/-- The pointer points to none of the objects that are left. -/
theorem Ends.none (h : ∀ y ∈ entries, ¬Resolves V a y) : Ends V a entries rl (.goOn, rl) :=
  .inl ⟨rfl, [], (List.append_nil rl).symm, List.nil_sublist entries, fun y hy => iff_of_false List.not_mem_nil (h y hy)⟩

/-- Behind an object below the pointer the search backwards finds nothing. -/
theorem resolveBackwards_ends (hsolver : solver.Correct opt V) (hV : ∃ v, V v) (hp : Denotes opt V pointerWidth p a)
    (hfits : ∀ x ∈ entries, x.1.Fits pointerWidth) (hdistinct : entries.Nodup)
    (hbelow : entries.Pairwise fun x y => ∀ b, x.1.address ≤ b → ¬y.1.InBounds b) :
    ∃ result, resolveBackwards opt pointerWidth solver 0 (fun _ => false) p entries rl = .ok result ∧
      Ends V a entries rl result := by
  induction entries generalizing rl with
  | nil => exact ⟨(.goOn, rl), rfl, .none fun _ h => absurd h List.not_mem_nil⟩
  | cons x entries ih =>
    obtain ⟨hx, hbelow'⟩ := List.pairwise_cons.mp hbelow
    obtain ⟨hxmem, hdistinct'⟩ := List.nodup_cons.mp hdistinct
    have hfit := hfits x List.mem_cons_self
    have hne : ∀ y ∈ entries, y ≠ x := fun y hy hyx => hxmem (hyx ▸ hy)
    obtain ⟨check, hcheck, htests⟩ := hfit.boundsCheck hV hp
    obtain ⟨b, hb, hmay⟩ := hsolver.may hV htests
    have hresolves : b = true ↔ Resolves V a x := hmay.trans (by simp only [decide_eq_true_eq, Resolves])
    obtain ⟨base, ge, hbase, hge, hgeTests⟩ := hfit.compareBase hV hp .uge
    obtain ⟨c, hc, hmust⟩ := hsolver.must hgeTests
    unfold resolveBackwards
    simp only [Bool.false_eq_true, if_false, hcheck, hb, hbase, hge, hc, bind, Except.bind, pure, Except.pure]
    have hrest : ∃ result, (match c with
        | true => Except.ok (.goOn, if b then rl ++ [x] else rl)
        | false => resolveBackwards opt pointerWidth solver 0 (fun _ => false) p entries (if b then rl ++ [x] else rl)) =
          (.ok result : Except Abort (Search Bool × List Entry)) ∧ Ends V a (x :: entries) rl result := by
      cases c with
      | true =>
        exact ⟨_, rfl, .cons hresolves hne (.none (none_below hfit hp (hmust.mp rfl) hx))⟩
      | false =>
        obtain ⟨result, hok, hends⟩ : ∃ result, _ ∧ Ends V a entries (if b then rl ++ [x] else rl) result :=
          ih (fun y hy => hfits y (List.mem_cons_of_mem x hy)) hdistinct' hbelow'
        exact ⟨result, hok, hends.cons hresolves hne⟩
    obtain ⟨result, hok, hends⟩ := hrest
    cases b with
    | false =>
      refine ⟨result, ?_, hends⟩
      cases c <;> exact hok
    | true =>
      rcases resolveAdded_eq rl hsolver htests with ⟨hdone, rfl, hmust⟩ | hgoOn
      · refine ⟨(.done false, [x]), ?_, .inr ⟨rfl, rfl, x, List.mem_cons_self, rfl, hmust⟩⟩
        simp only [if_true, hdone]
        rfl
      · refine ⟨result, ?_, hends⟩
        simp only [if_true, hgoOn]
        cases c <;> exact hok

/-- From an object above the pointer on the search forwards finds nothing. -/
theorem resolveForwards_ends (hsolver : solver.Correct opt V) (hV : ∃ v, V v) (hp : Denotes opt V pointerWidth p a)
    (hfits : ∀ x ∈ entries, x.1.Fits pointerWidth) (hdistinct : entries.Nodup)
    (habove : entries.Pairwise fun x y => x.1.address < y.1.address) :
    ∃ result, resolveForwards opt pointerWidth solver 0 (fun _ => false) p entries rl = .ok result ∧
      Ends V a entries rl result := by
  induction entries generalizing rl with
  | nil => exact ⟨(.goOn, rl), rfl, .none fun _ h => absurd h List.not_mem_nil⟩
  | cons x entries ih =>
    obtain ⟨hx, habove'⟩ := List.pairwise_cons.mp habove
    obtain ⟨hxmem, hdistinct'⟩ := List.nodup_cons.mp hdistinct
    have hfit := hfits x List.mem_cons_self
    have hne : ∀ y ∈ entries, y ≠ x := fun y hy hyx => hxmem (hyx ▸ hy)
    obtain ⟨base, lt, hbase, hlt, hltTests⟩ := hfit.compareBase hV hp .ult
    obtain ⟨c, hc, hmust⟩ := hsolver.must hltTests
    obtain ⟨check, hcheck, htests⟩ := hfit.boundsCheck hV hp
    obtain ⟨b, hb, hmay⟩ := hsolver.may hV htests
    have hresolves : b = true ↔ Resolves V a x := hmay.trans (by simp only [decide_eq_true_eq, Resolves])
    unfold resolveForwards
    simp only [Bool.false_eq_true, if_false, hcheck, hb, hbase, hlt, hc, bind, Except.bind, pure, Except.pure]
    cases c with
    | true =>
      exact ⟨(.goOn, rl), rfl, .none (none_above hfit hp (hmust.mp rfl) hx)⟩
    | false =>
      obtain ⟨result, hok, hends⟩ : ∃ result, _ ∧ Ends V a entries (if b then rl ++ [x] else rl) result :=
        ih (fun y hy => hfits y (List.mem_cons_of_mem x hy)) hdistinct' habove'
      cases b with
      | false => exact ⟨result, hok, hends.cons hresolves hne⟩
      | true =>
        rcases resolveAdded_eq rl hsolver htests with ⟨hdone, rfl, hmust⟩ | hgoOn
        · refine ⟨(.done false, [x]), ?_, .inr ⟨rfl, rfl, x, List.mem_cons_self, rfl, hmust⟩⟩
          simp only [if_true, hdone]
          rfl
        · refine ⟨result, ?_, hends.cons hresolves hne⟩
          simp only [if_true, hgoOn]
          exact hok

/-- The objects lie in the range of the pointers, and no two of them occupy an address. -/
structure Disjoint (pointerWidth : Nat) (space : AddressSpace) : Prop where
  fits : ∀ x ∈ space.objects.entries, x.1.Fits pointerWidth
  disjoint : ∀ x ∈ space.objects.entries, ∀ y ∈ space.objects.entries, ∀ b, x.1.InBounds b → y.1.InBounds b → x = y

variable {space : AddressSpace}

theorem Disjoint.below (h : space.Disjoint pointerWidth) (hx : x ∈ space.objects.entries) (hy : y ∈ space.objects.entries)
    (hlt : y.1.address < x.1.address) {b : Nat} (hb : x.1.address ≤ b) : ¬y.1.InBounds b := by
  intro hin
  have heq := h.disjoint x hx y hy x.1.address x.1.inBounds_address (hin.of_le hlt.le hb)
  exact absurd (heq ▸ hlt) (Nat.lt_irrefl _)

/-- The order of the objects that the backward searches visit. -/
theorem Disjoint.backwards (h : space.Disjoint pointerWidth) (c : Nat) :
    (space.objects.upTo c).reverse.Pairwise fun x y => ∀ b, x.1.address ≤ b → ¬y.1.InBounds b := by
  rw [List.pairwise_reverse]
  have hsorted : (space.objects.upTo c).Pairwise (·.1.address < ·.1.address) :=
    space.objects.sorted.sublist (List.takeWhile_sublist _)
  refine hsorted.imp_of_mem fun {x y} hx hy hlt b hb => ?_
  exact h.below (SortedList.mem_upTo.mp hy).1 (SortedList.mem_upTo.mp hx).1 hlt hb

/-- A constant address resolves to the object that occupies it. -/
theorem resolveOneConstant_eq_some (h : space.Disjoint pointerWidth) {b : Nat} :
    space.resolveOneConstant b = some x ↔ x ∈ space.objects.entries ∧ x.1.InBounds b := by
  unfold resolveOneConstant
  cases hprevious : space.objects.lookupPrevious b with
  | none =>
    refine iff_of_false nofun ?_
    rintro ⟨hx, hin⟩
    exact absurd (SortedList.lookupPrevious_eq_none hprevious hx) (Nat.not_lt_of_le hin.address_le)
  | some y =>
    obtain ⟨hy, hle, hmax⟩ := SortedList.lookupPrevious_eq_some hprevious
    have hcheck : (y.1.size = 0 ∧ b = y.1.address) ∨ b - y.1.address < y.1.size ↔ y.1.InBounds b := by
      unfold MemoryObject.InBounds
      split <;> omega
    simp only [hcheck]
    constructor
    · intro hsome
      split at hsome
      · obtain rfl := Option.some.inj hsome
        exact ⟨hy, ‹_›⟩
      · cases hsome
    · rintro ⟨hx, hin⟩
      rcases hmax x hx hin.address_le with rfl | hlt
      · rw [if_pos hin]
      · exact absurd hin (h.below hy hx hlt hle)

/-- The bounds check of the pointer is satisfiable. -/
def MayPointTo (opt : Bool) (pointerWidth : Nat) (V : Valuation → Prop) (p : Expr) (entry : Entry) : Prop :=
  ∃ check, entry.1.getBoundsCheckPointer opt pointerWidth p = .ok check ∧ ∃ v, V v ∧ check.Holds v

theorem mayPointTo_iff (hV : ∃ v, V v) (hfits : x.1.Fits pointerWidth) (hp : Denotes opt V pointerWidth p a) :
    MayPointTo opt pointerWidth V p x ↔ Resolves V a x := by
  obtain ⟨check, hcheck, htests⟩ := hfits.boundsCheck hV hp
  have hholds : ∀ v, V v → (check.Holds v ↔ x.1.InBounds (a v)) := by
    intro v hv
    rw [Expr.Holds, htests.value v hv, Bool.toNat_eq_one, decide_eq_true_eq]
  constructor
  · rintro ⟨check', hcheck', v, hv, hcheckHolds⟩
    obtain rfl := Except.ok.inj (hcheck.symm.trans hcheck')
    exact ⟨v, hv, (hholds v hv).mp hcheckHolds⟩
  · rintro ⟨v, hv, hin⟩
    exact ⟨check, hcheck, v, hv, (hholds v hv).mpr hin⟩

/-- The resolution list has the objects that the pointer may point to, each once. -/
def Complete (V : Valuation → Prop) (a : Valuation → Nat) (space : AddressSpace) (rl : List Entry) : Prop :=
  rl.Nodup ∧ ∀ x, x ∈ rl ↔ x ∈ space.objects.entries ∧ Resolves V a x

/-- The only object that the pointer points to. -/
theorem Disjoint.complete_singleton (h : space.Disjoint pointerWidth) (hV : ∃ v, V v) (hx : x ∈ space.objects.entries)
    (hmust : ∀ v, V v → x.1.InBounds (a v)) : Complete V a space [x] := by
  refine ⟨List.nodup_singleton x, fun y => List.mem_singleton.trans ?_⟩
  constructor
  · rintro rfl
    obtain ⟨v, hv⟩ := hV
    exact ⟨hx, v, hv, hmust v hv⟩
  · rintro ⟨hy, v, hv, hin⟩
    exact h.disjoint y hy x hx (a v) hin (hmust v hv)

theorem Disjoint.resolve_constant (h : space.Disjoint pointerWidth) (hV : ∃ v, V v) {c : Nat} :
    Complete V (fun _ => c) space (space.resolveOneConstant c).toList := by
  refine ⟨?_, fun x => ?_⟩
  · cases space.resolveOneConstant c <;> simp
  · rw [Option.mem_toList, resolveOneConstant_eq_some h]
    obtain ⟨v, hv⟩ := hV
    exact and_congr_right fun _ => ⟨fun hin => ⟨v, hv, hin⟩, fun ⟨_, _, hin⟩ => hin⟩

/-- The two searches together. -/
theorem Disjoint.resolve_symbolic (h : space.Disjoint pointerWidth) (hsolver : solver.Correct opt V) (hV : ∃ v, V v)
    (hp : Denotes opt V pointerWidth p a) (c : Nat) :
    ∃ rl, space.resolveFrom opt pointerWidth solver 0 (fun _ => false) c p = .ok (false, rl) ∧ Complete V a space rl := by
  have hfitsTo : ∀ x ∈ (space.objects.upTo c).reverse, x.1.Fits pointerWidth := fun x hx =>
    h.fits x (SortedList.mem_upTo.mp (List.mem_reverse.mp hx)).1
  have hfitsBehind : ∀ x ∈ space.objects.behind c, x.1.Fits pointerWidth := fun x hx =>
    h.fits x (SortedList.mem_behind.mp hx).1
  have hsortedBehind : (space.objects.behind c).Pairwise (·.1.address < ·.1.address) :=
    space.objects.sorted.sublist (List.dropWhile_sublist _)
  have hnodup : (space.objects.upTo c ++ space.objects.behind c).Nodup := by
    rw [SortedList.upTo_append_behind]
    exact space.objects.nodup
  obtain ⟨hnodupTo, hnodupBehind, hapart⟩ := List.nodup_append.mp hnodup
  obtain ⟨⟨outcome, rl⟩, hback, hends⟩ : ∃ result, _ ∧ Ends V a (space.objects.upTo c).reverse [] result :=
    resolveBackwards_ends hsolver hV hp hfitsTo (List.nodup_reverse.mpr hnodupTo) (h.backwards c)
  unfold resolveFrom
  simp only [hback, bind, Except.bind]
  rcases hends with ⟨rfl, found, hfound, hsub, hall⟩ | ⟨-, rfl, x, hx, hrl, hmust⟩
  · obtain ⟨⟨outcome, rl'⟩, hforw, hends⟩ : ∃ result, _ ∧ Ends V a (space.objects.behind c) rl result :=
      resolveForwards_ends hsolver hV hp hfitsBehind hnodupBehind hsortedBehind
    simp only [hforw]
    change rl = found at hfound
    subst hfound
    rcases hends with ⟨rfl, found', hfound', hsub', hall'⟩ | ⟨-, rfl, x, hx, hrl, hmust⟩
    · change rl' = rl ++ found' at hfound'
      subst hfound'
      refine ⟨_, rfl, ?_, fun x => ?_⟩
      · refine List.nodup_append.mpr ⟨hsub.nodup (List.nodup_reverse.mpr hnodupTo), hsub'.nodup hnodupBehind, ?_⟩
        exact fun x hx y hy => hapart x (List.mem_reverse.mp (hsub.subset hx)) y (hsub'.subset hy)
      · rw [List.mem_append, ← SortedList.upTo_append_behind space.objects c, List.mem_append]
        constructor
        · rintro (hx | hx)
          · have hmem := hsub.subset hx
            exact ⟨.inl (List.mem_reverse.mp hmem), (hall x hmem).mp hx⟩
          · have hmem := hsub'.subset hx
            exact ⟨.inr hmem, (hall' x hmem).mp hx⟩
        · rintro ⟨hmem | hmem, hres⟩
          · exact .inl ((hall x (List.mem_reverse.mpr hmem)).mpr hres)
          · exact .inr ((hall' x hmem).mpr hres)
    · change rl' = [x] at hrl
      subst hrl
      exact ⟨[x], rfl, h.complete_singleton hV (SortedList.mem_behind.mp hx).1 hmust⟩
  · change rl = [x] at hrl
    subst hrl
    exact ⟨[x], rfl, h.complete_singleton hV (SortedList.mem_upTo.mp (List.mem_reverse.mp hx)).1 hmust⟩

/-! ### The first object -/

/-- What a search with `resolveOne` does: it finds an object to which the pointer may point, or there is none. -/
def EndsOne (V : Valuation → Prop) (a : Valuation → Nat) (entries : List Entry) : Search (Option (Option Entry)) → Prop
  | .done (some (some x)) => x ∈ entries ∧ Resolves V a x
  | .goOn => ∀ y ∈ entries, ¬Resolves V a y
  | _ => False

theorem EndsOne.cases {result : Search (Option (Option Entry))} (h : EndsOne V a entries result) :
    (∃ x, result = .done (some (some x)) ∧ x ∈ entries ∧ Resolves V a x) ∨
      result = .goOn ∧ ∀ y ∈ entries, ¬Resolves V a y := by
  rcases result with (_ | _ | x) | _
  · cases h
  · cases h
  · exact .inl ⟨x, rfl, h⟩
  · exact .inr ⟨rfl, h⟩

theorem EndsOne.cons {result : Search (Option (Option Entry))} (hx : ¬Resolves V a x) (h : EndsOne V a entries result) :
    EndsOne V a (x :: entries) result := by
  rcases h.cases with ⟨y, rfl, hy, hres⟩ | ⟨rfl, hnone⟩
  · exact ⟨List.mem_cons_of_mem x hy, hres⟩
  · exact List.forall_mem_cons.mpr ⟨hx, hnone⟩

theorem resolveOneBackwards_ends (hsolver : solver.Correct opt V) (hV : ∃ v, V v) (hp : Denotes opt V pointerWidth p a)
    (hfits : ∀ x ∈ entries, x.1.Fits pointerWidth)
    (hbelow : entries.Pairwise fun x y => ∀ b, x.1.address ≤ b → ¬y.1.InBounds b) :
    ∃ result, resolveOneBackwards opt pointerWidth solver p entries = .ok result ∧ EndsOne V a entries result := by
  induction entries with
  | nil => exact ⟨.goOn, rfl, fun _ h => absurd h List.not_mem_nil⟩
  | cons x entries ih =>
    obtain ⟨hx, hbelow'⟩ := List.pairwise_cons.mp hbelow
    have hfit := hfits x List.mem_cons_self
    obtain ⟨check, hcheck, htests⟩ := hfit.boundsCheck hV hp
    obtain ⟨b, hb, hmay⟩ := hsolver.may hV htests
    have hresolves : b = true ↔ Resolves V a x := hmay.trans (by simp only [decide_eq_true_eq, Resolves])
    obtain ⟨base, ge, hbase, hge, hgeTests⟩ := hfit.compareBase hV hp .uge
    obtain ⟨c, hc, hmust⟩ := hsolver.must hgeTests
    unfold resolveOneBackwards
    simp only [hcheck, hb, hbase, hge, hc, bind, Except.bind, pure, Except.pure]
    cases b with
    | true => exact ⟨_, rfl, List.mem_cons_self, hresolves.mp rfl⟩
    | false =>
      have hno : ¬Resolves V a x := fun h => Bool.false_ne_true (hresolves.mpr h)
      cases c with
      | true =>
        exact ⟨_, rfl, List.forall_mem_cons.mpr ⟨hno, none_below hfit hp (hmust.mp rfl) hx⟩⟩
      | false =>
        obtain ⟨result, hok, hends⟩ := ih (fun y hy => hfits y (List.mem_cons_of_mem x hy)) hbelow'
        exact ⟨result, hok, hends.cons hno⟩

theorem resolveOneForwards_ends (hsolver : solver.Correct opt V) (hV : ∃ v, V v) (hp : Denotes opt V pointerWidth p a)
    (hfits : ∀ x ∈ entries, x.1.Fits pointerWidth) (habove : entries.Pairwise fun x y => x.1.address < y.1.address) :
    ∃ result, resolveOneForwards opt pointerWidth solver p entries = .ok result ∧ EndsOne V a entries result := by
  induction entries with
  | nil => exact ⟨.goOn, rfl, fun _ h => absurd h List.not_mem_nil⟩
  | cons x entries ih =>
    obtain ⟨hx, habove'⟩ := List.pairwise_cons.mp habove
    have hfit := hfits x List.mem_cons_self
    obtain ⟨base, lt, hbase, hlt, hltTests⟩ := hfit.compareBase hV hp .ult
    obtain ⟨c, hc, hmust⟩ := hsolver.must hltTests
    obtain ⟨check, hcheck, htests⟩ := hfit.boundsCheck hV hp
    obtain ⟨b, hb, hmay⟩ := hsolver.may hV htests
    have hresolves : b = true ↔ Resolves V a x := hmay.trans (by simp only [decide_eq_true_eq, Resolves])
    unfold resolveOneForwards
    simp only [hcheck, hb, hbase, hlt, hc, bind, Except.bind, pure, Except.pure]
    cases c with
    | true => exact ⟨.goOn, rfl, none_above hfit hp (hmust.mp rfl) hx⟩
    | false =>
      cases b with
      | true => exact ⟨_, rfl, List.mem_cons_self, hresolves.mp rfl⟩
      | false =>
        have hno : ¬Resolves V a x := fun h => Bool.false_ne_true (hresolves.mpr h)
        obtain ⟨result, hok, hends⟩ := ih (fun y hy => hfits y (List.mem_cons_of_mem x hy)) habove'
        exact ⟨result, hok, hends.cons hno⟩

/-- `resolveOne` finds an object to which the pointer may point, if there is one. -/
def CompleteOne (V : Valuation → Prop) (a : Valuation → Nat) (space : AddressSpace) (result : Option Entry) : Prop :=
  (∀ x, result = some x → x ∈ space.objects.entries ∧ Resolves V a x) ∧
    (result = none → ∀ x ∈ space.objects.entries, ¬Resolves V a x)

theorem completeOne_some (hx : x ∈ space.objects.entries) (hres : Resolves V a x) : CompleteOne V a space (some x) := by
  refine ⟨fun y hy => ?_, nofun⟩
  obtain rfl := Option.some.inj hy
  exact ⟨hx, hres⟩

theorem Disjoint.searchOne_symbolic (h : space.Disjoint pointerWidth) (hsolver : solver.Correct opt V) (hV : ∃ v, V v)
    (hp : Denotes opt V pointerWidth p a) (c : Nat) :
    ∃ result, space.searchOne opt pointerWidth solver c p = .ok (some result) ∧ CompleteOne V a space result := by
  have hmemTo : ∀ x ∈ (space.objects.upTo c).reverse, x ∈ space.objects.entries := fun x hx =>
    (SortedList.mem_upTo.mp (List.mem_reverse.mp hx)).1
  have hmemBehind : ∀ x ∈ space.objects.behind c, x ∈ space.objects.entries := fun x hx => (SortedList.mem_behind.mp hx).1
  have hsortedBehind : (space.objects.behind c).Pairwise (·.1.address < ·.1.address) :=
    space.objects.sorted.sublist (List.dropWhile_sublist _)
  obtain ⟨outcome, hback, hends⟩ :=
    resolveOneBackwards_ends hsolver hV hp (fun x hx => h.fits x (hmemTo x hx)) (h.backwards c)
  unfold searchOne
  simp only [hback, bind, Except.bind]
  rcases hends.cases with ⟨x, rfl, hx, hres⟩ | ⟨rfl, hnone⟩
  · exact ⟨some x, rfl, completeOne_some (hmemTo x hx) hres⟩
  · obtain ⟨outcome', hforw, hends'⟩ :=
      resolveOneForwards_ends hsolver hV hp (fun x hx => h.fits x (hmemBehind x hx)) hsortedBehind
    simp only [hforw]
    rcases hends'.cases with ⟨x, rfl, hx, hres⟩ | ⟨rfl, hnone'⟩
    · exact ⟨some x, rfl, completeOne_some (hmemBehind x hx) hres⟩
    · refine ⟨none, rfl, fun x hx => absurd hx.symm (Option.some_ne_none x), fun _ x hx => ?_⟩
      rw [← SortedList.upTo_append_behind space.objects c] at hx
      rcases List.mem_append.mp hx with hx | hx
      · exact hnone x (List.mem_reverse.mpr hx)
      · exact hnone' x hx

/-- The cheap search may find the object that the example is in. -/
theorem Disjoint.resolveOne_symbolic (h : space.Disjoint pointerWidth) (hsolver : solver.Correct opt V)
    (hp : Denotes opt V pointerWidth p a) {c : Nat} (hc : ∃ v, V v ∧ a v = c) :
    ∃ result, space.resolveOneFrom opt pointerWidth solver c p = .ok (some result) ∧ CompleteOne V a space result := by
  obtain ⟨v₀, hv₀, hcex⟩ := hc
  unfold resolveOneFrom
  cases hcheap : (space.objects.lookupPrevious c).filter fun entry => c - entry.1.address < entry.1.size with
  | none => exact h.searchOne_symbolic hsolver ⟨v₀, hv₀⟩ hp c
  | some x =>
    obtain ⟨hprevious, hlt⟩ := Option.filter_eq_some_iff.mp hcheap
    obtain ⟨hx, hle, -⟩ := SortedList.lookupPrevious_eq_some hprevious
    refine ⟨some x, rfl, completeOne_some hx ⟨v₀, hv₀, ?_⟩⟩
    have hlt' := of_decide_eq_true hlt
    rw [hcex, MemoryObject.InBounds]
    split <;> omega

section
variable (h : space.Disjoint pointerWidth) (hsolver : solver.Correct opt V) (hp : p.Typed pointerWidth)
  (hsound : ∀ v, V v → p.Sound opt false v)
include h hsolver hp hsound

/-- The resolution list without a limit. -/
theorem Disjoint.resolve_all :
    ∃ rl, space.resolve opt pointerWidth solver 0 (fun _ => false) p = .ok (false, rl) ∧ rl.Nodup ∧
      ∀ x, x ∈ rl ↔ x ∈ space.objects.entries ∧ MayPointTo opt pointerWidth V p x := by
  obtain ⟨c, hc, v₀, hv₀, hcex⟩ := hsolver.getValue p pointerWidth hp hsound
  have hV : ∃ v, V v := ⟨v₀, hv₀⟩
  have hdenotes : Denotes opt V pointerWidth p fun v => p.value v := ⟨hp, hsound, fun _ _ => rfl⟩
  have hcomplete : ∃ rl, space.resolve opt pointerWidth solver 0 (fun _ => false) p = .ok (false, rl) ∧
      Complete V (fun v => p.value v) space rl := by
    rcases hp.constant_or with ⟨c, rfl⟩ | hsymbolic
    · exact ⟨_, rfl, h.resolve_constant hV⟩
    · obtain ⟨rl, hrl, hcomplete⟩ := h.resolve_symbolic hsolver hV hdenotes c
      refine ⟨rl, ?_, hcomplete⟩
      unfold resolve
      cases p with
      | constant _ _ => cases hsymbolic
      | _ =>
        simp only [hc]
        exact hrl
  obtain ⟨rl, hrl, hnodup, hall⟩ := hcomplete
  exact ⟨rl, hrl, hnodup, fun x => (hall x).trans (and_congr_right fun hx => (mayPointTo_iff hV (h.fits x hx) hdenotes).symm)⟩

/-- With a correct solver and without limits the resolution of a pointer is complete. -/
theorem resolve_complete :
    (∃ rl, space.resolve opt pointerWidth solver 0 (fun _ => false) p = .ok (false, rl) ∧ rl.Nodup ∧
      ∀ x, x ∈ rl ↔ x ∈ space.objects.entries ∧ MayPointTo opt pointerWidth V p x) ∧
    (p.isConstant = false → ∃ result, space.resolveOne opt pointerWidth solver p = .ok (some result) ∧
      (∀ x, result = some x → x ∈ space.objects.entries ∧ MayPointTo opt pointerWidth V p x) ∧
      (result = none ↔ ∀ x ∈ space.objects.entries, ¬MayPointTo opt pointerWidth V p x)) := by
  refine ⟨h.resolve_all hsolver hp hsound, fun hsymbolic => ?_⟩
  obtain ⟨c, hc, v₀, hv₀, hcex⟩ := hsolver.getValue p pointerWidth hp hsound
  have hdenotes : Denotes opt V pointerWidth p fun v => p.value v := ⟨hp, hsound, fun _ _ => rfl⟩
  have hmay : ∀ x ∈ space.objects.entries, (MayPointTo opt pointerWidth V p x ↔ Resolves V (fun v => p.value v) x) :=
    fun x hx => mayPointTo_iff ⟨v₀, hv₀⟩ (h.fits x hx) hdenotes
  have hcomplete : ∃ result, space.resolveOne opt pointerWidth solver p = .ok (some result) ∧
      CompleteOne V (fun v => p.value v) space result := by
    have hgeneral : space.resolveOne opt pointerWidth solver p = space.resolveOneFrom opt pointerWidth solver c p := by
      unfold resolveOne
      cases p with
      | constant _ _ => cases hsymbolic
      | _ => simp only [hc]
    rw [hgeneral]
    exact h.resolveOne_symbolic hsolver hdenotes ⟨v₀, hv₀, hcex⟩
  obtain ⟨result, hok, hsome, hnone⟩ := hcomplete
  refine ⟨result, hok, fun x hx => ⟨(hsome x hx).1, (hmay x (hsome x hx).1).mpr (hsome x hx).2⟩, ?_⟩
  constructor
  · exact fun hresult x hx hpoints => hnone hresult x hx ((hmay x hx).mp hpoints)
  · intro hall
    cases result with
    | none => rfl
    | some x => exact absurd ((hmay x (hsome x rfl).1).mpr (hsome x rfl).2) (hall x (hsome x rfl).1)

end

/-- All bytes are 3. -/
def allThree : Valuation := fun _ _ => 3

/-- The solver of a state whose constraints are satisfied when all bytes are 3. -/
def solverThree : TimingSolver where
  mustBeTrue e := some (e.value allThree = 1)
  getValue e := some (e.value allThree)

theorem solverThree_correct : solverThree.Correct true (· = allThree) where
  mustBeTrue e _ _ := ⟨decide (e.value allThree = 1), rfl, by simp [Expr.Holds]⟩
  getValue e _ _ _ := ⟨e.value allThree, rfl, allThree, rfl, rfl⟩

/-- An object of 8 bytes and one without bytes. -/
def twoObjects : AddressSpace where
  objects := ⟨[(⟨4096, 8⟩, 0), (⟨8192, 0⟩, 1)], by decide⟩

theorem twoObjects_disjoint : twoObjects.Disjoint 64 where
  fits := by
    intro x hx
    simp only [twoObjects, List.mem_cons, List.not_mem_nil, or_false] at hx
    rcases hx with rfl | rfl <;> exact ⟨by decide, by decide, by decide⟩
  disjoint := by
    intro x hx y hy b hxb hyb
    simp only [twoObjects, List.mem_cons, List.not_mem_nil, or_false] at hx hy
    rcases hx with rfl | rfl <;> rcases hy with rfl | rfl <;> simp [MemoryObject.InBounds] at hxb hyb ⊢ <;> omega

/-- A pointer that is a symbolic byte away from the first object. -/
theorem resolve_complete_byte :
    let p : Expr := .arith .add (.constant 64 4096) (.zext (.read (.root { id := 1, size := 1 }) (.constant 32 0)) 64)
    (∃ rl, twoObjects.resolve true 64 solverThree 0 (fun _ => false) p = .ok (false, rl) ∧ rl.Nodup ∧
      ∀ x, x ∈ rl ↔ x ∈ twoObjects.objects.entries ∧ MayPointTo true 64 (· = allThree) p x) ∧
    (p.isConstant = false → ∃ result, twoObjects.resolveOne true 64 solverThree p = .ok (some result) ∧
      (∀ x, result = some x → x ∈ twoObjects.objects.entries ∧ MayPointTo true 64 (· = allThree) p x) ∧
      (result = none ↔ ∀ x ∈ twoObjects.objects.entries, ¬MayPointTo true 64 (· = allThree) p x)) := by
  intro p
  refine resolve_complete twoObjects_disjoint solverThree_correct ?_ fun v _ => ?_
  · exact ⟨⟨(by decide : 0 < 64), ⟨⟨⟨by decide, by decide, by decide⟩, (by decide : 0 < 32), rfl⟩, by decide⟩, rfl⟩, rfl⟩
  · simp [p, Expr.Sound, UpdateList.Sound, UpdateList.array, Array.isConstantArray, Array.isSymbolicArray]

end AddressSpace

end CapTaint.Klee
