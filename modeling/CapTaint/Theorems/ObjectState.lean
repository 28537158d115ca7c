import CapTaint.Klee.ObjectState
import CapTaint.Theorems.Constructors
import CapTaint.Lib.OptionLoop

/-! # Objects remember what is written to them

`V` are the valuations in question, such as those that satisfy a path condition; the memory that an object stands for is
a function of the valuation and the offset. -/

namespace CapTaint.Klee

/-! ### Contents -/

/-- The byte at an index: the latest update at it, or the array's element. An object without an array is zero there. -/
def Updates.readAt (v : Valuation) (updates : Updates) (i : Nat) : Nat :=
  match updates.nodes.find? fun node => node.1.value v = i with
  | some node => node.2.value v
  | none => (updates.root.map fun array => array.initial v i).getD 0

theorem Updates.toUpdateList_array (array : Array) (nodes : List (Expr × Expr)) :
    (Updates.toUpdateList array nodes).array = array := by
  induction nodes with
  | nil => rfl
  | cons node nodes ih => exact ih

theorem Updates.toUpdateList_readAt (v : Valuation) (array : Array) (nodes : List (Expr × Expr)) (i : Nat) :
    (Updates.toUpdateList array nodes).readAt v i = Updates.readAt v { root := some array, nodes } i := by
  induction nodes with
  | nil => rfl
  | cons node nodes ih =>
    rw [Updates.toUpdateList, List.foldr_cons, UpdateList.readAt]
    by_cases hnode : node.1.value v = i
    · simp [Updates.readAt, hnode]
    · rw [if_neg hnode]
      simp only [Updates.readAt, List.find?_cons, hnode, decide_false]
      exact ih

namespace ObjectState

/-! ### The oldest writes

An object without an array gets one for them. -/

/-- An update of a constant at a constant index. -/
def isConcreteWrite (write : Expr × Expr) : Bool := write.1.isConstant && write.2.isConstant

/-- What such an update does to the bytes. -/
def replay (contents : List (BitVec 8)) : Expr × Expr → List (BitVec 8)
  | (.constant _ index, .constant _ value) => contents.set index.toNat (value.setWidth 8)
  | _ => contents

/-- `getUpdates` gives a constant array that holds the oldest concrete updates, replayed on zeros, under the other
    updates in their order, and the bytes are the same. -/
def Materialises (id : Nat) (os : ObjectState) : Prop :=
  ∃ updates os', os.getUpdates id = .ok (updates, os') ∧ updates.array.isConstantArray = true ∧
    updates.array.constantValues.map (·.toNat) =
      (((os.updates.nodes.reverse.takeWhile isConcreteWrite).foldl replay (List.replicate os.size 0)).map (·.toNat)) ∧
    updates.nodes = (os.updates.nodes.reverse.dropWhile isConcreteWrite).reverse ∧
    ∀ v i, i < os.size → updates.readAt v i = os.updates.readAt v i

/-- The end of the contents is taken for their beginning, and null for their end. -/
theorem vectorOfRange_end (contents : List (BitVec 8)) :
    vectorOfRange (addressOf contents contents.length) .null = if contents = [] then .ok [] else .error .lengthError := by
  unfold addressOf
  split <;> rfl

/-- No object without an array gets one: with bytes the construction of the vector fails, and without bytes the array
    would be symbolic. -/
theorem getUpdates_not_materialises (id : Nat) (os : ObjectState) (hroot : os.updates.root = none) : ¬os.Materialises id := by
  rintro ⟨updates, os', hok, hconstant, -⟩
  unfold getUpdates at hok
  simp only [hroot, Array.new, vectorOfRange_end] at hok
  by_cases hempty : (pullOff (List.replicate os.size 0) os.updates.nodes.reverse).1 = []
  · simp only [hempty, if_true] at hok
    obtain ⟨array, harray, hok⟩ := Result.bind_eq_ok.mp hok
    obtain ⟨rest, -, hrest⟩ := Result.bind_eq_ok.mp hok
    simp only [bind, Except.bind, true_or, if_true] at harray
    obtain rfl := Except.ok.inj harray
    obtain ⟨rfl, -⟩ := Prod.mk.inj (Except.ok.inj hrest)
    rw [Updates.toUpdateList_array] at hconstant
    cases hconstant
  · simp only [hempty, if_false] at hok
    cases hok

/-- An object of two zero bytes. -/
def twoZeros : ObjectState := concrete 2 none

theorem twoZeros_not_materialised : twoZeros.getUpdates 0 = .error .lengthError ∧ ¬twoZeros.Materialises 0 := by
  have herror : twoZeros.getUpdates 0 = .error .lengthError := by rfl
  refine ⟨herror, ?_⟩
  rintro ⟨updates, os', hok, -⟩
  rw [herror] at hok
  cases hok

/-- The second byte is first overwritten with 7. -/
theorem getUpdates_not_materialises_written : ¬({ twoZeros with
    updates := ⟨none, [(.constant 32 1, .constant 8 7)]⟩ } : ObjectState).Materialises 0 :=
  getUpdates_not_materialises 0 _ rfl

end ObjectState

variable {opt littleEndian : Bool} {id : Nat} {V : Valuation → Prop} {w k : Nat} {e l r : Expr}

/-! ### Values under all valuations -/

/-- `e` has width `w` and the value `f v` under each of the valuations. -/
structure Denotes (opt : Bool) (V : Valuation → Prop) (w : Nat) (e : Expr) (f : Valuation → Nat) : Prop where
  typed : e.Typed w
  sound : ∀ v, V v → e.Sound opt false v
  value : ∀ v, V v → e.value v = f v

variable {f g : Valuation → Nat}

theorem Denotes.operand (h : Denotes opt V w e f) {v : Valuation} (hv : V v) : Operand opt v w e := ⟨h.typed, h.sound v hv⟩

theorem Denotes.congr (h : Denotes opt V w e f) (hfg : ∀ v, V v → f v = g v) : Denotes opt V w e g :=
  ⟨h.typed, h.sound, fun v hv => (h.value v hv).trans (hfg v hv)⟩

theorem Denotes.bits (h : Denotes opt V w e f) {v : Valuation} (hv : V v) : (e.bits v w).toNat = f v :=
  (Expr.toNat_bits h.typed.1 h.typed.2).trans (h.value v hv)

theorem Denotes.constant (hw : 0 < w) (c : BitVec w) : Denotes opt V w (.constant w c) fun _ => c.toNat :=
  ⟨.constant hw c, fun _ _ => trivial, fun _ _ => rfl⟩

/-- A construction ends with the same expression whatever the valuation is. -/
theorem denotes_of_evaluates {result : Created} (hV : ∃ v, V v) (h : ∀ v, V v → Evaluates opt v w (f v) result) :
    ∃ e, result = .ok e ∧ Denotes opt V w e f := by
  obtain ⟨v₀, hv₀⟩ := hV
  obtain ⟨e, rfl, he, -⟩ := h v₀ hv₀
  have hall : ∀ v, V v → Operand opt v w e ∧ e.value v = f v := by
    intro v hv
    obtain ⟨e', heq, he'⟩ := h v hv
    obtain rfl := Except.ok.inj heq
    exact he'
  exact ⟨e, rfl, he.toTyped, fun v hv => (hall v hv).1.inRange, fun v hv => (hall v hv).2⟩

theorem Denotes.zext (hV : ∃ v, V v) (h : Denotes opt V k e f) (hw : 0 < w) :
    ∃ e', ZExtExpr.create e w = .ok e' ∧ Denotes opt V w e' fun v => f v % 2 ^ w := by
  refine denotes_of_evaluates hV fun v hv => ?_
  have hzext := zext_evaluates (h.operand hv) hw
  rwa [BitVec.toNat_setWidth, h.bits hv] at hzext

theorem Denotes.extract (hV : ∃ v, V v) (h : Denotes opt V k e f) {off : Nat} (hw : 0 < w) (hoff : off + w ≤ k) :
    ∃ e', ExtractExpr.create e off w = .ok e' ∧ Denotes opt V w e' fun v => f v / 2 ^ off % 2 ^ w := by
  refine denotes_of_evaluates hV fun v hv => ?_
  have hextract := extract_evaluates (h.operand hv) hw hoff
  rwa [BitVec.extractLsb'_toNat, h.bits hv, Nat.shiftRight_eq_div_pow] at hextract

theorem Denotes.concat (hV : ∃ v, V v) {m n : Nat} (hl : Denotes opt V m l f) (hr : Denotes opt V n r g) :
    ∃ e, ConcatExpr.create l r = .ok e ∧ Denotes opt V (m + n) e fun v => f v * 2 ^ n + g v := by
  refine denotes_of_evaluates hV fun v hv => ?_
  have hconcat := concat_evaluates (hl.operand hv) (hr.operand hv)
  have hlt : g v < 2 ^ n := hr.bits hv ▸ (r.bits v n).isLt
  rwa [BitVec.toNat_append, hl.bits hv, hr.bits hv, Nat.shiftLeft_eq, Nat.mul_comm (f v),
    ← Nat.two_pow_add_eq_or_of_lt hlt, Nat.mul_comm (2 ^ n)] at hconcat

theorem Denotes.add (hV : ∃ v, V v) (hl : Denotes opt V w l f) (hr : Denotes opt V w r g) :
    ∃ e, AddExpr.create opt l r = .ok e ∧ Denotes opt V w e fun v => (f v + g v) % 2 ^ w := by
  refine denotes_of_evaluates hV fun v hv => ?_
  have hadd := arith_evaluates .add (hl.operand hv) (hr.operand hv) nofun
  have hsum : (ArithKind.add.eval (l.bits v w) (r.bits v w)).toNat = (f v + g v) % 2 ^ w := by
    rw [ArithKind.eval, BitVec.toNat_add, hl.bits hv, hr.bits hv]
  rwa [hsum] at hadd

/-! ### Expressions without foldable sums -/

/-- No operator has two constants: the `create` functions fold them. -/
def Expr.Folded : Expr → Prop
  | .constant _ _ => True
  | .notOptimized src => src.Folded
  | .read _ index => index.Folded
  | .select cond trueExpr falseExpr => cond.Folded ∧ trueExpr.Folded ∧ falseExpr.Folded
  | .concat left right => left.Folded ∧ right.Folded
  | .extract expr _ _ => expr.Folded
  | .zext src _ => src.Folded
  | .sext src _ => src.Folded
  | .not expr => expr.Folded
  | .arith _ left right => (left.isConstant = true → right.isConstant = false) ∧ left.Folded ∧ right.Folded
  | .cmp _ left right => left.Folded ∧ right.Folded

/-- A part of an expression has no other operators. -/
theorem ExtractExpr.createFuel_folded (fuel : Nat) : ∀ (e : Expr) (off w : Nat) (x : Expr), e.Folded →
    ExtractExpr.createFuel fuel e off w = .ok x → x.Folded := by
  induction fuel with
  | zero => exact fun _ _ _ _ _ h => nomatch h
  | succ fuel ih =>
    intro e off w x he h
    unfold ExtractExpr.createFuel at h
    split at h
    · cases h
    split at h
    · obtain rfl := Except.ok.inj h
      exact he
    split at h
    · obtain rfl := Except.ok.inj h
      trivial
    · split at h
      · exact ih _ _ _ _ he.1 h
      split at h
      · exact ih _ _ _ _ he.2 h
      obtain ⟨l, hl, h⟩ := Result.bind_eq_ok.mp h
      obtain ⟨r, hr, h⟩ := Result.bind_eq_ok.mp h
      have hlf := ih _ _ _ _ he.1 hl
      have hrf := ih _ _ _ _ he.2 hr
      unfold ConcatExpr.createWith at h
      split at h
      · obtain rfl := Except.ok.inj h
        trivial
      · split at h
        · refine ih _ _ _ _ ?_ h
          exact hlf
        · obtain rfl := Except.ok.inj h
          exact ⟨hlf, hrf⟩
      · obtain rfl := Except.ok.inj h
        exact ⟨hlf, hrf⟩
    · obtain rfl := Except.ok.inj h
      exact he

theorem ZExtExpr.create_folded {e x : Expr} {w : Nat} (he : e.Folded) (h : ZExtExpr.create e w = .ok x) : x.Folded := by
  unfold ZExtExpr.create at h
  split at h
  · obtain rfl := Except.ok.inj h
    exact he
  split at h
  · exact ExtractExpr.createFuel_folded _ _ _ _ _ he h
  split at h
  · obtain rfl := Except.ok.inj h
    trivial
  · obtain rfl := Except.ok.inj h
    exact he

/-- A sum or a difference of a constant and an operand that is not one is not one. -/
theorem createPartialR_symbolic (hw : w ≠ 1) (c : BitVec w) (hr : r.Folded) (hsymbolic : r.isConstant = false) :
    (∀ x, AddExpr.createPartialR opt c r = .ok x → x.isConstant = false) ∧
      ∀ x, SubExpr.createPartialR opt c r = .ok x → x.isConstant = false := by
  induction hsize : r.size using Nat.strong_induction_on generalizing r c with
  | _ size ih =>
    subst hsize
    -- the operand of a sum with a constant
    have hkid : ∀ {kind kind' : ArithKind} {wk : Nat} {k : BitVec wk} {kid : Expr} (c : BitVec w),
        r = .arith kind (.constant wk k) kid →
        (∀ x, foldConstant kind' c kid (AddExpr.createPartialR opt c kid) = .ok x → x.isConstant = false) ∧
          ∀ x, foldConstant kind' c kid (SubExpr.createPartialR opt c kid) = .ok x → x.isConstant = false := by
      rintro kind kind' wk k kid c rfl
      have hkid : kid.isConstant = false := hr.1 rfl
      obtain ⟨hadd, hsub⟩ := ih kid.size (Nat.lt_succ_of_le (Nat.le_add_left _ _)) c hr.2.2 hkid rfl
      constructor <;> intro x hx <;> unfold foldConstant at hx <;> split at hx <;> try cases hx
      · split at hx
        · cases hkid
        · exact hadd x hx
      · split at hx
        · cases hkid
        · exact hsub x hx
    constructor
    · intro x hx
      unfold AddExpr.createPartialR at hx
      rw [if_neg hw] at hx
      split at hx
      · obtain rfl := Except.ok.inj hx
        exact hsymbolic
      split at hx
      · split at hx
        · cases hx
        · exact (hkid _ rfl).1 x hx
      · split at hx
        · cases hx
        · exact (hkid _ rfl).2 x hx
      · obtain rfl := Except.ok.inj hx
        rfl
    · intro x hx
      unfold SubExpr.createPartialR at hx
      rw [if_neg hw] at hx
      split at hx
      · split at hx
        · cases hx
        · exact (hkid _ rfl).2 x hx
      · split at hx
        · cases hx
        · exact (hkid _ rfl).1 x hx
      · obtain rfl := Except.ok.inj hx
        rfl

theorem AddExpr.create_symbolic {x : Expr} (hw : w ≠ 1) (c : BitVec w) (hl : l.Folded) (hsymbolic : l.isConstant = false)
    (h : AddExpr.create opt l (.constant w c) = .ok x) : x.isConstant = false := by
  have hsymbolicLeft : AddExpr.create opt l (.constant w c) =
      if l.getWidth ≠ w then .error .assertion else AddExpr.createPartialR opt c l := by
    cases l with
    | constant _ _ => cases hsymbolic
    | _ => rfl
  rw [hsymbolicLeft] at h
  split at h
  · cases h
  · exact (createPartialR_symbolic hw c hl hsymbolic).1 x h

namespace ObjectState

variable {os os' : ObjectState} {m m' : Valuation → Nat → Nat} {offset i : Nat}

/-! ### The masks -/

@[simp] theorem isByteConcrete_markByteConcrete : (os.markByteConcrete offset).isByteConcrete i =
    (decide (i = offset) || os.isByteConcrete i) := by
  unfold markByteConcrete isByteConcrete
  cases os.concreteMask with
  | none => simp
  | some mask => by_cases h : i = offset <;> simp [h]

@[simp] theorem isByteFlushed_markByteConcrete : (os.markByteConcrete offset).isByteFlushed i = os.isByteFlushed i := rfl

@[simp] theorem knownSymbolic_markByteConcrete : (os.markByteConcrete offset).knownSymbolic i = os.knownSymbolic i := rfl

@[simp] theorem isByteConcrete_markByteSymbolic : (os.markByteSymbolic offset).isByteConcrete i =
    (decide (i ≠ offset) && os.isByteConcrete i) := by
  unfold markByteSymbolic isByteConcrete
  cases os.concreteMask with
  | none => by_cases h : i = offset <;> simp [h]
  | some mask => by_cases h : i = offset <;> simp [h]

@[simp] theorem isByteFlushed_markByteSymbolic : (os.markByteSymbolic offset).isByteFlushed i = os.isByteFlushed i := rfl

@[simp] theorem knownSymbolic_markByteSymbolic : (os.markByteSymbolic offset).knownSymbolic i = os.knownSymbolic i := rfl

@[simp] theorem isByteConcrete_markByteUnflushed : (os.markByteUnflushed offset).isByteConcrete i = os.isByteConcrete i := rfl

@[simp] theorem isByteFlushed_markByteUnflushed : (os.markByteUnflushed offset).isByteFlushed i =
    (decide (i ≠ offset) && os.isByteFlushed i) := by
  unfold markByteUnflushed isByteFlushed
  cases os.flushMask with
  | none => simp
  | some mask => by_cases h : i = offset <;> simp [h]

@[simp] theorem knownSymbolic_markByteUnflushed : (os.markByteUnflushed offset).knownSymbolic i = os.knownSymbolic i := rfl

@[simp] theorem isByteConcrete_setKnownSymbolic {value : Option Expr} :
    (os.setKnownSymbolic offset value).isByteConcrete i = os.isByteConcrete i := rfl

@[simp] theorem isByteFlushed_setKnownSymbolic {value : Option Expr} :
    (os.setKnownSymbolic offset value).isByteFlushed i = os.isByteFlushed i := rfl

@[simp] theorem knownSymbolic_setKnownSymbolic {value : Option Expr} : (os.setKnownSymbolic offset value).knownSymbolic i =
    if i = offset then value else os.knownSymbolic i := by
  unfold setKnownSymbolic knownSymbolic
  cases os.knownSymbolics <;> cases value <;> by_cases h : i = offset <;> simp [h]

@[simp] theorem isByteFlushed_makeFlushMask : os.makeFlushMask.isByteFlushed i = os.isByteFlushed i := by
  unfold makeFlushMask isByteFlushed
  cases os.flushMask <;> rfl

/-- The loops have made the mask. -/
theorem isByteFlushed_unsetFlushMask (hmask : os.flushMask.isSome = true) : (os.unsetFlushMask offset).isByteFlushed i =
    (decide (i = offset) || os.isByteFlushed i) := by
  obtain ⟨mask, hmask⟩ := Option.isSome_iff_exists.mp hmask
  by_cases h : i = offset <;> simp [unsetFlushMask, isByteFlushed, hmask, h]

/-! ### What an object stands for -/

/-- What the comment on the caches says. -/
structure CacheInvariants (os : ObjectState) : Prop where
  known : ∀ i < os.size, os.isByteKnownSymbolic i = true → os.isByteConcrete i = false
  cached : ∀ i < os.size, os.isByteFlushed i = false → os.isByteConcrete i = true ∨ os.isByteKnownSymbolic i = true

/-- An array of bytes that covers the object where reads of constant arrays are looked up. -/
structure Covers (opt : Bool) (array : Array) (size : Nat) : Prop where
  wellFormed : array.WellFormed
  domain : array.domain = 32
  range : array.range = 8
  size : opt = true → array.isConstantArray = true → size ≤ array.size

/-- The object has the bytes `m`: those in a cache and, where they have been flushed, those in the update list. -/
structure Represents (opt : Bool) (V : Valuation → Prop) (os : ObjectState) (m : Valuation → Nat → Nat) : Prop where
  size_lt : os.size < 2 ^ 32
  caches : os.CacheInvariants
  root : ∀ array ∈ os.updates.root, Covers opt array os.size
  nodes : ∀ node ∈ os.updates.nodes, node.1.Typed 32 ∧ node.2.Typed 8 ∧
    ∀ v, V v → node.1.Sound opt false v ∧ node.2.Sound opt false v
  concrete : ∀ i < os.size, os.isByteConcrete i = true → ∀ v, V v → (os.concreteStore i).toNat = m v i
  symbolic : ∀ i < os.size, ∀ e, os.knownSymbolic i = some e → Denotes opt V 8 e fun v => m v i
  updated : ∀ i < os.size, os.isByteFlushed i = true → ∀ v, V v → os.updates.readAt v i = m v i

theorem Updates.readAt_extend (v : Valuation) (updates : Updates) (index value : Expr) (i : Nat) :
    Updates.readAt v { updates with nodes := (index, value) :: updates.nodes } i =
      if index.value v = i then value.value v else updates.readAt v i := by
  by_cases h : index.value v = i <;> simp [Updates.readAt, h]

/-- The value of a byte in a cache. -/
theorem Represents.cached (h : Represents opt V os m) (hi : i < os.size)
    (hcached : os.isByteConcrete i = true ∨ os.isByteKnownSymbolic i = true) :
    ∃ e, os.cached i = .ok e ∧ Denotes opt V 8 e fun v => m v i := by
  unfold ObjectState.cached
  by_cases hconcrete : os.isByteConcrete i = true
  · rw [if_pos hconcrete]
    exact ⟨_, rfl, (Denotes.constant (by decide) _).congr fun v hv => h.concrete i hi hconcrete v hv⟩
  · obtain ⟨e, he⟩ := Option.isSome_iff_exists.mp (hcached.resolve_left hconcrete)
    rw [if_neg hconcrete, he]
    exact ⟨e, rfl, h.symbolic i hi e he⟩

/-! ### Flushing -/

/-- What a loop over bytes keeps: what the object stands for, and that there is a mask of flushed bytes. -/
structure Flushed (opt : Bool) (V : Valuation → Prop) (os os' : ObjectState) (m : Valuation → Nat → Nat) : Prop where
  represents : Represents opt V os' m
  mask : os'.flushMask.isSome = true
  size : os'.size = os.size
  root : os'.updates.root = os.updates.root

theorem Represents.makeFlushMask (h : Represents opt V os m) : Flushed opt V os os.makeFlushMask m where
  represents :=
    ⟨h.size_lt, ⟨h.caches.known, fun i hi hf => h.caches.cached i hi (by rwa [isByteFlushed_makeFlushMask] at hf)⟩, h.root,
      h.nodes, h.concrete, h.symbolic, fun i hi hf => h.updated i hi (by rwa [isByteFlushed_makeFlushMask] at hf)⟩
  mask := rfl
  size := rfl
  root := rfl

theorem toNat_offset (h : Represents opt V os m) (hi : i < os.size) : (BitVec.ofNat 32 i).toNat = i := by
  rw [BitVec.toNat_ofNat]
  exact Nat.mod_eq_of_lt (hi.trans h.size_lt)

/-- A byte that is not flushed becomes an update with its value. -/
theorem Represents.flushByte (h : Represents opt V os m) (hi : i < os.size) (hunflushed : os.isByteFlushed i = false) :
    ∃ updates, os.flushByte i = .ok { os with updates } ∧ updates.root = os.updates.root ∧
      (∀ node ∈ updates.nodes, node.1.Typed 32 ∧ node.2.Typed 8 ∧
        ∀ v, V v → node.1.Sound opt false v ∧ node.2.Sound opt false v) ∧
      ∀ v, V v → ∀ j, updates.readAt v j = if i = j then m v i else os.updates.readAt v j := by
  obtain ⟨e, hcached, he⟩ := h.cached hi (h.caches.cached i hi hunflushed)
  have hwidths : ∀ array ∈ os.updates.root,
      array.domain = (Expr.constant 32 (BitVec.ofNat 32 i)).getWidth ∧ array.range = e.getWidth :=
    fun array harray => ⟨(h.root array harray).domain, (h.root array harray).range.trans he.typed.2.symm⟩
  refine ⟨{ os.updates with nodes := (.constant 32 (BitVec.ofNat 32 i), e) :: os.updates.nodes }, ?_, rfl, ?_, ?_⟩
  · simp only [ObjectState.flushByte, hcached, Updates.extend, if_pos hwidths, bind, Except.bind, pure, Except.pure]
  · intro node hnode
    rcases List.mem_cons.mp hnode with rfl | hnode
    · exact ⟨.constant (by decide) _, he.typed, fun v hv => ⟨trivial, he.sound v hv⟩⟩
    · exact h.nodes node hnode
  · intro v hv j
    rw [Updates.readAt_extend, he.value v hv]
    simp only [Expr.value, toNat_offset h hi]

/-- One turn of the loop for reads. -/
theorem Flushed.read {os₀ : ObjectState} (h : Flushed opt V os₀ os m) (hi : i < os.size) :
    ∃ os', os.flushByteForRead i = .ok os' ∧ Flushed opt V os₀ os' m ∧
      ∀ j, (os'.isByteFlushed j = true ↔ j = i ∨ os.isByteFlushed j = true) ∧
        os'.isByteConcrete j = os.isByteConcrete j ∧ os'.knownSymbolic j = os.knownSymbolic j := by
  unfold flushByteForRead
  by_cases hflushed : os.isByteFlushed i = true
  · rw [if_pos hflushed]
    refine ⟨os, rfl, h, fun j => ⟨⟨.inr, ?_⟩, rfl, rfl⟩⟩
    rintro (rfl | hj)
    · exact hflushed
    · exact hj
  · have hunflushed : os.isByteFlushed i = false := by simpa using hflushed
    obtain ⟨updates, hok, hroot, hnodes, hread⟩ := h.represents.flushByte hi hunflushed
    have hf : ∀ j, (({ os with updates } : ObjectState).unsetFlushMask i).isByteFlushed j =
        (decide (j = i) || os.isByteFlushed j) := fun j => isByteFlushed_unsetFlushMask h.mask
    rw [if_neg hflushed, hok]
    refine ⟨_, rfl, ⟨⟨h.represents.size_lt, ⟨h.represents.caches.known, fun j hj hfj => ?_⟩, fun array harray => ?_, hnodes,
      h.represents.concrete, h.represents.symbolic, fun j hj hfj v hv => ?_⟩, ?_, h.size, hroot.trans h.root⟩, fun j => ?_⟩
    · rw [hf, Bool.or_eq_false_iff] at hfj
      exact h.represents.caches.cached j hj hfj.2
    · exact h.represents.root array (hroot ▸ harray)
    · rw [hf, Bool.or_eq_true, decide_eq_true_eq] at hfj
      refine (hread v hv j).trans ?_
      split
      · subst i
        rfl
      · rename_i hne
        exact h.represents.updated j hj (hfj.resolve_left (Ne.symm hne)) v hv
    · have hmask : os.flushMask.isSome = true := h.mask
      simpa [unsetFlushMask] using hmask
    · rw [hf, Bool.or_eq_true, decide_eq_true_eq]
      exact ⟨Iff.rfl, rfl, rfl⟩

/-- A turn of the loop for writes is one of the loop for reads that also drops the cache. -/
theorem flushByteForWrite_eq (os : ObjectState) (i : Nat) :
    os.flushByteForWrite i = (os.flushByteForRead i).map fun os => os.dropCache i := by
  have hcommute : ∀ os : ObjectState, (os.dropCache i).unsetFlushMask i = (os.unsetFlushMask i).dropCache i := by
    intro os
    have hconcrete : (os.unsetFlushMask i).isByteConcrete i = os.isByteConcrete i := rfl
    have hknown : (os.unsetFlushMask i).isByteKnownSymbolic i = os.isByteKnownSymbolic i := rfl
    unfold dropCache
    rw [hconcrete, hknown]
    split
    · rfl
    · split <;> rfl
  unfold flushByteForWrite flushByteForRead
  split
  · rfl
  · cases os.flushByte i with
    | error fault => rfl
    | ok os => exact congrArg Except.ok (hcommute os)

theorem isByteConcrete_dropCache (os : ObjectState) (i j : Nat) :
    (os.dropCache i).isByteConcrete j = (decide (j ≠ i) && os.isByteConcrete j) := by
  have hother : os.isByteConcrete i = false → os.isByteConcrete j = (decide (j ≠ i) && os.isByteConcrete j) := by
    intro hi
    by_cases hj : j = i
    · simp [hj, hi]
    · simp [hj]
  unfold dropCache
  split
  · exact isByteConcrete_markByteSymbolic
  · rename_i hi
    have hi : os.isByteConcrete i = false := by simpa using hi
    split
    · rw [isByteConcrete_setKnownSymbolic]
      exact hother hi
    · exact hother hi

theorem knownSymbolic_dropCache (h : os.CacheInvariants) (hi : i < os.size) (j : Nat) :
    (os.dropCache i).knownSymbolic j = if j = i then none else os.knownSymbolic j := by
  have hother : os.isByteKnownSymbolic i = false → os.knownSymbolic j = if j = i then none else os.knownSymbolic j := by
    intro hknown
    split
    · subst j
      simpa [isByteKnownSymbolic] using hknown
    · rfl
  unfold dropCache
  split
  · rename_i hconcrete
    refine hother ?_
    by_contra hknown
    rw [h.known i hi (by simpa using hknown)] at hconcrete
    cases hconcrete
  · split
    · exact knownSymbolic_setKnownSymbolic
    · rename_i hknown
      exact hother (by simpa using hknown)

theorem dropCache_fields (os : ObjectState) (i : Nat) :
    (os.dropCache i).size = os.size ∧ (os.dropCache i).updates = os.updates ∧ (os.dropCache i).flushMask = os.flushMask ∧
      (os.dropCache i).concreteStore = os.concreteStore := by
  unfold dropCache
  split
  · exact ⟨rfl, rfl, rfl, rfl⟩
  · split <;> exact ⟨rfl, rfl, rfl, rfl⟩

/-- A flushed byte does without its cache. -/
theorem Flushed.dropCache {os₀ : ObjectState} (h : Flushed opt V os₀ os m) (hi : i < os.size)
    (hflushed : os.isByteFlushed i = true) : Flushed opt V os₀ (os.dropCache i) m := by
  obtain ⟨hsize, hupdates, hmask, hstore⟩ := dropCache_fields os i
  have hf : ∀ j, (os.dropCache i).isByteFlushed j = os.isByteFlushed j := fun j => by unfold isByteFlushed; rw [hmask]
  have hknown := knownSymbolic_dropCache h.represents.caches hi
  refine ⟨⟨hsize ▸ h.represents.size_lt, ⟨fun j hj hk => ?_, fun j hj hfj => ?_⟩, ?_, ?_, fun j hj hc v hv => ?_,
    fun j hj e he => ?_, fun j hj hfj v hv => ?_⟩, hmask ▸ h.mask, hsize.trans h.size, hupdates ▸ h.root⟩
  · rw [isByteKnownSymbolic, hknown] at hk
    split at hk
    · cases hk
    · rw [isByteConcrete_dropCache, h.represents.caches.known j (hsize ▸ hj) hk, Bool.and_false]
  · rw [hf] at hfj
    have hne : j ≠ i := fun heq => by rw [heq, hflushed] at hfj; cases hfj
    rw [isByteConcrete_dropCache, isByteKnownSymbolic, hknown, if_neg hne]
    simpa [hne, isByteKnownSymbolic] using h.represents.caches.cached j (hsize ▸ hj) hfj
  · rw [hupdates, hsize]
    exact h.represents.root
  · rw [hupdates]
    exact h.represents.nodes
  · rw [isByteConcrete_dropCache, Bool.and_eq_true] at hc
    rw [hstore]
    exact h.represents.concrete j (hsize ▸ hj) hc.2 v hv
  · rw [hknown] at he
    split at he
    · cases he
    · exact h.represents.symbolic j (hsize ▸ hj) e he
  · rw [hf] at hfj
    rw [hupdates]
    exact h.represents.updated j (hsize ▸ hj) hfj v hv

/-- A byte that no cache has. -/
def Bare (os : ObjectState) (i : Nat) : Prop := os.isByteConcrete i = false ∧ os.knownSymbolic i = none

/-- One turn of the loop for writes. -/
theorem Flushed.write {os₀ : ObjectState} (h : Flushed opt V os₀ os m) (hi : i < os.size) :
    ∃ os', os.flushByteForWrite i = .ok os' ∧ Flushed opt V os₀ os' m ∧ os'.Bare i ∧ ∀ j, os.Bare j → os'.Bare j := by
  obtain ⟨os', hok, h', hbytes⟩ := h.read hi
  have hi' : i < os'.size := by rwa [h'.size, ← h.size]
  have hknown := knownSymbolic_dropCache h'.represents.caches hi'
  refine ⟨os'.dropCache i, ?_, h'.dropCache hi' ((hbytes i).1.mpr (.inl rfl)), ⟨?_, ?_⟩, fun j hj => ⟨?_, ?_⟩⟩
  · rw [flushByteForWrite_eq, hok]
    rfl
  · simp [isByteConcrete_dropCache]
  · rw [hknown, if_pos rfl]
  · rw [isByteConcrete_dropCache, (hbytes j).2.1, hj.1, Bool.and_false]
  · rw [hknown, (hbytes j).2.2, hj.2, ite_self]

/-- A loop over the bytes of a range, each turn of which treats its byte and keeps the others. -/
theorem Flushed.range {os₀ : ObjectState} {turn : ObjectState → Nat → Except Fault ObjectState} {P : ObjectState → Nat → Prop}
    (hturn : ∀ {os₁ i}, Flushed opt V os₀ os₁ m → i < os₁.size →
      ∃ os₂, turn os₁ i = .ok os₂ ∧ Flushed opt V os₀ os₂ m ∧ P os₂ i ∧ ∀ j, P os₁ j → P os₂ j)
    (h : Flushed opt V os₀ os m) (base size : Nat) (hrange : base + size ≤ os₀.size) :
    ∃ os', (List.range' base size).foldlM turn os = .ok os' ∧ Flushed opt V os₀ os' m ∧
      ∀ j, base ≤ j → j < base + size → P os' j := by
  have hloop : ∀ (l : List Nat) (os₁ : ObjectState), (∀ i ∈ l, i < os₀.size) → Flushed opt V os₀ os₁ m →
      ∃ os', l.foldlM turn os₁ = .ok os' ∧ Flushed opt V os₀ os' m ∧ ∀ j, j ∈ l ∨ P os₁ j → P os' j := by
    intro l
    induction l with
    | nil => exact fun os₁ _ h₁ => ⟨os₁, rfl, h₁, fun j hj => hj.resolve_left List.not_mem_nil⟩
    | cons i l ih =>
      intro os₁ hl h₁
      obtain ⟨os₂, hok, h₂, htreated, hkept⟩ := hturn h₁ (by rw [h₁.size]; exact hl i List.mem_cons_self)
      obtain ⟨os', hrest, h', hall⟩ := ih os₂ (fun j hj => hl j (List.mem_cons_of_mem i hj)) h₂
      refine ⟨os', ?_, h', fun j hj => hall j ?_⟩
      · rw [List.foldlM_cons, hok]
        exact hrest
      · rcases hj with hj | hj
        · rcases List.mem_cons.mp hj with rfl | hj
          · exact .inr htreated
          · exact .inl hj
        · exact .inr (hkept j hj)
  have hin : ∀ i ∈ List.range' base size, i < os₀.size := fun i hi => by
    have := (List.mem_range'_1.mp hi).2
    omega
  obtain ⟨os', hok, h', hall⟩ := hloop _ _ hin h
  exact ⟨os', hok, h', fun j hle hlt => hall j (.inl (List.mem_range'_1.mpr ⟨hle, hlt⟩))⟩

/-- `flushRangeForRead` does not change the contents. -/
theorem Represents.flushRangeForRead (h : Represents opt V os m) (base size : Nat) (hrange : base + size ≤ os.size) :
    ∃ os', os.flushRangeForRead base size = .ok os' ∧ Flushed opt V os os' m ∧
      ∀ j, base ≤ j → j < base + size → os'.isByteFlushed j = true := by
  refine Flushed.range (P := fun os j => os.isByteFlushed j = true) (fun h₁ hi => ?_)
    h.makeFlushMask base size hrange
  obtain ⟨os₂, hok, h₂, hbytes⟩ := h₁.read hi
  exact ⟨os₂, hok, h₂, (hbytes _).1.mpr (.inl rfl), fun j hj => (hbytes j).1.mpr (.inr hj)⟩

/-- `flushRangeForWrite` does not change the contents either, and leaves no cache in the range. -/
theorem Represents.flushRangeForWrite (h : Represents opt V os m) (base size : Nat) (hrange : base + size ≤ os.size) :
    ∃ os', os.flushRangeForWrite base size = .ok os' ∧ Flushed opt V os os' m ∧
      ∀ j, base ≤ j → j < base + size → os'.Bare j :=
  Flushed.range Flushed.write h.makeFlushMask base size hrange

/-! ### Single bytes -/

/-- The update list of an object with an array. -/
theorem Represents.getUpdates (id : Nat) (h : Represents opt V os m) (hroot : os.updates.root.isSome = true) :
    ∃ updates, os.getUpdates id = .ok (updates, os) ∧ updates.WellTyped ∧ Covers opt updates.array os.size ∧
      (∀ v, V v → updates.Sound opt false v) ∧ ∀ v j, updates.readAt v j = os.updates.readAt v j := by
  obtain ⟨array, harray⟩ := Option.isSome_iff_exists.mp hroot
  have hcovers := h.root array harray
  have hnodes := h.nodes
  unfold ObjectState.getUpdates
  rw [harray]
  refine ⟨_, rfl, ?_, ?_, ?_, fun v j => ?_⟩
  · generalize os.updates.nodes = nodes at hnodes
    induction nodes with
    | nil => exact hcovers.wellFormed
    | cons node nodes ih =>
      obtain ⟨hindex, hvalue, -⟩ := hnodes node List.mem_cons_self
      have harray' := Updates.toUpdateList_array array nodes
      refine ⟨ih fun n hn => hnodes n (List.mem_cons_of_mem node hn), hindex.1, hvalue.1, ?_, ?_⟩
      · exact hindex.2.trans (hcovers.domain.symm.trans (congrArg Array.domain harray'.symm))
      · exact hvalue.2.trans (hcovers.range.symm.trans (congrArg Array.range harray'.symm))
  · rwa [Updates.toUpdateList_array]
  · intro v hv
    generalize os.updates.nodes = nodes at hnodes
    induction nodes with
    | nil => trivial
    | cons node nodes ih =>
      obtain ⟨-, -, hsound⟩ := hnodes node List.mem_cons_self
      exact ⟨ih fun n hn => hnodes n (List.mem_cons_of_mem node hn), (hsound v hv).1, (hsound v hv).2⟩
  · rw [Updates.toUpdateList_readAt, ← harray]

variable {a x : Valuation → Nat} {value : Expr}

/-- A read of a flushed byte through the update list. -/
theorem Represents.readIndex (id : Nat) (h : Represents opt V os m) (hV : ∃ v, V v) (hroot : os.updates.root.isSome = true)
    {index : Expr} (hindex : Denotes opt V 32 index a)
    (ha : ∀ v, V v → a v < os.size ∧ os.isByteFlushed (a v) = true) :
    ∃ updates e, os.getUpdates id = .ok (updates, os) ∧ ReadExpr.create opt updates index = .ok e ∧
      Denotes opt V 8 e fun v => m v (a v) := by
  obtain ⟨updates, hok, htyped, hcovers, hsound, hread⟩ := h.getUpdates id hroot
  have hevaluates : ∀ v, V v → Evaluates opt v 8 (m v (a v)) (ReadExpr.create opt updates index) := by
    intro v hv
    have hindex' : Operand opt v updates.array.domain index := hcovers.domain ▸ hindex.operand hv
    have hrange : opt = true → updates.array.isConstantArray = true → index.value v < updates.array.size := by
      intro hopt hconstant
      rw [hindex.value v hv]
      exact (ha v hv).1.trans_le (hcovers.size hopt hconstant)
    have hresult := read_evaluates htyped (hsound v hv) hindex' hrange
    rwa [hcovers.range, hindex.value v hv, hread, h.updated _ (ha v hv).1 (ha v hv).2 v hv] at hresult
  obtain ⟨e, he, hdenotes⟩ := denotes_of_evaluates hV hevaluates
  exact ⟨updates, e, hok, he, hdenotes⟩

/-- The byte is in a cache or there is an array below the updates. -/
def Served (os : ObjectState) (i : Nat) : Prop :=
  os.updates.root.isSome = true ∨ os.isByteConcrete i = true ∨ os.isByteKnownSymbolic i = true

theorem Represents.read8 (id : Nat) (h : Represents opt V os m) (hV : ∃ v, V v) (hi : i < os.size) (hserved : os.Served i) :
    ∃ e, os.read8 opt id i = .ok (e, os) ∧ Denotes opt V 8 e fun v => m v i := by
  unfold ObjectState.read8
  by_cases hconcrete : os.isByteConcrete i = true
  · rw [if_pos hconcrete]
    exact ⟨_, rfl, (Denotes.constant (by decide) _).congr fun v hv => h.concrete i hi hconcrete v hv⟩
  rw [if_neg hconcrete]
  cases hknown : os.knownSymbolic i with
  | some e => exact ⟨e, rfl, h.symbolic i hi e hknown⟩
  | none =>
    have hflushed : os.isByteFlushed i = true := by
      by_contra hunflushed
      rcases h.caches.cached i hi (by simpa using hunflushed) with hcached | hcached
      · exact hconcrete hcached
      · rw [isByteKnownSymbolic, hknown] at hcached
        cases hcached
    have hroot : os.updates.root.isSome = true := by
      refine hserved.resolve_right ?_
      simp [hconcrete, isByteKnownSymbolic, hknown]
    have hindex : Denotes opt V 32 (.constant 32 (BitVec.ofNat 32 i)) fun _ => i :=
      (Denotes.constant (by decide) _).congr fun _ _ => toNat_offset h hi
    obtain ⟨updates, e, hok, he, hdenotes⟩ := h.readIndex id hV hroot hindex fun _ _ => ⟨hi, hflushed⟩
    refine ⟨e, ?_, hdenotes⟩
    simp only [if_pos hflushed, hok, bind, Except.bind, liftM, monadLift, MonadLift.monadLift, he, Except.mapError, pure,
      Except.pure]

/-- A read at a symbolic offset first flushes the object. -/
theorem Represents.read8At (id : Nat) (h : Represents opt V os m) (hV : ∃ v, V v) (hroot : os.updates.root.isSome = true)
    {offset : Expr} (hoffset : Denotes opt V 32 offset a) (hsymbolic : offset.isConstant = false)
    (ha : ∀ v, V v → a v < os.size) :
    ∃ e os', os.read8At opt id offset = .ok (e, os') ∧ Flushed opt V os os' m ∧
      Denotes opt V 8 e fun v => m v (a v) := by
  obtain ⟨os', hflush, h', hflushed⟩ := h.flushRangeForRead 0 os.size (by omega)
  obtain ⟨updates, e, hok, he, hdenotes⟩ := h'.represents.readIndex id hV (h'.root ▸ hroot) hoffset fun v hv =>
    ⟨h'.size ▸ ha v hv, hflushed _ (Nat.zero_le _) (by rw [Nat.zero_add]; exact ha v hv)⟩
  have hzext : ZExtExpr.create offset 32 = .ok offset := if_pos hoffset.typed.2.symm
  refine ⟨e, os', ?_, h', hdenotes⟩
  simp only [ObjectState.read8At, hsymbolic, Bool.false_eq_true, if_false, fastRangeCheckOffset, hflush, hok, hzext, bind, Except.bind,
    liftM, monadLift, MonadLift.monadLift, he, Except.mapError, pure, Except.pure]

/-- The memory after a write of a byte. -/
def store (m : Valuation → Nat → Nat) (a x : Valuation → Nat) : Valuation → Nat → Nat :=
  fun v => Function.update (m v) (a v) (x v)

/-- A step leaves an object of the same size over the same array. -/
structure Stepped (opt : Bool) (V : Valuation → Prop) (os os' : ObjectState) (m : Valuation → Nat → Nat) : Prop where
  represents : Represents opt V os' m
  size : os'.size = os.size
  root : os'.updates.root = os.updates.root

theorem Flushed.stepped (h : Flushed opt V os os' m) : Stepped opt V os os' m := ⟨h.represents, h.size, h.root⟩

theorem store_same (m : Valuation → Nat → Nat) (i : Nat) (x : Valuation → Nat) (v : Valuation) :
    store m (fun _ => i) x v i = x v := Function.update_self _ _ _

theorem store_other (m : Valuation → Nat → Nat) {i j : Nat} (hj : j ≠ i) (x : Valuation → Nat) (v : Valuation) :
    store m (fun _ => i) x v j = m v j := Function.update_of_ne hj _ _

theorem Represents.write8 (h : Represents opt V os m) (hi : i < os.size) (c : BitVec 8) :
    Stepped opt V os (os.write8 i c) (store m (fun _ => i) fun _ => c.toNat) := by
  have hconcrete : ∀ j, (os.write8 i c).isByteConcrete j = (decide (j = i) || os.isByteConcrete j) := by
    intro j
    simp only [ObjectState.write8, isByteConcrete_markByteUnflushed, isByteConcrete_markByteConcrete,
      isByteConcrete_setKnownSymbolic]
    rfl
  have hflushed : ∀ j, (os.write8 i c).isByteFlushed j = (decide (j ≠ i) && os.isByteFlushed j) := by
    intro j
    simp only [ObjectState.write8, isByteFlushed_markByteUnflushed, isByteFlushed_markByteConcrete,
      isByteFlushed_setKnownSymbolic]
    rfl
  have hknown : ∀ j, (os.write8 i c).knownSymbolic j = if j = i then none else os.knownSymbolic j := by
    intro j
    simp only [ObjectState.write8, knownSymbolic_markByteUnflushed, knownSymbolic_markByteConcrete,
      knownSymbolic_setKnownSymbolic]
    rfl
  refine ⟨⟨h.size_lt, ⟨fun j hj hk => ?_, fun j hj hf => ?_⟩, h.root, h.nodes, fun j hj hc v hv => ?_, fun j hj e he => ?_,
    fun j hj hf v hv => ?_⟩, rfl, rfl⟩
  · rw [isByteKnownSymbolic, hknown] at hk
    split at hk
    · cases hk
    · rename_i hne
      rw [hconcrete, h.caches.known j hj hk]
      simp [hne]
  · rw [hflushed] at hf
    rw [hconcrete, isByteKnownSymbolic, hknown]
    by_cases hne : j = i
    · simp [hne]
    · simpa [hne, isByteKnownSymbolic] using h.caches.cached j hj (by simpa [hne] using hf)
  · by_cases hne : j = i
    · subst hne
      rw [store_same]
      exact congrArg BitVec.toNat (Function.update_self _ _ _)
    · rw [hconcrete] at hc
      rw [store_other m hne]
      have hold : os.isByteConcrete j = true := by simpa [hne] using hc
      have hstore : (os.write8 i c).concreteStore j = os.concreteStore j := Function.update_of_ne hne _ _
      rw [hstore]
      exact h.concrete j hj hold v hv
  · rw [hknown] at he
    split at he
    · cases he
    · rename_i hne
      exact (h.symbolic j hj e he).congr fun v _ => (store_other m hne _ v).symm
  · rw [hflushed, Bool.and_eq_true, decide_eq_true_eq] at hf
    rw [store_other m hf.1]
    exact h.updated j hj hf.2 v hv

/-- A symbolic value becomes known. -/
theorem Represents.writeKnown (h : Represents opt V os m) (hi : i < os.size) (hvalue : Denotes opt V 8 value x) :
    Stepped opt V os (((os.setKnownSymbolic i (some value)).markByteSymbolic i).markByteUnflushed i)
      (store m (fun _ => i) x) := by
  set os' := ((os.setKnownSymbolic i (some value)).markByteSymbolic i).markByteUnflushed i with hos'
  have hconcrete : ∀ j, os'.isByteConcrete j = (decide (j ≠ i) && os.isByteConcrete j) := by simp [hos']
  have hflushed : ∀ j, os'.isByteFlushed j = (decide (j ≠ i) && os.isByteFlushed j) := by simp [hos']
  have hknown : ∀ j, os'.knownSymbolic j = if j = i then some value else os.knownSymbolic j := by simp [hos']
  refine ⟨⟨h.size_lt, ⟨fun j hj hk => ?_, fun j hj hf => ?_⟩, h.root, h.nodes, fun j hj hc v hv => ?_, fun j hj e he => ?_,
    fun j hj hf v hv => ?_⟩, rfl, rfl⟩
  · rw [isByteKnownSymbolic, hknown] at hk
    rw [hconcrete]
    by_cases hne : j = i
    · simp [hne]
    · rw [if_neg hne] at hk
      rw [h.caches.known j hj hk, Bool.and_false]
  · rw [hflushed] at hf
    rw [hconcrete, isByteKnownSymbolic, hknown]
    by_cases hne : j = i
    · simp [hne]
    · simpa [hne, isByteKnownSymbolic] using h.caches.cached j hj (by simpa [hne] using hf)
  · rw [hconcrete, Bool.and_eq_true, decide_eq_true_eq] at hc
    rw [store_other m hc.1]
    exact h.concrete j hj hc.2 v hv
  · rw [hknown] at he
    split at he
    · rename_i heq
      subst heq
      obtain rfl := Option.some.inj he
      exact hvalue.congr fun v _ => (store_same m j x v).symm
    · rename_i hne
      exact (h.symbolic j hj e he).congr fun v _ => (store_other m hne _ v).symm
  · rw [hflushed, Bool.and_eq_true, decide_eq_true_eq] at hf
    rw [store_other m hf.1]
    exact h.updated j hj hf.2 v hv

theorem Represents.congr (h : Represents opt V os m) (hm : ∀ v, V v → ∀ i < os.size, m v i = m' v i) :
    Represents opt V os m' :=
  ⟨h.size_lt, h.caches, h.root, h.nodes, fun i hi hc v hv => (h.concrete i hi hc v hv).trans (hm v hv i hi),
    fun i hi e he => (h.symbolic i hi e he).congr fun v hv => hm v hv i hi,
    fun i hi hf v hv => (h.updated i hi hf v hv).trans (hm v hv i hi)⟩

theorem Stepped.congr (h : Stepped opt V os os' m) (hm : ∀ v, V v → ∀ i < os.size, m v i = m' v i) :
    Stepped opt V os os' m' := ⟨h.represents.congr fun v hv i hi => hm v hv i (h.size ▸ hi), h.size, h.root⟩

theorem Represents.write8Expr (h : Represents opt V os m) (hi : i < os.size) (hvalue : Denotes opt V 8 value x) :
    ∃ os', os.write8Expr i value = .ok os' ∧ Stepped opt V os os' (store m (fun _ => i) x) := by
  rcases hvalue.typed.constant_or with ⟨c, rfl⟩ | hsymbolic
  · refine ⟨os.write8 i c, ?_, (h.write8 hi c).congr fun v hv j _ => ?_⟩
    · simp [ObjectState.write8Expr]
    · rw [store, store, ← hvalue.value v hv]
      rfl
  · refine ⟨_, ?_, h.writeKnown hi hvalue⟩
    cases value with
    | constant _ _ => cases hsymbolic
    | _ => rfl

/-- A write at a symbolic offset flushes the object and leaves the bytes without caches. -/
theorem Represents.write8At (h : Represents opt V os m) {offset : Expr} (hoffset : Denotes opt V 32 offset a)
    (hsymbolic : offset.isConstant = false) (hvalue : Denotes opt V 8 value x) :
    ∃ os', os.write8At offset value = .ok os' ∧ Stepped opt V os os' (store m a x) := by
  obtain ⟨os', hflush, h', hbare⟩ := h.flushRangeForWrite 0 os.size (by omega)
  have hzext : ZExtExpr.create offset 32 = .ok offset := if_pos hoffset.typed.2.symm
  have hwidths : ∀ array ∈ os'.updates.root, array.domain = offset.getWidth ∧ array.range = value.getWidth := by
    intro array harray
    have hcovers := h'.represents.root array harray
    exact ⟨hcovers.domain.trans hoffset.typed.2.symm, hcovers.range.trans hvalue.typed.2.symm⟩
  have hnone : ∀ j < os'.size, os'.Bare j := fun j hj => hbare j (Nat.zero_le j) (by rw [Nat.zero_add]; exact h'.size ▸ hj)
  refine ⟨{ os' with updates := { os'.updates with nodes := (offset, value) :: os'.updates.nodes } }, ?_,
    ⟨⟨h'.represents.size_lt, ⟨h'.represents.caches.known, h'.represents.caches.cached⟩, h'.represents.root, fun node hnode => ?_,
      fun j hj hc => ?_,
      fun j hj e he => ?_, fun j hj hf v hv => ?_⟩, h'.size, h'.root⟩⟩
  · simp only [ObjectState.write8At, hsymbolic, Bool.false_eq_true, if_false, fastRangeCheckOffset, hflush, hzext,
      Updates.extend, if_pos hwidths, bind, Except.bind, liftM, monadLift, MonadLift.monadLift, Except.mapError, pure,
      Except.pure]
  · rcases List.mem_cons.mp hnode with rfl | hnode
    · exact ⟨hoffset.typed, hvalue.typed, fun v hv => ⟨hoffset.sound v hv, hvalue.sound v hv⟩⟩
    · exact h'.represents.nodes node hnode
  · cases (hnone j hj).1.symm.trans hc
  · cases (hnone j hj).2.symm.trans he
  · have hflushed : os'.isByteFlushed j = true := hf
    refine (Updates.readAt_extend v os'.updates offset value j).trans ?_
    rw [hoffset.value v hv, hvalue.value v hv]
    by_cases hj' : a v = j
    · subst hj'
      simp [store]
    · rw [if_neg hj', store, Function.update_of_ne (Ne.symm hj')]
      exact h'.represents.updated j hj hflushed v hv

/-! ### Reads and writes of any width -/

/-- The number whose bytes these are, the least significant one first. -/
def wordOf (byte : Nat → Nat) : Nat → Nat
  | 0 => 0
  | n + 1 => byte n * 2 ^ (8 * n) + wordOf byte n

/-- The memory after a write of bytes of `x`, the least significant one first, at the addresses `a v`, `a v + 1`, ... -/
def storeWord (m : Valuation → Nat → Nat) (a x : Valuation → Nat) (n : Nat) : Valuation → Nat → Nat :=
  fun v i => if a v ≤ i ∧ i < a v + n then x v / 2 ^ (8 * (i - a v)) % 2 ^ 8 else m v i

theorem storeWord_zero (m : Valuation → Nat → Nat) (a x : Valuation → Nat) : storeWord m a x 0 = m := by
  funext v i
  exact if_neg (by omega)

theorem storeWord_succ (m : Valuation → Nat → Nat) (a x : Valuation → Nat) (n : Nat) :
    storeWord m a x (n + 1) = store (storeWord m a x n) (fun v => a v + n) fun v => x v / 2 ^ (8 * n) % 2 ^ 8 := by
  funext v i
  by_cases hi : i = a v + n
  · subst hi
    simp [store, storeWord]
  · rw [store, Function.update_of_ne hi]
    unfold storeWord
    by_cases hin : a v ≤ i ∧ i < a v + n
    · rw [if_pos hin, if_pos ⟨hin.1, by omega⟩]
    · rw [if_neg hin, if_neg (by omega)]

/-- The loop of a read, where `read` keeps `P` and reads the byte at an index. -/
theorem readBytes_denotes (P : ObjectState → Prop) (read : ObjectState → Nat → Except Fault (Expr × ObjectState))
    (byte : Valuation → Nat → Nat) {n : Nat} (hV : ∃ v, V v) (hn : 0 < n) (hP : P os)
    (hread : ∀ os₁ k, P os₁ → k < n →
      ∃ e os₂, read os₁ k = .ok (e, os₂) ∧ P os₂ ∧ Denotes opt V 8 e fun v => byte v k) :
    ∃ e os', os.readBytes true read (8 * n) = .ok (e, os') ∧ P os' ∧
      Denotes opt V (8 * n) e fun v => wordOf (byte v) n := by
  have hloop : ∀ i ≤ n, ∃ res os', (List.range i).foldlM (readByte true read n) (none, os) = .ok (res, os') ∧ P os' ∧
        (i = 0 ∧ res = none ∨ ∃ e, res = some e ∧ Denotes opt V (8 * i) e fun v => wordOf (byte v) i) := by
    intro i hi
    induction i with
    | zero => exact ⟨none, os, rfl, hP, .inl ⟨rfl, rfl⟩⟩
    | succ i ih =>
      obtain ⟨res, os₁, hok, hP₁, hres⟩ := ih (Nat.le_of_succ_le hi)
      obtain ⟨b, os₂, hb, hP₂, hbyte⟩ := hread os₁ i hP₁ hi
      have hindex : byteIndex true n i = i := rfl
      rw [List.range_succ, List.foldlM_append, hok]
      simp only [List.foldlM_cons, List.foldlM_nil, readByte, bind, Except.bind, hindex, hb, pure, Except.pure]
      rcases hres with ⟨rfl, rfl⟩ | ⟨e, rfl, he⟩
      · refine ⟨some b, os₂, rfl, hP₂, .inr ⟨b, rfl, hbyte.congr fun v _ => ?_⟩⟩
        simp [wordOf]
      · obtain ⟨e', he', hdenotes⟩ := hbyte.concat hV he
        refine ⟨some e', os₂, ?_, hP₂, .inr ⟨e', rfl, ?_⟩⟩
        · simp only [liftM, monadLift, MonadLift.monadLift, he', Except.mapError]
        · rw [Nat.mul_succ, Nat.add_comm]
          exact hdenotes
  obtain ⟨res, os', hok, hP', hres⟩ := hloop n (Nat.le_refl n)
  obtain ⟨e, rfl, he⟩ := hres.resolve_left fun h => absurd h.1 (Nat.ne_of_gt hn)
  have hdiv : 8 * n / 8 = n := Nat.mul_div_cancel_left n (by decide)
  refine ⟨e, os', ?_, hP', he⟩
  unfold readBytes
  simp only [hdiv, Nat.mul_comm n 8, ne_eq, not_true_eq_false, if_false]
  exact Result.bind_eq_ok.mpr ⟨(some e, os'), hok, rfl⟩

/-- The loop of a write, where `write` writes the byte at an index. -/
theorem writeBytes_stepped {write : ObjectState → Nat → Expr → Except Fault ObjectState} {n : Nat} (hV : ∃ v, V v)
    (h : Represents opt V os m) (hvalue : Denotes opt V (8 * n) value x)
    (hwrite : ∀ os₁ m₁ k byte y, Stepped opt V os os₁ m₁ → k < n → Denotes opt V 8 byte y →
      ∃ os₂, write os₁ k byte = .ok os₂ ∧ Stepped opt V os os₂ (store m₁ (fun v => a v + k) y)) :
    ∃ os', os.writeBytes true write value = .ok os' ∧ Stepped opt V os os' (storeWord m a x n) := by
  have hloop : ∀ i ≤ n, ∃ os', (List.range i).foldlM (fun os i => do
      let byte ← (liftM (ExtractExpr.create value (8 * i) 8) : Except Fault Expr)
      write os (byteIndex true n i) byte) os = .ok os' ∧ Stepped opt V os os' (storeWord m a x i) := by
    intro i hi
    induction i with
    | zero => exact ⟨os, rfl, by rw [storeWord_zero]; exact h, rfl, rfl⟩
    | succ i ih =>
      obtain ⟨os₁, hok, h₁⟩ := ih (Nat.le_of_succ_le hi)
      obtain ⟨byte, hbyte, hdenotes⟩ : ∃ e', ExtractExpr.create value (8 * i) 8 = .ok e' ∧ Denotes opt V 8 e' _ :=
        hvalue.extract hV (by decide) (by omega)
      obtain ⟨os₂, hok₂, h₂⟩ := hwrite os₁ _ i byte _ h₁ hi hdenotes
      refine ⟨os₂, ?_, storeWord_succ m a x i ▸ h₂⟩
      have hindex : byteIndex true n i = i := rfl
      rw [List.range_succ, List.foldlM_append, hok]
      simp only [List.foldlM_cons, List.foldlM_nil, bind, Except.bind, hindex, hbyte, liftM, monadLift,
        MonadLift.monadLift, Except.mapError, hok₂, pure, Except.pure]
  obtain ⟨os', hok, h'⟩ := hloop n (Nat.le_refl n)
  have hdiv : 8 * n / 8 = n := Nat.mul_div_cancel_left n (by decide)
  refine ⟨os', ?_, h'⟩
  unfold writeBytes
  simp only [hvalue.typed.2, hdiv, Nat.mul_comm n 8, ne_eq, not_true_eq_false, if_false]
  exact hok

/-- The widths of accesses. -/
def AccessWidth (w : Nat) : Prop := w = 1 ∨ 0 < w ∧ 8 ∣ w

/-- The bytes of an access. A `bool` has one of its own. -/
def bytesOf (w : Nat) : Nat := if w = 1 then 1 else w / 8

/-- What a read of width `w` at the address `a v` gives. -/
def wordAt (m : Valuation → Nat → Nat) (a : Valuation → Nat) (w : Nat) : Valuation → Nat :=
  fun v => if w = 1 then m v (a v) % 2 else wordOf (fun i => m v (a v + i)) (w / 8)

/-- The memory after a write of width `w` at the address `a v`. -/
def storeAt (m : Valuation → Nat → Nat) (a x : Valuation → Nat) (w : Nat) : Valuation → Nat → Nat :=
  if w = 1 then store m a x else storeWord m a x (w / 8)

theorem AccessWidth.eq_mul (hw : AccessWidth w) (hne : w ≠ 1) : 0 < w / 8 ∧ w = 8 * (w / 8) := by
  obtain ⟨hpos, hdvd⟩ := hw.resolve_left hne
  exact ⟨Nat.div_pos (Nat.le_of_dvd hpos hdvd) (by decide), (Nat.mul_div_cancel' hdvd).symm⟩

/-- A `bool` is the low bit of its byte. -/
theorem extract_bool (hV : ∃ v, V v) (h : Denotes opt V 8 e f) :
    ∃ e', ExtractExpr.create e 0 1 = .ok e' ∧ Denotes opt V 1 e' fun v => f v % 2 := by
  obtain ⟨e', he', hdenotes⟩ := h.extract hV (by decide) (by decide : 0 + 1 ≤ 8)
  exact ⟨e', he', hdenotes.congr fun v _ => by rw [pow_zero, Nat.div_one, pow_one]⟩

theorem zext_bool (hV : ∃ v, V v) (h : Denotes opt V 1 e f) :
    ∃ e', ZExtExpr.create e 8 = .ok e' ∧ Denotes opt V 8 e' f := by
  obtain ⟨e', he', hdenotes⟩ := h.zext hV (by decide : 0 < 8)
  refine ⟨e', he', hdenotes.congr fun v hv => Nat.mod_eq_of_lt ?_⟩
  have hlt := (e.bits v 1).isLt
  rw [h.bits hv] at hlt
  exact hlt.trans (by decide)

theorem Represents.read (id : Nat) (h : Represents opt V os m) (hV : ∃ v, V v) (hw : AccessWidth w)
    (hoffset : offset + bytesOf w ≤ os.size) (hserved : ∀ i < bytesOf w, os.Served (offset + i)) :
    ∃ e, os.read opt true id offset w = .ok (e, os) ∧ Denotes opt V w e (wordAt m (fun _ => offset) w) := by
  unfold ObjectState.read wordAt
  by_cases hbool : w = 1
  · subst hbool
    obtain ⟨byte, hbyte, hdenotes⟩ := h.read8 id hV (Nat.lt_of_succ_le hoffset) (hserved 0 Nat.one_pos)
    obtain ⟨e, he, hdenotes⟩ := extract_bool hV hdenotes
    refine ⟨e, ?_, hdenotes⟩
    simp only [if_true, hbyte, he, bind, Except.bind, liftM, monadLift, MonadLift.monadLift, Except.mapError, pure,
      Except.pure]
  · obtain ⟨hpos, heq⟩ := hw.eq_mul hbool
    simp only [bytesOf, if_neg hbool] at hoffset hserved ⊢
    have hread : ∀ os₁ k, os₁ = os → k < w / 8 → ∃ e os₂, os₁.read8 opt id (offset + k) = .ok (e, os₂) ∧ os₂ = os ∧
        Denotes opt V 8 e fun v => m v (offset + k) := by
      intro os₁ k hos hk
      have hk' : offset + k < os.size := by omega
      obtain ⟨byte, hbyte, hdenotes⟩ := h.read8 id hV hk' (hserved k hk)
      exact ⟨byte, os, hos ▸ hbyte, rfl, hdenotes⟩
    obtain ⟨e, os', he, rfl, hdenotes⟩ := readBytes_denotes (· = os) (fun os idx => os.read8 opt id (offset + idx))
      (fun v i => m v (offset + i)) hV hpos rfl hread
    rw [← heq] at he hdenotes
    exact ⟨e, he, hdenotes⟩

/-- An address of `n` bytes of an object of this size. -/
structure InBounds (opt : Bool) (V : Valuation → Prop) (offset : Expr) (n size : Nat) : Prop where
  typed : ∃ k, offset.Typed k
  sound : ∀ v, V v → offset.Sound opt false v
  folded : offset.Folded
  bound : ∀ v, V v → offset.value v + n ≤ size

/-- Truncated to 32 bits it is the same offset. -/
theorem InBounds.zext {offset : Expr} {n : Nat} (hV : ∃ v, V v) (hsize : os.size < 2 ^ 32)
    (h : InBounds opt V offset n os.size) :
    ∃ e, ZExtExpr.create offset 32 = .ok e ∧ e.Folded ∧ Denotes opt V 32 e fun v => offset.value v := by
  obtain ⟨k, htyped⟩ := h.typed
  have hoffset : Denotes opt V k offset fun v => offset.value v := ⟨htyped, h.sound, fun _ _ => rfl⟩
  obtain ⟨e, he, hdenotes⟩ := hoffset.zext hV (by decide : 0 < 32)
  refine ⟨e, he, ZExtExpr.create_folded h.folded he, hdenotes.congr fun v hv => Nat.mod_eq_of_lt ?_⟩
  exact (Nat.le_of_add_right_le (h.bound v hv)).trans_lt hsize

/-- The offset of a byte of an access at a symbolic offset. -/
theorem byteOffset {offset : Expr} {n i : Nat} (hV : ∃ v, V v) (hsize : os.size < 2 ^ 32)
    (hoffset : Denotes opt V 32 offset a) (hfolded : offset.Folded) (hsymbolic : offset.isConstant = false)
    (ha : ∀ v, V v → a v + n ≤ os.size) (hi : i < n) :
    ∃ e, AddExpr.create opt offset (.constant 32 (BitVec.ofNat 32 i)) = .ok e ∧ e.isConstant = false ∧
      Denotes opt V 32 e fun v => a v + i := by
  obtain ⟨v₀, hv₀⟩ := hV
  have hi32 : (BitVec.ofNat 32 i).toNat = i := by
    rw [BitVec.toNat_ofNat]
    exact Nat.mod_eq_of_lt (by have := ha v₀ hv₀; omega)
  obtain ⟨e, he, hdenotes⟩ := hoffset.add ⟨v₀, hv₀⟩ (Denotes.constant (by decide) (BitVec.ofNat 32 i))
  refine ⟨e, he, AddExpr.create_symbolic (by decide) _ hfolded hsymbolic he, hdenotes.congr fun v hv => ?_⟩
  rw [hi32]
  exact Nat.mod_eq_of_lt (by have := ha v hv; omega)

theorem Stepped.trans {os₁ : ObjectState} (h : Stepped opt V os os₁ m) (h' : Stepped opt V os₁ os' m') :
    Stepped opt V os os' m' := ⟨h'.represents, h'.size.trans h.size, h'.root.trans h.root⟩

/-- The general case of a read. -/
theorem readAt_symbolic (os : ObjectState) (id : Nat) {offset : Expr} (he : ZExtExpr.create offset 32 = .ok e)
    (hsymbolic : e.isConstant = false) :
    os.readAt opt littleEndian id offset w =
      if w = 1 then do
        let (byte, os) ← os.read8At opt id e
        let e ← ExtractExpr.create byte 0 1
        return (e, os)
      else
        os.readBytes littleEndian (fun os idx => do
          let offset ← AddExpr.create opt e (.constant 32 (BitVec.ofNat 32 idx))
          os.read8At opt id offset) w := by
  unfold ObjectState.readAt
  rw [he]
  cases e with
  | constant _ _ => cases hsymbolic
  | _ => rfl

/-- A read at a symbolic offset needs an array. -/
theorem Represents.readAt (id : Nat) (h : Represents opt V os m) (hV : ∃ v, V v) (hw : AccessWidth w) {offset : Expr}
    (hoffset : InBounds opt V offset (bytesOf w) os.size)
    (hserved : os.updates.root.isSome = true ∨ ∃ c : BitVec 32, ZExtExpr.create offset 32 = .ok (.constant 32 c) ∧
      ∀ i < bytesOf w, os.Served (c.toNat + i)) :
    ∃ e os', os.readAt opt true id offset w = .ok (e, os') ∧ Stepped opt V os os' m ∧
      Denotes opt V w e (wordAt m (fun v => offset.value v) w) := by
  obtain ⟨e, hconstant, hfolded, hdenotes⟩ := hoffset.zext hV h.size_lt
  rcases hdenotes.typed.constant_or with ⟨c, rfl⟩ | hsymbolic
  · have hvalue : ∀ v, V v → c.toNat = offset.value v := fun v hv => hdenotes.value v hv
    have hbound : c.toNat + bytesOf w ≤ os.size := by
      obtain ⟨v, hv⟩ := hV
      exact hvalue v hv ▸ hoffset.bound v hv
    have hbytes : ∀ i < bytesOf w, os.Served (c.toNat + i) := by
      rcases hserved with hroot | ⟨c', hc', hbytes⟩
      · exact fun _ _ => .inl hroot
      · rw [hconstant] at hc'
        cases hc'
        exact hbytes
    obtain ⟨e, he, hread⟩ := h.read id hV hw hbound hbytes
    refine ⟨e, os, ?_, ⟨h, rfl, rfl⟩, hread.congr fun v hv => ?_⟩
    · unfold ObjectState.readAt
      simp only [hconstant, bind, Except.bind, liftM, monadLift, MonadLift.monadLift, Except.mapError, he]
    · unfold wordAt
      rw [hvalue v hv]
  · have hroot : os.updates.root.isSome = true := by
      refine hserved.resolve_right ?_
      rintro ⟨c, hc, -⟩
      rw [hconstant] at hc
      cases hc
      cases hsymbolic
    rw [readAt_symbolic os id hconstant hsymbolic]
    by_cases hbool : w = 1
    · subst hbool
      obtain ⟨byte, os', hbyte, h', hread⟩ := h.read8At id hV hroot hdenotes hsymbolic hoffset.bound
      obtain ⟨e, he, hread⟩ := extract_bool hV hread
      refine ⟨e, os', ?_, h'.stepped, hread⟩
      simp only [if_true, hbyte, he, bind, Except.bind, liftM, monadLift, MonadLift.monadLift, Except.mapError, pure,
        Except.pure]
    · obtain ⟨hpos, heq⟩ := hw.eq_mul hbool
      have hbound := hoffset.bound
      simp only [bytesOf, if_neg hbool] at hbound
      have hread : ∀ os₁ k, Stepped opt V os os₁ m → k < w / 8 → ∃ e' os₂,
          (do let offset ← (liftM (AddExpr.create opt e (.constant 32 (BitVec.ofNat 32 k))) : Except Fault Expr)
              os₁.read8At opt id offset) = .ok (e', os₂) ∧ Stepped opt V os os₂ m ∧
            Denotes opt V 8 e' fun v => m v (offset.value v + k) := by
        intro os₁ k h₁ hk
        obtain ⟨index, hindex, hsymbolic', hdenotes'⟩ :=
          byteOffset hV h.size_lt hdenotes hfolded hsymbolic hbound hk
        obtain ⟨byte, os₂, hbyte, h₂, hread⟩ :=
          h₁.represents.read8At id hV (h₁.root ▸ hroot) hdenotes' hsymbolic' fun v hv => by
            have := hbound v hv
            rw [h₁.size]
            omega
        refine ⟨byte, os₂, ?_, h₁.trans h₂.stepped, hread⟩
        simp only [hindex, bind, Except.bind, liftM, monadLift, MonadLift.monadLift, Except.mapError, hbyte]
      obtain ⟨e', os', he', h', hread⟩ := readBytes_denotes (Stepped opt V os · m) _
        (fun v i => m v (offset.value v + i)) hV hpos ⟨h, rfl, rfl⟩ hread
      rw [← heq] at he' hread
      exact ⟨e', os', (if_neg hbool).trans he', h', hread.congr fun v _ => (if_neg hbool).symm⟩

theorem storeWord_one (m : Valuation → Nat → Nat) (a x : Valuation → Nat) :
    storeWord m a x 1 = store m a fun v => x v % 2 ^ 8 := by
  rw [storeWord_succ, storeWord_zero]
  simp only [Nat.add_zero, Nat.mul_zero, pow_zero, Nat.div_one]

theorem Represents.writeWord (h : Represents opt V os m) (n : Nat) (c : BitVec w) (hoffset : offset + n ≤ os.size) :
    Stepped opt V os (os.writeWord true n offset c) (storeWord m (fun _ => offset) (fun _ => c.toNat) n) := by
  have hloop : ∀ i ≤ n, Stepped opt V os
      ((List.range i).foldl (fun os i => os.write8 (offset + i) ((c >>> (8 * i)).setWidth 8)) os)
      (storeWord m (fun _ => offset) (fun _ => c.toNat) i) := by
    intro i hi
    induction i with
    | zero => exact ⟨by rw [storeWord_zero]; exact h, rfl, rfl⟩
    | succ i ih =>
      have h₁ := ih (Nat.le_of_succ_le hi)
      rw [List.range_succ, List.foldl_append, storeWord_succ]
      have h₂ := h₁.represents.write8 (i := offset + i) (by rw [h₁.size]; omega) ((c >>> (8 * i)).setWidth 8)
      rw [BitVec.toNat_setWidth, BitVec.toNat_ushiftRight, Nat.shiftRight_eq_div_pow] at h₂
      exact h₁.trans h₂
  exact hloop n (Nat.le_refl n)

/-- The widths of the constants that `write(unsigned, ref<Expr>)` takes. -/
def Writeable (value : Expr) : Prop :=
  value.isConstant = true → value.getWidth ≤ 64 → value.getWidth ∈ [1, 8, 16, 32, 64]

/-- The general case of a write at a constant offset. -/
theorem Represents.writeBytes (h : Represents opt V os m) (hV : ∃ v, V v) (hw : AccessWidth w) (hbool : w ≠ 1)
    (hvalue : Denotes opt V w value x) (hoffset : offset + bytesOf w ≤ os.size) :
    ∃ os', os.writeBytes true (fun os idx byte => os.write8Expr (offset + idx) byte) value = .ok os' ∧
      Stepped opt V os os' (storeAt m (fun _ => offset) x w) := by
  obtain ⟨-, heq⟩ := hw.eq_mul hbool
  rw [bytesOf, if_neg hbool] at hoffset
  rw [storeAt, if_neg hbool]
  refine writeBytes_stepped hV h (heq ▸ hvalue) fun os₁ m₁ k byte y h₁ hk hbyte => ?_
  obtain ⟨os₂, hok, h₂⟩ := h₁.represents.write8Expr (i := offset + k) (by rw [h₁.size]; omega) hbyte
  exact ⟨os₂, hok, h₁.trans h₂⟩

/-- Constants of other widths than those of the integer types end in an assertion. -/
theorem Represents.write (h : Represents opt V os m) (hV : ∃ v, V v) (hw : AccessWidth w)
    (hvalue : Denotes opt V w value x) (hoffset : offset + bytesOf w ≤ os.size) (hwriteable : Writeable value) :
    ∃ os', os.write true offset value = .ok os' ∧ Stepped opt V os os' (storeAt m (fun _ => offset) x w) := by
  rcases hvalue.typed.constant_or with ⟨c, rfl⟩ | hsymbolic
  · have hx : ∀ v, V v → c.toNat = x v := fun v hv => hvalue.value v hv
    unfold ObjectState.write
    by_cases hle : w ≤ 64
    · have hwidth := hwriteable rfl hle
      simp only [Expr.getWidth, List.mem_cons, List.not_mem_nil, or_false] at hwidth
      have hword : ∀ n, offset + n ≤ os.size → Stepped opt V os (os.writeWord true n offset c)
          (storeWord m (fun _ => offset) x n) := by
        refine fun n hn => (h.writeWord n c hn).congr fun v hv i _ => ?_
        rw [storeWord, storeWord, hx v hv]
      rcases hwidth with rfl | rfl | rfl | rfl | rfl
      · refine ⟨os.write8 offset (c.setWidth 8), rfl, (h.write8 (Nat.lt_of_succ_le hoffset) _).congr fun v hv i _ => ?_⟩
        rw [storeAt, if_pos rfl, store, store, ← hx v hv, BitVec.toNat_setWidth_of_le (by decide)]
      · refine ⟨os.write8 offset (c.setWidth 8), rfl, (h.write8 (Nat.lt_of_succ_le hoffset) _).congr fun v hv i _ => ?_⟩
        rw [storeAt, if_neg (by decide), storeWord_one, store, store, ← hx v hv, BitVec.toNat_setWidth]
      · refine ⟨os.writeWord true 2 offset (c.setWidth 16), rfl, ?_⟩
        rw [BitVec.setWidth_eq]
        exact hword 2 hoffset
      · refine ⟨os.writeWord true 4 offset (c.setWidth 32), rfl, ?_⟩
        rw [BitVec.setWidth_eq]
        exact hword 4 hoffset
      · refine ⟨os.writeWord true 8 offset (c.setWidth 64), rfl, ?_⟩
        rw [BitVec.setWidth_eq]
        exact hword 8 hoffset
    · simp only [if_neg hle]
      exact h.writeBytes hV hw (by omega) hvalue hoffset
  · have hgeneral : os.write true offset value =
        if value.getWidth = 1 then do
          let byte ← ZExtExpr.create value 8
          os.write8Expr offset byte
        else os.writeBytes true (fun os idx byte => os.write8Expr (offset + idx) byte) value := by
      cases value with
      | constant _ _ => cases hsymbolic
      | _ => rfl
    rw [hgeneral, hvalue.typed.2]
    by_cases hbool : w = 1
    · subst hbool
      obtain ⟨byte, hbyte, hdenotes⟩ := zext_bool hV hvalue
      obtain ⟨os', hok, h'⟩ := h.write8Expr (Nat.lt_of_succ_le hoffset) hdenotes
      refine ⟨os', ?_, h'⟩
      simp only [if_true, hbyte, bind, Except.bind, liftM, monadLift, MonadLift.monadLift, Except.mapError, hok]
    · rw [if_neg hbool]
      exact h.writeBytes hV hw hbool hvalue hoffset

/-- The general case of a write. -/
theorem writeAt_symbolic (os : ObjectState) {offset : Expr} (he : ZExtExpr.create offset 32 = .ok e)
    (hsymbolic : e.isConstant = false) :
    os.writeAt opt littleEndian offset value =
      if value.getWidth = 1 then do
        let byte ← ZExtExpr.create value 8
        os.write8At e byte
      else
        os.writeBytes littleEndian (fun os idx byte => do
          let offset ← AddExpr.create opt e (.constant 32 (BitVec.ofNat 32 idx))
          os.write8At offset byte) value := by
  unfold ObjectState.writeAt
  rw [he]
  cases e with
  | constant _ _ => cases hsymbolic
  | _ => rfl

theorem Represents.writeAt (h : Represents opt V os m) (hV : ∃ v, V v) (hw : AccessWidth w) {offset : Expr}
    (hvalue : Denotes opt V w value x) (hoffset : InBounds opt V offset (bytesOf w) os.size)
    (hwriteable : ∀ c : BitVec 32, ZExtExpr.create offset 32 = .ok (.constant 32 c) → Writeable value) :
    ∃ os', os.writeAt opt true offset value = .ok os' ∧
      Stepped opt V os os' (storeAt m (fun v => offset.value v) x w) := by
  obtain ⟨e, he, hfolded, hdenotes⟩ := hoffset.zext hV h.size_lt
  rcases hdenotes.typed.constant_or with ⟨c, rfl⟩ | hsymbolic
  · have hc : ∀ v, V v → c.toNat = offset.value v := fun v hv => hdenotes.value v hv
    have hbound : c.toNat + bytesOf w ≤ os.size := by
      obtain ⟨v, hv⟩ := hV
      exact hc v hv ▸ hoffset.bound v hv
    obtain ⟨os', hok, h'⟩ := h.write hV hw hvalue hbound (hwriteable c he)
    refine ⟨os', ?_, h'.congr fun v hv i _ => ?_⟩
    · unfold ObjectState.writeAt
      simp only [he, bind, Except.bind, liftM, monadLift, MonadLift.monadLift, Except.mapError, hok]
    · by_cases hbool : w = 1
      · rw [storeAt, storeAt, if_pos hbool, if_pos hbool, store, store, hc v hv]
      · rw [storeAt, storeAt, if_neg hbool, if_neg hbool, storeWord, storeWord, hc v hv]
  · rw [writeAt_symbolic os he hsymbolic, hvalue.typed.2]
    by_cases hbool : w = 1
    · subst hbool
      obtain ⟨byte, hbyte, hdenotes'⟩ := zext_bool hV hvalue
      obtain ⟨os', hok, h'⟩ := h.write8At hdenotes hsymbolic hdenotes'
      refine ⟨os', ?_, h'⟩
      simp only [if_true, hbyte, bind, Except.bind, liftM, monadLift, MonadLift.monadLift, Except.mapError, hok]
    · obtain ⟨-, heq⟩ := hw.eq_mul hbool
      have hbound := hoffset.bound
      rw [bytesOf, if_neg hbool] at hbound
      rw [if_neg hbool, storeAt, if_neg hbool]
      refine writeBytes_stepped hV h (heq ▸ hvalue) fun os₁ m₁ k byte y h₁ hk hbyte => ?_
      obtain ⟨index, hindex, hsymbolic', hdenotes'⟩ := byteOffset hV h.size_lt hdenotes hfolded hsymbolic hbound hk
      obtain ⟨os₂, hok, h₂⟩ := h₁.represents.write8At hdenotes' hsymbolic' hbyte
      refine ⟨os₂, ?_, h₁.trans h₂⟩
      simp only [hindex, bind, Except.bind, liftM, monadLift, MonadLift.monadLift, Except.mapError, hok]

/-! ### Runs -/

/-- What is done with an object. -/
inductive Access where
  | read (offset width : Nat)
  | readAt (offset : Expr) (width : Nat)
  | write8 (offset : Nat) (value : BitVec 8)
  | write16 (offset : Nat) (value : BitVec 16)
  | write32 (offset : Nat) (value : BitVec 32)
  | write64 (offset : Nat) (value : BitVec 64)
  | write (offset : Nat) (value : Expr)
  | writeAt (offset value : Expr)
  | flushRangeForRead (base size : Nat)
  | flushRangeForWrite (base size : Nat)

namespace Access

/-- The access, with what a read gives. -/
def perform (opt : Bool) (id : Nat) (os : ObjectState) : Access → Except Fault (Option Expr × ObjectState)
  | read offset width => do
    let (e, os) ← os.read opt true id offset width
    return (some e, os)
  | readAt offset width => do
    let (e, os) ← os.readAt opt true id offset width
    return (some e, os)
  | write8 offset value => return (none, os.write8 offset value)
  | write16 offset value => return (none, os.write16 true offset value)
  | write32 offset value => return (none, os.write32 true offset value)
  | write64 offset value => return (none, os.write64 true offset value)
  | write offset value => return (none, ← os.write true offset value)
  | writeAt offset value => return (none, ← os.writeAt opt true offset value)
  | flushRangeForRead base size => return (none, ← os.flushRangeForRead base size)
  | flushRangeForWrite base size => return (none, ← os.flushRangeForWrite base size)

/-- The memory after the access. -/
def effect (m : Valuation → Nat → Nat) : Access → Valuation → Nat → Nat
  | read _ _ | readAt _ _ | flushRangeForRead _ _ | flushRangeForWrite _ _ => m
  | write8 offset value => storeWord m (fun _ => offset) (fun _ => value.toNat) 1
  | write16 offset value => storeWord m (fun _ => offset) (fun _ => value.toNat) 2
  | write32 offset value => storeWord m (fun _ => offset) (fun _ => value.toNat) 4
  | write64 offset value => storeWord m (fun _ => offset) (fun _ => value.toNat) 8
  | write offset value => storeAt m (fun _ => offset) (fun v => value.value v) value.getWidth
  | writeAt offset value => storeAt m (fun v => offset.value v) (fun v => value.value v) value.getWidth

/-- A read gives the bytes of the memory, and no other access gives anything. -/
def Answers (opt : Bool) (V : Valuation → Prop) (m : Valuation → Nat → Nat) (result : Option Expr) : Access → Prop
  | read offset width => ∃ e, result = some e ∧ Denotes opt V width e (wordAt m (fun _ => offset) width)
  | readAt offset width => ∃ e, result = some e ∧ Denotes opt V width e (wordAt m (fun v => offset.value v) width)
  | _ => result = none

/-- A value that can be written. -/
def ValidValue (opt : Bool) (V : Valuation → Prop) (value : Expr) : Prop :=
  AccessWidth value.getWidth ∧ value.Typed value.getWidth ∧ ∀ v, V v → value.Sound opt false v

/-- The access is within an object of the size. -/
def Valid (opt : Bool) (V : Valuation → Prop) (size : Nat) : Access → Prop
  | read offset width => AccessWidth width ∧ offset + bytesOf width ≤ size
  | readAt offset width => AccessWidth width ∧ InBounds opt V offset (bytesOf width) size
  | write8 offset _ => offset + 1 ≤ size
  | write16 offset _ => offset + 2 ≤ size
  | write32 offset _ => offset + 4 ≤ size
  | write64 offset _ => offset + 8 ≤ size
  | write offset value => ValidValue opt V value ∧ offset + bytesOf value.getWidth ≤ size
  | writeAt offset value => ValidValue opt V value ∧ InBounds opt V offset (bytesOf value.getWidth) size
  | flushRangeForRead base size' | flushRangeForWrite base size' => base + size' ≤ size

/-- An object without an array reads only bytes that are in its caches, and a constant of at most 64 bits that is written
    has the width of an integer type. -/
def Served (os : ObjectState) : Access → Prop
  | read offset width => ∀ i < bytesOf width, os.Served (offset + i)
  | readAt offset width => os.updates.root.isSome = true ∨
      ∃ c : BitVec 32, ZExtExpr.create offset 32 = .ok (.constant 32 c) ∧ ∀ i < bytesOf width, os.Served (c.toNat + i)
  | write _ value => Writeable value
  | writeAt offset value => ∀ c : BitVec 32, ZExtExpr.create offset 32 = .ok (.constant 32 c) → Writeable value
  | _ => True

/-- A step of a run. -/
theorem perform_stepped (id : Nat) {access : Access} (hV : ∃ v, V v) (h : Represents opt V os m)
    (hvalid : access.Valid opt V os.size) (hserved : access.Served os) :
    ∃ result os', access.perform opt id os = .ok (result, os') ∧ Stepped opt V os os' (access.effect m) ∧
      access.Answers opt V m result := by
  cases access with
  | read offset width =>
    obtain ⟨e, hok, hdenotes⟩ := h.read id hV hvalid.1 hvalid.2 hserved
    refine ⟨some e, os, ?_, ⟨h, rfl, rfl⟩, e, rfl, hdenotes⟩
    simp only [perform, hok, bind, Except.bind, pure, Except.pure]
  | readAt offset width =>
    obtain ⟨e, os', hok, h', hdenotes⟩ := h.readAt id hV hvalid.1 hvalid.2 hserved
    refine ⟨some e, os', ?_, h', e, rfl, hdenotes⟩
    simp only [perform, hok, bind, Except.bind, pure, Except.pure]
  | write8 offset value =>
    have h' := h.write8 (Nat.lt_of_succ_le hvalid) value
    refine ⟨none, os.write8 offset value, rfl, h'.congr fun v _ i _ => ?_, rfl⟩
    rw [effect, storeWord_one, store, store, Nat.mod_eq_of_lt value.isLt]
  | write16 offset value => exact ⟨none, os.write16 true offset value, rfl, h.writeWord 2 value hvalid, rfl⟩
  | write32 offset value => exact ⟨none, os.write32 true offset value, rfl, h.writeWord 4 value hvalid, rfl⟩
  | write64 offset value => exact ⟨none, os.write64 true offset value, rfl, h.writeWord 8 value hvalid, rfl⟩
  | write offset value =>
    obtain ⟨⟨hwidth, htyped, hsound⟩, hoffset⟩ := hvalid
    obtain ⟨os', hok, h'⟩ := h.write hV hwidth ⟨htyped, hsound, fun _ _ => rfl⟩ hoffset hserved
    refine ⟨none, os', ?_, h', rfl⟩
    simp only [perform, hok, bind, Except.bind, pure, Except.pure]
  | writeAt offset value =>
    obtain ⟨⟨hwidth, htyped, hsound⟩, hoffset⟩ := hvalid
    obtain ⟨os', hok, h'⟩ := h.writeAt hV hwidth ⟨htyped, hsound, fun _ _ => rfl⟩ hoffset hserved
    refine ⟨none, os', ?_, h', rfl⟩
    simp only [perform, hok, bind, Except.bind, pure, Except.pure]
  | flushRangeForRead base size =>
    obtain ⟨os', hok, h', -⟩ := h.flushRangeForRead base size hvalid
    refine ⟨none, os', ?_, h'.stepped, rfl⟩
    simp only [perform, hok, bind, Except.bind, pure, Except.pure]
  | flushRangeForWrite base size =>
    obtain ⟨os', hok, h', -⟩ := h.flushRangeForWrite base size hvalid
    refine ⟨none, os', ?_, h'.stepped, rfl⟩
    simp only [perform, hok, bind, Except.bind, pure, Except.pure]

end Access

/-- The accesses one after the other, each with the address of the next array. -/
def run (opt : Bool) (os : ObjectState) : List (Access × Nat) → Except Fault (List (Option Expr) × ObjectState)
  | [] => .ok ([], os)
  | (access, id) :: accesses => do
    let (result, os) ← access.perform opt id os
    let (results, os) ← run opt os accesses
    return (result :: results, os)

/-- The memory after the accesses. -/
def effects (m : Valuation → Nat → Nat) (accesses : List (Access × Nat)) : Valuation → Nat → Nat :=
  accesses.foldl (fun m access => access.1.effect m) m

/-- Each read gives the bytes that are in the memory then. -/
def AnswersAll (opt : Bool) (V : Valuation → Prop) :
    (Valuation → Nat → Nat) → List (Access × Nat) → List (Option Expr) → Prop
  | _, [], [] => True
  | m, (access, _) :: accesses, result :: results =>
    access.Answers opt V m result ∧ AnswersAll opt V (access.effect m) accesses results
  | _, _, _ => False

/-- Each access is served in the state before it. -/
def ServedAll (opt : Bool) (os : ObjectState) : List (Access × Nat) → Prop
  | [] => True
  | (access, id) :: accesses => access.Served os ∧
    ∀ result os', access.perform opt id os = .ok (result, os') → os'.ServedAll opt accesses

/-- A new object and its bytes. -/
inductive Constructed (opt : Bool) : ObjectState → (Valuation → Nat → Nat) → Prop
  | concrete (size : Nat) (root : Option Array) (hsize : size < 2 ^ 32) (hroot : ∀ array ∈ root, Covers opt array size) :
    Constructed opt (.concrete size root) fun _ _ => 0
  | symbolic (size : Nat) (array : Array) (os : ObjectState) (hsize : size < 2 ^ 32) (hroot : Covers opt array size)
    (hok : ObjectState.symbolic size array = .ok os) : Constructed opt os fun v i => array.initial v i

theorem isByteFlushed_markByteFlushed (h : i = offset ∨ os.isByteFlushed i = true) :
    (os.markByteFlushed offset).isByteFlushed i = true := by
  unfold markByteFlushed isByteFlushed
  cases hmask : os.flushMask with
  | none => rfl
  | some mask =>
    rcases h with rfl | h
    · simp
    · have hold : mask i = false := by simpa [isByteFlushed, hmask] using h
      by_cases hi : i = offset <;> simp [hi, hold]

/-- The bytes of a symbolic object are in the array only. -/
theorem makeSymbolic_bare (os : ObjectState) (hnodes : os.updates.nodes = []) (hknown : ∀ i, os.knownSymbolic i = none) :
    ∃ os', os.makeSymbolic = .ok os' ∧ os'.size = os.size ∧ os'.updates = os.updates ∧
      ∀ i < os.size, os'.Bare i ∧ os'.isByteFlushed i = true := by
  have hloop : ∀ n, ∃ os', (List.range n).foldl
      (fun os i => ((os.markByteSymbolic i).setKnownSymbolic i none).markByteFlushed i) os = os' ∧ os'.size = os.size ∧
      os'.updates = os.updates ∧ (∀ i, os'.knownSymbolic i = none) ∧
      ∀ i < n, os'.isByteConcrete i = false ∧ os'.isByteFlushed i = true := by
    intro n
    induction n with
    | zero => exact ⟨os, rfl, rfl, rfl, hknown, fun i hi => absurd hi (Nat.not_lt_zero i)⟩
    | succ n ih =>
      obtain ⟨os', hfold, hsize, hupdates, hnone, hbytes⟩ := ih
      refine ⟨_, rfl, ?_⟩
      rw [List.range_succ, List.foldl_append, hfold, List.foldl_cons, List.foldl_nil]
      refine ⟨hsize, hupdates, fun i => ?_, fun i hi => ⟨?_, isByteFlushed_markByteFlushed ?_⟩⟩
      · have hset : ((os'.markByteSymbolic n).setKnownSymbolic n none).knownSymbolic i = none := by simp [hnone]
        exact hset
      · have hset : ((os'.markByteSymbolic n).setKnownSymbolic n none).isByteConcrete i = false := by
          rcases Nat.lt_succ_iff_lt_or_eq.mp hi with hi | rfl
          · simp [(hbytes i hi).1]
          · simp
        exact hset
      · rcases Nat.lt_succ_iff_lt_or_eq.mp hi with hi | rfl
        · exact .inr (hbytes i hi).2
        · exact .inl rfl
  obtain ⟨os', hfold, hsize, hupdates, hnone, hbytes⟩ := hloop os.size
  refine ⟨os', ?_, hsize, hupdates, fun i hi => ⟨⟨(hbytes i hi).1, hnone i⟩, (hbytes i hi).2⟩⟩
  unfold makeSymbolic
  rw [if_pos hnodes, hfold]

theorem Constructed.represents (h : Constructed opt os m) : Represents opt V os m := by
  cases h with
  | concrete size root hsize hroot =>
    refine ⟨hsize, ⟨fun i hi hk => ?_, fun _ _ _ => .inl rfl⟩, hroot, fun node hnode => ?_, fun _ _ _ _ _ => rfl,
      fun i hi e he => ?_, fun i hi hf => ?_⟩
    · cases hk
    · cases hnode
    · cases he
    · cases hf
  | symbolic size array os hsize hroot hok =>
    obtain ⟨os', hok', hsize', hupdates, hbytes⟩ :=
      makeSymbolic_bare (ObjectState.concrete size (some array)) rfl fun _ => rfl
    obtain rfl : os' = os := Except.ok.inj (hok'.symm.trans hok)
    change os'.size = size at hsize'
    have hbytes : ∀ i < os'.size, os'.Bare i ∧ os'.isByteFlushed i = true := fun i hi => hbytes i (hsize' ▸ hi)
    refine ⟨hsize'.trans_lt hsize, ⟨fun i hi _ => (hbytes i hi).1.1, fun i hi hf => ?_⟩, fun array' h => ?_,
      fun node h => ?_, fun i hi hc => ?_, fun i hi e he => ?_, fun i hi hf v hv => ?_⟩
    · rw [(hbytes i hi).2] at hf
      cases hf
    · rw [hupdates] at h
      obtain rfl := Option.some.inj h
      rw [hsize']
      exact hroot
    · rw [hupdates] at h
      cases h
    · rw [(hbytes i hi).1.1] at hc
      cases hc
    · rw [(hbytes i hi).1.2] at he
      cases he
    · rw [hupdates]
      rfl

theorem Represents.run (hV : ∃ v, V v) {accesses : List (Access × Nat)} (h : Represents opt V os m)
    (hvalid : ∀ access ∈ accesses, access.1.Valid opt V os.size) (hserved : os.ServedAll opt accesses) :
    ∃ results os', os.run opt accesses = .ok (results, os') ∧ Represents opt V os' (effects m accesses) ∧
      AnswersAll opt V m accesses results := by
  induction accesses generalizing os m with
  | nil => exact ⟨[], os, rfl, h, trivial⟩
  | cons access accesses ih =>
    obtain ⟨access, id⟩ := access
    obtain ⟨result, os₁, hok, h₁, hanswers⟩ :=
      Access.perform_stepped id hV h (hvalid _ List.mem_cons_self) hserved.1
    obtain ⟨results, os', hrun, h', hall⟩ := ih h₁.represents
      (fun a ha => h₁.size ▸ hvalid a (List.mem_cons_of_mem _ ha)) (hserved.2 result os₁ hok)
    refine ⟨result :: results, os', ?_, h', hanswers, hall⟩
    simp only [ObjectState.run, hok, hrun, bind, Except.bind, pure, Except.pure]

/-- Every run from a new object reads the bytes that were most recently written, and the invariants of the caches hold
    after it. -/
theorem run_answers (hV : ∃ v, V v) {accesses : List (Access × Nat)} (h : Constructed opt os m)
    (hvalid : ∀ access ∈ accesses, access.1.Valid opt V os.size) (hserved : os.ServedAll opt accesses) :
    ∃ results os', os.run opt accesses = .ok (results, os') ∧ os'.CacheInvariants ∧
      AnswersAll opt V m accesses results := by
  obtain ⟨results, os', hrun, h', hall⟩ := h.represents.run hV hvalid hserved
  exact ⟨results, os', hrun, h'.caches, hall⟩

/-- An offset that is 0 or 1: the low bit of a symbolic byte. -/
def lowBit : Expr := .zext (.extract (.read (.root { id := 1, size := 1 }) (.constant 32 0)) 0 1) 32

theorem inBounds_lowBit : InBounds true (fun _ => True) lowBit 1 2 where
  typed := by
    refine ⟨32, ⟨⟨⟨⟨⟨by decide, by decide, by decide⟩, (by decide : 0 < 32), rfl⟩, by decide, by decide⟩, by decide⟩, rfl⟩⟩
  sound := fun _ _ => by simp [lowBit, Expr.Sound, UpdateList.Sound, Expr.value, UpdateList.array, Array.isConstantArray]
  folded := trivial
  bound := fun v _ => by
    simp only [lowBit, Expr.value, pow_zero, Nat.div_one, pow_one]
    omega

theorem run_answers_lowBit : ∃ results os', (concrete 2 (some { id := 0, size := 2 })).run true
    [(.write16 0 0x0201, 2), (.readAt lowBit 8, 3)] = .ok (results, os') ∧ os'.CacheInvariants ∧
      AnswersAll true (fun _ => True) (fun _ _ => 0) [(.write16 0 0x0201, 2), (.readAt lowBit 8, 3)] results := by
  refine run_answers ⟨fun _ _ => 0, trivial⟩ (.concrete 2 _ (by decide) ?_) ?_ ?_
  · rintro _ ⟨⟩
    exact ⟨⟨by decide, by decide, by decide⟩, rfl, rfl, by decide⟩
  · intro access haccess
    simp only [List.mem_cons, List.not_mem_nil, or_false] at haccess
    rcases haccess with rfl | rfl
    · exact (by decide : 0 + 2 ≤ 2)
    · exact ⟨.inr ⟨by decide, by decide⟩, inBounds_lowBit⟩
  · refine ⟨trivial, fun result os' hok => ⟨.inl ?_, fun _ _ _ => trivial⟩⟩
    cases hok
    rfl

/-- An object without an array is not read at a symbolic offset, and a constant of three bytes is not written. -/
theorem zeros_not_read :
    ((concrete 2 none).run true [(.readAt lowBit 8, 1)] = .error .lengthError ∧
      Constructed true (concrete 2 none) (fun _ _ => 0) ∧
      (Access.readAt lowBit 8).Valid true (fun _ => True) (concrete 2 none).size) ∧
    (concrete 3 none).run true [(.write 0 (.constant 24 1), 1)] = .error .assertion ∧
      (Access.write 0 (.constant 24 1)).Valid true (fun _ => True) (concrete 3 none).size := by
  refine ⟨⟨by rfl, .concrete 2 none (by decide) nofun, .inr ⟨by decide, by decide⟩, inBounds_lowBit⟩, by rfl, ?_⟩
  exact ⟨⟨.inr ⟨by decide, by decide⟩, .constant (by decide) _, fun _ _ => trivial⟩, by decide⟩

end ObjectState

end CapTaint.Klee
