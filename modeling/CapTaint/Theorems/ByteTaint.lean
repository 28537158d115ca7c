import CapTaint.TaintListener

/-! The taint of an object is kept for start addresses. It is the taint of the bytes as long as loads and untainted stores
    keep to the addresses where tainted ranges begin. -/

namespace CapTaint
open Std

/-! ### Bytes -/

def Extent.Covers (extent : Extent) (b : Nat) : Prop := extent.address ≤ b ∧ b < extent.address + extent.width

instance (extent : Extent) (b : Nat) : Decidable (extent.Covers b) := inferInstanceAs (Decidable (_ ∧ _))

theorem Extent.covers_address (extent : Extent) : extent.Covers extent.address :=
  ⟨Nat.le_refl _, Nat.lt_add_of_pos_right extent.pos⟩

/-- The taint of the byte `b` behind one more operation. -/
def byteStep (b : Nat) (tainted : Bool) : MemoryOp → Bool
  | .store extent isTaint => if extent.Covers b then isTaint else tainted
  | .load _ => tainted
  | .makeTaint extent => if extent.Covers b then true else tainted

/-- Whether the byte was last written by a tainted store, or covered by a `make_taint` since. -/
def byteTainted (ops : List MemoryOp) (b : Nat) : Bool := ops.foldl (byteStep b) false

/-- A load is marked exactly when it reads a tainted byte. -/
def LoadAccurate (ops : List MemoryOp) (extent : Extent) : Prop :=
  TaintListener.loadIsTaint ops extent = true ↔ ∃ b, extent.Covers b ∧ byteTainted ops b = true

/-- All loads of the sequence are accurate. -/
def ByteAccurate (ops : List MemoryOp) : Prop :=
  ∀ before extent after, ops = before ++ .load extent :: after → LoadAccurate before extent

/-! ### Tainted ranges -/

/-- Whether a tainted range begins at `a` behind one more operation. -/
def beginsStep (a : Nat) (begins : Bool) : MemoryOp → Bool
  | .store extent true => if extent.address = a then true else begins
  | .store extent false => if extent.Covers a then false else begins
  | .load _ => begins
  | .makeTaint extent => if extent.address = a then true else begins

/-- Since the byte `a` was last overwritten with an untainted value, a tainted store or a `make_taint` has begun there. -/
def rangeBegins (ops : List MemoryOp) (a : Nat) : Bool := ops.foldl (beginsStep a) false

/-- A load that reads a tainted byte begins where a tainted range does; an untainted store does not overwrite the first
    byte of a tainted range that begins elsewhere. -/
def AtRangeStart (before : List MemoryOp) : MemoryOp → Prop
  | .load extent => (∃ b, extent.Covers b ∧ byteTainted before b = true) → rangeBegins before extent.address = true
  | .store extent false => ∀ a, extent.Covers a → a ≠ extent.address → rangeBegins before a = false
  | .store _ true | .makeTaint _ => True

/-- All operations of the sequence keep to the starts of tainted ranges. -/
def KeepsToStarts (ops : List MemoryOp) : Prop :=
  ∀ before op after, ops = before ++ op :: after → AtRangeStart before op

/-- Whether the operation is a store or a `make_taint` at the address, and then whether it taints. -/
def MemoryOp.taintsAt (a : Nat) : MemoryOp → Option Bool
  | .store extent isTaint => if extent.address = a then some isTaint else none
  | .load _ => none
  | .makeTaint extent => if extent.address = a then some true else none

/-! ### One more operation -/

section
variable {ops before : List MemoryOp} {op : MemoryOp} {extent : Extent}

@[simp] theorem after_snoc (ops : List MemoryOp) (op : MemoryOp) :
    ObjectState.after (ops ++ [op]) = TaintListener.access (ObjectState.after ops) op := by
  simp [ObjectState.after]

@[simp] theorem byteTainted_snoc (ops : List MemoryOp) (op : MemoryOp) (b : Nat) :
    byteTainted (ops ++ [op]) b = byteStep b (byteTainted ops b) op := by
  simp [byteTainted]

@[simp] theorem rangeBegins_snoc (ops : List MemoryOp) (op : MemoryOp) (a : Nat) :
    rangeBegins (ops ++ [op]) a = beginsStep a (rangeBegins ops a) op := by
  simp [rangeBegins]

theorem mem_insertTaint (os : ObjectState) (address a : Nat) :
    a ∈ (os.insertTaint address).isTaint ↔ address = a ∨ a ∈ os.isTaint := by
  rw [ObjectState.insertTaint, TreeSet.mem_insert, Nat.compare_eq_eq]

theorem mem_eraseTaint (os : ObjectState) (address a : Nat) :
    a ∈ (os.eraseTaint address).isTaint ↔ address ≠ a ∧ a ∈ os.isTaint := by
  rw [ObjectState.eraseTaint, TreeSet.mem_erase, ne_eq, Nat.compare_eq_eq]

/-- The set has the addresses at which the last store or `make_taint` taints. -/
theorem mem_isTaint_iff (ops : List MemoryOp) (a : Nat) :
    a ∈ (ObjectState.after ops).isTaint ↔ (ops.filterMap (MemoryOp.taintsAt a)).getLast? = some true := by
  induction ops using List.reverseRecOn with
  | nil => simp [ObjectState.after]
  | append_singleton ops op ih =>
    rw [after_snoc, List.filterMap_append]
    cases op with
    | store extent isTaint =>
      by_cases ha : extent.address = a
      · cases isTaint <;> simp [TaintListener.access, mem_insertTaint, mem_eraseTaint, MemoryOp.taintsAt, ha]
      · cases isTaint <;> simp [TaintListener.access, mem_insertTaint, mem_eraseTaint, MemoryOp.taintsAt, ha, ih]
    | load extent => simp [TaintListener.access, MemoryOp.taintsAt, ih]
    | makeTaint extent =>
      by_cases ha : extent.address = a
      · simp [TaintListener.access, mem_insertTaint, MemoryOp.taintsAt, ha]
      · simp [TaintListener.access, mem_insertTaint, MemoryOp.taintsAt, ha, ih]

/-- The first byte of a tainted range is tainted. -/
theorem byteTainted_of_rangeBegins {a : Nat} (h : rangeBegins ops a = true) : byteTainted ops a = true := by
  induction ops using List.reverseRecOn with
  | nil => cases h
  | append_singleton ops op ih =>
    rw [rangeBegins_snoc] at h
    rw [byteTainted_snoc]
    cases op with
    | store extent isTaint =>
      cases isTaint with
      | true =>
        simp only [beginsStep] at h
        simp only [byteStep]
        split at h
        next ha => rw [if_pos (ha ▸ extent.covers_address)]
        next =>
          split
          · rfl
          · exact ih h
      | false =>
        simp only [beginsStep] at h
        simp only [byteStep]
        split at h
        next => cases h
        next hcovers =>
          rw [if_neg hcovers]
          exact ih h
    | load extent => exact ih h
    | makeTaint extent =>
      simp only [beginsStep] at h
      simp only [byteStep]
      split at h
      next ha => rw [if_pos (ha ▸ extent.covers_address)]
      next =>
        split
        · rfl
        · exact ih h

theorem KeepsToStarts.of_snoc (h : KeepsToStarts (ops ++ [op])) : KeepsToStarts ops ∧ AtRangeStart ops op := by
  refine ⟨fun before op' after hops => ?_, h ops op [] rfl⟩
  exact h before op' (after ++ [op]) (by simp [hops])

theorem KeepsToStarts.snoc (h : KeepsToStarts ops) (hop : AtRangeStart ops op) : KeepsToStarts (ops ++ [op]) := by
  intro before op' after hsplit
  rcases List.eq_nil_or_concat after with rfl | ⟨after', last, rfl⟩
  · obtain ⟨rfl, hlast⟩ := List.append_inj' hsplit rfl
    obtain rfl := List.singleton_inj.mp hlast
    exact hop
  · rw [List.concat_eq_append, ← List.cons_append, ← List.append_assoc] at hsplit
    exact h before op' after' (List.append_inj_left' hsplit rfl)

theorem keepsToStarts_nil : KeepsToStarts [] := by
  intro before op after hnil
  cases before <;> cases hnil

/-- The set has the starts of the tainted ranges. -/
theorem mem_isTaint_iff_rangeBegins (h : KeepsToStarts ops) (a : Nat) :
    a ∈ (ObjectState.after ops).isTaint ↔ rangeBegins ops a = true := by
  induction ops using List.reverseRecOn with
  | nil => simp [ObjectState.after, rangeBegins]
  | append_singleton ops op ih =>
    obtain ⟨hbefore, hop⟩ := h.of_snoc
    specialize ih hbefore
    rw [after_snoc, rangeBegins_snoc]
    cases op with
    | store extent isTaint =>
      cases isTaint with
      | true => by_cases ha : extent.address = a <;> simp [TaintListener.access, mem_insertTaint, beginsStep, ha, ih]
      | false =>
        simp only [TaintListener.access, mem_eraseTaint, beginsStep]
        by_cases hcovers : extent.Covers a
        · rw [if_pos hcovers]
          refine ⟨fun hmem => ?_, fun hfalse => by cases hfalse⟩
          -- an address that is overwritten but stays in the set would be the start of another range
          rw [hop a hcovers (Ne.symm hmem.1)] at ih
          exact absurd (ih.mp hmem.2) (by decide)
        · rw [if_neg hcovers, ih]
          refine ⟨fun hmem => hmem.2, fun hbegins => ⟨?_, hbegins⟩⟩
          rintro rfl
          exact hcovers extent.covers_address
    | load extent => exact ih
    | makeTaint extent => by_cases ha : extent.address = a <;> simp [TaintListener.access, mem_insertTaint, beginsStep, ha, ih]

theorem KeepsToStarts.byteAccurate (h : KeepsToStarts ops) : ByteAccurate ops := by
  rintro before extent after rfl
  have hbefore : KeepsToStarts before := by
    rintro earlier op later rfl
    exact h earlier op (later ++ .load extent :: after) (by simp)
  rw [LoadAccurate, TaintListener.loadIsTaint, decide_eq_true_eq, mem_isTaint_iff_rangeBegins hbefore]
  constructor
  · intro hbegins
    exact ⟨extent.address, extent.covers_address, byteTainted_of_rangeBegins hbegins⟩
  · exact h before (.load extent) after rfl

/-- Behind the first operation that does not keep to the starts, a load is not accurate. -/
theorem inaccurate_of_not_atRangeStart (h : KeepsToStarts before) (hop : ¬AtRangeStart before op) :
    ∃ after, ¬ByteAccurate (before ++ op :: after) := by
  cases op with
  | load extent =>
    refine ⟨[], fun haccurate => hop fun hread => ?_⟩
    have hmarked := (haccurate before extent [] rfl).mpr hread
    rw [TaintListener.loadIsTaint, decide_eq_true_eq, mem_isTaint_iff_rangeBegins h] at hmarked
    exact hmarked
  | store extent isTaint =>
    cases isTaint with
    | true => exact absurd trivial hop
    | false =>
      simp only [AtRangeStart, not_forall] at hop
      obtain ⟨a, hcovers, hne, hbegins⟩ := hop
      -- the range at `a` is overwritten, and a load at `a` is marked all the same
      refine ⟨[.load ⟨a, 1, Nat.one_pos⟩], fun haccurate => ?_⟩
      have hload := haccurate (before ++ [.store extent false]) ⟨a, 1, Nat.one_pos⟩ [] (by simp)
      have hmem : a ∈ (ObjectState.after (before ++ [.store extent false])).isTaint := by
        rw [after_snoc, TaintListener.access, mem_eraseTaint, mem_isTaint_iff_rangeBegins h]
        exact ⟨Ne.symm hne, by simpa using hbegins⟩
      obtain ⟨b, hb, htainted⟩ := hload.mp (by simpa [TaintListener.loadIsTaint] using hmem)
      have hab : b = a := by
        have := hb.1
        have := hb.2
        simp only at *
        omega
      rw [byteTainted_snoc, byteStep, hab, if_pos hcovers] at htainted
      cases htainted
  | makeTaint extent => exact absurd trivial hop

theorem exists_first_not_atRangeStart (h : ¬KeepsToStarts ops) :
    ∃ before op after, ops = before ++ op :: after ∧ KeepsToStarts before ∧ ¬AtRangeStart before op := by
  induction ops using List.reverseRecOn with
  | nil => exact absurd keepsToStarts_nil h
  | append_singleton ops op ih =>
    by_cases hops : KeepsToStarts ops
    · exact ⟨ops, op, [], rfl, hops, fun hop => h (hops.snoc hop)⟩
    · obtain ⟨before, op', after, rfl, hbefore, hop'⟩ := ih hops
      exact ⟨before, op', after ++ [op], by simp, hbefore, hop'⟩

end

/-- A load is marked exactly when the last store or `make_taint` at its own address taints. That is the taint of the bytes
    in each sequence that keeps to the starts of tainted ranges; and only there, up to the operations that follow. -/
theorem serialTaint_by_address (ops : List MemoryOp) :
    (∀ extent, TaintListener.loadIsTaint ops extent = true ↔
      (ops.filterMap (MemoryOp.taintsAt extent.address)).getLast? = some true) ∧
    (KeepsToStarts ops → ByteAccurate ops) ∧
    (¬KeepsToStarts ops → ∃ before op after after', ops = before ++ op :: after ∧ ¬ByteAccurate (before ++ op :: after')) := by
  refine ⟨fun extent => ?_, KeepsToStarts.byteAccurate, fun hnot => ?_⟩
  · rw [TaintListener.loadIsTaint, decide_eq_true_eq, mem_isTaint_iff]
  · obtain ⟨before, op, after, hsplit, hbefore, hop⟩ := exists_first_not_atRangeStart hnot
    obtain ⟨after', hinaccurate⟩ := inaccurate_of_not_atRangeStart hbefore hop
    exact ⟨before, op, after, after', hsplit, hinaccurate⟩

/-- The lower half of a tainted word, before and after the word is overwritten. -/
theorem byteAccurate_lowerHalf :
    ByteAccurate [.makeTaint ⟨0, 8, by decide⟩, .load ⟨0, 4, by decide⟩, .store ⟨0, 8, by decide⟩ false,
      .load ⟨0, 4, by decide⟩] := by
  refine (serialTaint_by_address _).2.1 ?_
  have h₁ : KeepsToStarts [.makeTaint ⟨0, 8, by decide⟩] := keepsToStarts_nil.snoc trivial
  have h₂ : KeepsToStarts [.makeTaint ⟨0, 8, by decide⟩, .load ⟨0, 4, by decide⟩] := h₁.snoc fun _ => rfl
  have hstore : AtRangeStart [.makeTaint ⟨0, 8, by decide⟩, .load ⟨0, 4, by decide⟩] (.store ⟨0, 8, by decide⟩ false) := by
    intro a _ hne
    simp [rangeBegins, beginsStep, Ne.symm hne]
  refine (h₂.snoc hstore).snoc ?_
  rintro ⟨b, hb, htainted⟩
  have hcovers : Extent.Covers ⟨0, 8, by decide⟩ b := ⟨Nat.zero_le b, Nat.lt_of_lt_of_le hb.2 (by decide)⟩
  simp [byteTainted, byteStep, hcovers] at htainted

/-- The upper half of a tainted word is loaded: it is not marked. -/
theorem not_byteAccurate_upperHalf : ¬∀ ops, ByteAccurate ops := by
  intro hall
  have hload := hall [.store ⟨0, 8, by decide⟩ true, .load ⟨4, 4, by decide⟩] [.store ⟨0, 8, by decide⟩ true]
    ⟨4, 4, by decide⟩ [] rfl
  have hmarked := hload.mpr ⟨4, by decide, by decide⟩
  exact absurd hmarked (by decide)

end CapTaint
