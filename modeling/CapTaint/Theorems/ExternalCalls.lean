import Mathlib.Data.List.Nodup
import CapTaint.Memory

/-! # External writes and later reads

What an external call leaves in the memory of the process is read back by every later read, unless the byte had been
flushed: a read at a symbolic offset goes through the update list then, which `copyInConcretes` does not change. -/

namespace CapTaint.Memory

variable {V : Type}

namespace UpdateList

@[simp] theorem read_extend (u : UpdateList V) (index index' : V → Nat) (value : V → UInt8) (v : V) :
    (u.extend index value).read index' v = if index v = index' v then value v else u.read index' v := by
  by_cases h : index v = index' v <;> simp [read, extend, h]

end UpdateList

namespace ObjectState

variable {os : ObjectState V} {offset i : Nat} {v : V}

theorem cachedValue_eq (unflushed : os.isByteFlushed offset = false) : os.cachedValue offset unflushed = os.read8 offset := by
  rw [cachedValue, read8]
  split
  next => rfl
  next hsymbolic =>
    obtain ⟨value, hvalue⟩ := Option.isSome_iff_exists.mp ((os.cached offset unflushed).resolve_left hsymbolic)
    simp [hvalue]

/-! ## Reads at symbolic offsets -/

/-- The byte that a read at a symbolic offset finds: the one of the update list, or the cached one if it is not flushed. -/
def seen (os : ObjectState V) (i : Nat) (v : V) : UInt8 :=
  if os.isByteFlushed i then os.updates.read (fun _ => i) v else os.read8 i v

@[simp] theorem flushForRead_size : (os.flushForRead offset).size = os.size := by
  rw [flushForRead]; split <;> rfl

@[simp] theorem flushForRead_concreteStore : (os.flushForRead offset).concreteStore = os.concreteStore := by
  rw [flushForRead]; split <;> rfl

@[simp] theorem flushForRead_isByteConcrete : (os.flushForRead offset).isByteConcrete = os.isByteConcrete := by
  rw [flushForRead]; split <;> rfl

@[simp] theorem flushForRead_knownSymbolics : (os.flushForRead offset).knownSymbolics = os.knownSymbolics := by
  rw [flushForRead]; split <;> rfl

@[simp] theorem flushForRead_isByteFlushed :
    (os.flushForRead offset).isByteFlushed i = (i == offset || os.isByteFlushed i) := by
  rw [flushForRead]
  split
  next => rfl
  next hflushed =>
    by_cases heq : i = offset
    · simp_all
    · simp [heq]

theorem flushForRead_updates_of_ne (hne : i ≠ offset) :
    (os.flushForRead offset).updates.read (fun _ => i) v = os.updates.read (fun _ => i) v := by
  rw [flushForRead]
  split
  next => simp [hne.symm]
  next => rfl

theorem flushForRead_read8_of_ne (hne : i ≠ offset) : (os.flushForRead offset).read8 i v = os.read8 i v := by
  simp only [read8, flushForRead_isByteConcrete, flushForRead_concreteStore, flushForRead_knownSymbolics]
  split
  next => rfl
  next =>
    cases os.knownSymbolics i with
    | some value => rfl
    | none => exact flushForRead_updates_of_ne hne

/-- A flush does not change what is seen. -/
theorem flushForRead_seen : (os.flushForRead offset).seen i v = os.seen i v := by
  by_cases heq : i = offset
  · subst heq
    cases hflushed : os.isByteFlushed i with
    | true => simp [flushForRead, hflushed]
    | false => simp [seen, flushForRead, hflushed, cachedValue_eq]
  · rw [seen, flushForRead_isByteFlushed, beq_eq_false_iff_ne.mpr heq, Bool.false_or, flushForRead_updates_of_ne heq,
      flushForRead_read8_of_ne heq]
    rfl

theorem foldl_flushForRead_seen (offsets : List Nat) (os : ObjectState V) :
    (offsets.foldl flushForRead os).seen i v = os.seen i v := by
  induction offsets generalizing os with
  | nil => rfl
  | cons offset rest ih => rw [List.foldl_cons, ih, flushForRead_seen]

theorem foldl_flushForRead_isByteFlushed (offsets : List Nat) (os : ObjectState V) :
    (offsets.foldl flushForRead os).isByteFlushed i = (decide (i ∈ offsets) || os.isByteFlushed i) := by
  induction offsets generalizing os with
  | nil => simp
  | cons offset rest ih =>
    rw [List.foldl_cons, ih, flushForRead_isByteFlushed]
    by_cases heq : i = offset
    · simp [heq]
    · simp [heq, beq_eq_false_iff_ne.mpr heq]

/-- A read at a symbolic offset yields what is seen at its value. -/
theorem read8At_eq {offset : V → Nat} (hoffset : offset v < os.size) : (os.read8At offset).1 v = os.seen (offset v) v := by
  have hflushed : (os.flushRangeForRead 0 os.size).isByteFlushed (offset v) = true := by
    rw [flushRangeForRead, foldl_flushForRead_isByteFlushed]
    simp [List.mem_range', hoffset]
  have hseen : (os.flushRangeForRead 0 os.size).seen (offset v) v = os.seen (offset v) v := foldl_flushForRead_seen _ os
  rw [← hseen, seen, if_pos hflushed]
  rfl

end ObjectState

/-! ## The copy back -/

namespace AddressSpace

variable {space : AddressSpace V} {memory before after : Native} {entry : MemoryObject × ObjectState V}

/-- The object takes part in the exchange with the memory of the process. -/
def isNative (entry : MemoryObject × ObjectState V) : Prop := entry.1.isUserSpecified = false

/-- The memory of the process differs from the object's concrete bytes. -/
def Differs (memory : Native) (entry : MemoryObject × ObjectState V) : Prop :=
  ∃ i < entry.1.size, memory (entry.1.address + i) ≠ entry.2.concreteStore i

theorem isChanged_iff : isChanged memory entry = true ↔ Differs memory entry := by
  simp [isChanged, Differs]

/-- The object after the copy back, when no read-only object has stopped it. -/
def copiedIn (memory : Native) (entry : MemoryObject × ObjectState V) : ObjectState V :=
  if entry.1.isUserSpecified || !isChanged memory entry then entry.2 else copyIn memory entry

theorem copyInObjects_fst (objects : List (MemoryObject × ObjectState V)) : (copyInObjects memory objects).1 = false ↔
    ∃ entry ∈ objects, isNative entry ∧ entry.2.readOnly = true ∧ Differs memory entry := by
  induction objects with
  | nil => simp [copyInObjects]
  | cons entry rest ih =>
    simp only [List.mem_cons, exists_eq_or_imp, isNative, ← isChanged_iff] at ih ⊢
    rw [copyInObjects]
    split
    next hskip =>
      have hno : ¬(entry.1.isUserSpecified = false ∧ entry.2.readOnly = true ∧ isChanged memory entry = true) := by
        rintro ⟨hnative, -, hchanged⟩
        simp [hnative, hchanged] at hskip
      rw [or_iff_right hno]
      exact ih
    next hskip =>
      simp only [Bool.or_eq_true, not_or, Bool.not_eq_true, Bool.not_eq_false'] at hskip
      split
      next hreadOnly => simp [hskip, hreadOnly]
      next hwriteable =>
        rw [or_iff_right fun h => hwriteable h.2.1]
        exact ih

theorem copyInObjects_snd {objects : List (MemoryObject × ObjectState V)} (hdone : (copyInObjects memory objects).1 = true) :
    (copyInObjects memory objects).2 = objects.map fun entry => (entry.1, copiedIn memory entry) := by
  induction objects with
  | nil => rfl
  | cons entry rest ih =>
    rw [copyInObjects] at hdone ⊢
    rw [List.map_cons, copiedIn]
    split
    next hskip =>
      rw [if_pos hskip] at hdone
      exact congrArg (entry :: ·) (ih hdone)
    next hskip =>
      rw [if_neg hskip] at hdone
      split
      next hreadOnly =>
        rw [if_pos hreadOnly] at hdone
        cases hdone
      next hwriteable =>
        rw [if_neg hwriteable] at hdone
        exact congrArg ((entry.1, copyIn memory entry) :: ·) (ih hdone)

theorem foldl_copyOut_of_lt {objects : List (MemoryObject × ObjectState V)} {a : Nat}
    (hbefore : ∀ mo ∈ objects.map Prod.fst, a < mo.address) : objects.foldl copyOut memory a = memory a := by
  induction objects generalizing memory with
  | nil => rfl
  | cons entry rest ih =>
    rw [List.map_cons, List.forall_mem_cons] at hbefore
    rw [List.foldl_cons, ih hbefore.2, copyOut]
    split
    · rfl
    · exact if_neg (by omega)

/-- The memory of a writeable object is its concrete cache when the external call begins. -/
theorem copyOutConcretes_apply (hentry : entry ∈ space.objects) (hnative : isNative entry)
    (hwriteable : entry.2.readOnly = false) {i : Nat} (hi : i < entry.1.size) :
    space.copyOutConcretes before (entry.1.address + i) = entry.2.concreteStore i := by
  obtain ⟨objects, hsizes, hdisjoint⟩ := space
  simp only [copyOutConcretes] at hentry ⊢
  clear hsizes
  induction objects generalizing before with
  | nil => cases hentry
  | cons first rest ih =>
    rw [List.map_cons, List.pairwise_cons] at hdisjoint
    rw [List.foldl_cons]
    rcases List.mem_cons.mp hentry with rfl | hrest
    · rw [foldl_copyOut_of_lt fun mo hmo => by have := hdisjoint.1 mo hmo; omega, copyOut, if_neg (by simp_all [isNative])]
      have hrange : entry.1.address ≤ entry.1.address + i ∧ entry.1.address + i < entry.1.address + entry.1.size := by omega
      rw [memcpy, if_pos hrange, Nat.add_sub_cancel_left]
    · exact ih hdisjoint.2 hrest

/-! ## Reads after the copy back -/

@[simp] theorem copiedIn_size : (copiedIn memory entry).size = entry.2.size := by
  rw [copiedIn]; split <;> rfl

@[simp] theorem copiedIn_isByteFlushed : (copiedIn memory entry).isByteFlushed = entry.2.isByteFlushed := by
  rw [copiedIn]; split <;> rfl

@[simp] theorem copiedIn_updates : (copiedIn memory entry).updates = entry.2.updates := by
  rw [copiedIn]; split <;> rfl

theorem copiedIn_read8_concrete (hnative : isNative entry) {i : Nat} (hi : i < entry.1.size)
    (hconcrete : entry.2.isByteConcrete i = true) (v : V) :
    (copiedIn memory entry).read8 i v = memory (entry.1.address + i) := by
  rw [copiedIn]
  split
  next hskip =>
    have hsame : ¬Differs memory entry := by
      rw [← isChanged_iff]
      simp_all [isNative]
    have heq : memory (entry.1.address + i) = entry.2.concreteStore i := by
      by_contra hne
      exact hsame ⟨i, hi, hne⟩
    rw [ObjectState.read8, if_pos hconcrete, heq]
  next =>
    simp [ObjectState.read8, copyIn, hconcrete, hi]

theorem copiedIn_read8_symbolic {i : Nat} (hsymbolic : entry.2.isByteConcrete i = false) :
    (copiedIn memory entry).read8 i = entry.2.read8 i := by
  rw [copiedIn]
  split
  next => rfl
  next => simp [ObjectState.read8, copyIn, hsymbolic]

theorem copiedIn_seen_symbolic {i : Nat} (hsymbolic : entry.2.isByteConcrete i = false) (v : V) :
    (copiedIn memory entry).seen i v = entry.2.seen i v := by
  rw [ObjectState.seen, copiedIn_isByteFlushed, copiedIn_updates, copiedIn_read8_symbolic hsymbolic]
  rfl

/-- A concrete byte is seen at a symbolic offset as the call has left it, unless it is flushed and the update list has
    another value. -/
theorem copiedIn_seen_concrete_iff (hnative : isNative entry) {i : Nat} (hi : i < entry.1.size)
    (hconcrete : entry.2.isByteConcrete i = true) (v : V) :
    (copiedIn memory entry).seen i v = memory (entry.1.address + i) ↔
      (entry.2.isByteFlushed i = true → entry.2.updates.read (fun _ => i) v = memory (entry.1.address + i)) := by
  rw [ObjectState.seen, copiedIn_isByteFlushed, copiedIn_updates, copiedIn_read8_concrete hnative hi hconcrete]
  cases entry.2.isByteFlushed i with
  | true => simp
  | false => simp

/-- What the call has done to an object, as the reads of its successor show it; `called` is the memory with which the call
    began. -/
structure ReadsBack (called after : Native) (entry : MemoryObject × ObjectState V) (os' : ObjectState V) : Prop where
  concrete : isNative entry → ∀ i < entry.1.size, entry.2.isByteConcrete i = true →
    ∀ v, os'.read8 i v = after (entry.1.address + i)
  concreteAt : isNative entry → ∀ (offset : V → Nat) (v : V), offset v < entry.1.size →
    entry.2.isByteConcrete (offset v) = true → (os'.read8At offset).1 v = after (entry.1.address + offset v)
  symbolic : ∀ i < entry.1.size, entry.2.isByteConcrete i = false → os'.read8 i = entry.2.read8 i
  symbolicAt : ∀ (offset : V → Nat) (v : V), offset v < entry.1.size →
    entry.2.isByteConcrete (offset v) = false → (os'.read8At offset).1 v = (entry.2.read8At offset).1 v
  untouched : (isNative entry → ∀ i < entry.1.size, after (entry.1.address + i) = called (entry.1.address + i)) →
    os' = entry.2

/-- The call that finds the memory `before`, with the concrete bytes copied out, and leaves `after` is seen by every later
    read. The state ends when `copyInConcretes` returns false. -/
structure ExternalWritesSeen (space : AddressSpace V) (before after : Native) : Prop where
  returns : (space.copyInConcretes after).1 = false ↔
    ∃ entry ∈ space.objects, isNative entry ∧ entry.2.readOnly = true ∧ Differs after entry
  reads : (space.copyInConcretes after).1 = true → ∀ entry ∈ space.objects,
    ∃ os', (entry.1, os') ∈ (space.copyInConcretes after).2.objects ∧
      ReadsBack (space.copyOutConcretes before) after entry os'

/-- Each byte that is concrete and flushed is left with the value that the update list has. -/
def KeepsFlushed (space : AddressSpace V) (after : Native) : Prop :=
  ∀ entry ∈ space.objects, isNative entry → ∀ i < entry.1.size, entry.2.isByteConcrete i = true →
    entry.2.isByteFlushed i = true → ∀ v, entry.2.updates.read (fun _ => i) v = after (entry.1.address + i)

theorem object_unique {entry entry' : MemoryObject × ObjectState V} (hentry : entry ∈ space.objects)
    (hentry' : entry' ∈ space.objects) (heq : entry.1 = entry'.1) : entry = entry' := by
  refine List.inj_on_of_nodup_map (space.disjoint.imp fun {a b} hab heq => ?_) hentry hentry' heq
  rw [heq] at hab
  exact Nat.lt_irrefl _ hab.1

theorem readsBack_copiedIn (hentry : entry ∈ space.objects)
    (hdone : ¬(isNative entry ∧ entry.2.readOnly = true ∧ Differs after entry)) :
    ReadsBack (space.copyOutConcretes before) after entry (copiedIn after entry) ↔
      (isNative entry → ∀ i < entry.1.size, entry.2.isByteConcrete i = true →
        entry.2.isByteFlushed i = true → ∀ v, entry.2.updates.read (fun _ => i) v = after (entry.1.address + i)) := by
  have hsize := space.sizes entry hentry
  constructor
  · intro hreads hnative i hi hconcrete hflushed v
    have hat := hreads.concreteAt hnative (fun _ => i) v hi hconcrete
    rw [ObjectState.read8At_eq (by rwa [copiedIn_size, hsize])] at hat
    exact (copiedIn_seen_concrete_iff hnative hi hconcrete v).mp hat hflushed
  · intro hkeeps
    refine ⟨fun hnative i hi hconcrete v => ?_, fun hnative offset v hi hconcrete => ?_, fun i hi hsymbolic => ?_,
      fun offset v hi hsymbolic => ?_, fun hsame => ?_⟩
    · exact copiedIn_read8_concrete hnative hi hconcrete v
    · rw [ObjectState.read8At_eq (by rwa [copiedIn_size, hsize])]
      exact (copiedIn_seen_concrete_iff hnative hi hconcrete v).mpr fun hflushed => hkeeps hnative _ hi hconcrete hflushed v
    · exact copiedIn_read8_symbolic hsymbolic
    · rw [ObjectState.read8At_eq (by rwa [copiedIn_size, hsize]), ObjectState.read8At_eq (by rwa [hsize]),
        copiedIn_seen_symbolic hsymbolic]
    · -- what the call left is what was copied out, so `memcmp` finds no difference
      refine if_pos ?_
      rw [Bool.or_eq_true, Bool.not_eq_true', ← Bool.not_eq_true, isChanged_iff]
      by_cases hnative : isNative entry
      · refine .inr fun hdiffers => ?_
        cases hreadOnly : entry.2.readOnly with
        | true => exact hdone ⟨hnative, hreadOnly, hdiffers⟩
        | false =>
          obtain ⟨i, hi, hne⟩ := hdiffers
          exact hne ((hsame hnative i hi).trans (copyOutConcretes_apply hentry hnative hreadOnly hi))
      · exact .inl (by simpa [isNative] using hnative)

/-- A call is seen by every later read exactly when it leaves the flushed concrete bytes as the update list has them, or
    changes a read-only object. -/
theorem externalWritesSeen_iff (space : AddressSpace V) (before after : Native) :
    ExternalWritesSeen space before after ↔
      (∃ entry ∈ space.objects, isNative entry ∧ entry.2.readOnly = true ∧ Differs after entry) ∨
        KeepsFlushed space after := by
  have hreturns : (space.copyInConcretes after).1 = false ↔
      ∃ entry ∈ space.objects, isNative entry ∧ entry.2.readOnly = true ∧ Differs after entry :=
    copyInObjects_fst space.objects
  by_cases hstop : ∃ entry ∈ space.objects, isNative entry ∧ entry.2.readOnly = true ∧ Differs after entry
  · refine iff_of_true ⟨hreturns, fun hdone => ?_⟩ (.inl hstop)
    rw [hreturns.mpr hstop] at hdone
    cases hdone
  · have hdone : (space.copyInConcretes after).1 = true := by
      rw [← Bool.not_eq_false, hreturns]
      exact hstop
    have hobjects : (space.copyInConcretes after).2.objects =
        space.objects.map fun entry => (entry.1, copiedIn after entry) := copyInObjects_snd hdone
    have hwritten : ∀ entry ∈ space.objects, ¬(isNative entry ∧ entry.2.readOnly = true ∧ Differs after entry) :=
      fun entry hentry h => hstop ⟨entry, hentry, h⟩
    rw [or_iff_right hstop]
    constructor
    · intro h entry hentry
      obtain ⟨os', hos', hreads⟩ := h.reads hdone entry hentry
      rw [hobjects] at hos'
      obtain ⟨entry', hentry', heq⟩ := List.mem_map.mp hos'
      obtain ⟨hmo, rfl⟩ := Prod.mk.inj heq
      obtain rfl := object_unique hentry' hentry hmo
      exact (readsBack_copiedIn hentry (hwritten _ hentry)).mp hreads
    · intro hkeeps
      refine ⟨hreturns, fun _ entry hentry => ⟨copiedIn after entry, ?_, ?_⟩⟩
      · rw [hobjects]
        exact List.mem_map_of_mem hentry
      · exact (readsBack_copiedIn hentry (hwritten _ hentry)).mpr (hkeeps entry hentry)

/-- Two concrete bytes at address 4096 that a read at a symbolic offset has flushed. -/
def flushedSpace : AddressSpace (Fin 256) where
  objects := [({ address := 4096, size := 2, isUserSpecified := false },
    ((ObjectState.concrete 2).read8At fun v => v.val % 2).2)]
  sizes := by simp [ObjectState.read8At, ObjectState.flushRangeForRead, List.range', ObjectState.concrete]
  disjoint := List.pairwise_singleton _ _

/-- The call writes 7 to the first byte; the read at the symbolic offset still yields 0 there. -/
theorem not_externalWritesSeen_flushed :
    ¬ExternalWritesSeen flushedSpace (fun _ => 0) fun a => if a = 4096 then 7 else 0 := by
  intro h
  obtain ⟨os', hos', hreads⟩ := h.reads (by decide +kernel) _ List.mem_cons_self
  obtain rfl := congrArg Prod.snd (List.mem_singleton.mp hos')
  have hread := hreads.concreteAt rfl (fun v => v.val % 2) 0 (by decide) rfl
  revert hread
  decide +kernel

end AddressSpace

end CapTaint.Memory
