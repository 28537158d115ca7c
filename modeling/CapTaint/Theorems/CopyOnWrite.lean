import CapTaint.Klee.AddressSpace
import CapTaint.Lib.Epochs
import CapTaint.Lib.OptionLoop

/-! Address spaces that are copies of one another do not see each other's writes. -/

namespace CapTaint.Klee

theorem Heap.modify_cells_self (heap : Heap) (os : Nat) (writes : ObjectState → ObjectState) :
    (heap.modify os writes).cells os = { heap.cells os with state := writes (heap.cells os).state } :=
  Function.update_self _ _ _

theorem Heap.modify_cells_of_ne {os n : Nat} (h : os ≠ n) (heap : Heap) (writes : ObjectState → ObjectState) :
    (heap.modify n writes).cells os = heap.cells os := Function.update_of_ne h _ _

theorem Heap.new_cells_of_ne {os : Nat} {heap : Heap} (h : os ≠ heap.next) (value : OwnedState) :
    (heap.new value).cells os = heap.cells os := Function.update_of_ne h _ _

/-! ### The address spaces of a process -/

/-- The heap and the address spaces that there are. -/
structure Process where
  heap : Heap
  spaces : Nat → Option AddressSpace

namespace Process

/-- What is done with the address space `s`. -/
inductive Act where
  /-- A new object state that is not bound. -/
  | new (state : ObjectState)
  | bindObject (s : Nat) (mo : MemoryObject) (os : Nat)
  /-- `getWriteable` with the current binding, and writes to what it gives. -/
  | write (s : Nat) (mo : MemoryObject) (writes : ObjectState → ObjectState)
  | unbindObject (s : Nat) (mo : MemoryObject)
  /-- The copy is the address space `c`. -/
  | copy (s c : Nat)
  | destroy (s : Nat)

/-- The address space that changes, if one does. -/
def Act.changes : Act → Option Nat
  | .new _ => none
  | .bindObject s _ _ | .write s _ _ | .unbindObject s _ | .destroy s => some s
  | .copy _ c => some c

def set (σ : Process) (s : Nat) (space : AddressSpace) (heap : Heap) : Process :=
  ⟨heap, Function.update σ.spaces s (some space)⟩

/-- No assertion fails and no `cowKey` wraps. -/
inductive Step (σ : Process) : Act → Process → Prop
  | new (state : ObjectState) : Step σ (.new state) { σ with heap := σ.heap.new { state } }
  | bindObject {s os : Nat} {mo : MemoryObject} {space space' : AddressSpace} {heap' : Heap}
      (hs : σ.spaces s = some space) (hos : os < σ.heap.next)
      (hok : space.bindObject σ.heap mo os = .ok (space', heap')) :
      Step σ (.bindObject s mo os) (σ.set s space' heap')
  | write {s os n : Nat} {mo : MemoryObject} {space space' : AddressSpace} {heap' : Heap}
      (writes : ObjectState → ObjectState) (hs : σ.spaces s = some space) (hos : space.findObject mo = some os)
      (hok : space.getWriteable σ.heap mo os = .ok (n, space', heap')) :
      Step σ (.write s mo writes) (σ.set s space' (heap'.modify n writes))
  | unbindObject {s : Nat} {space : AddressSpace} (mo : MemoryObject) (hs : σ.spaces s = some space) :
      Step σ (.unbindObject s mo) (σ.set s (space.unbindObject mo) σ.heap)
  | copy {s c : Nat} {space : AddressSpace} (hs : σ.spaces s = some space) (hc : σ.spaces c = none)
      (hwrap : space.cowKey.toNat + 1 < 2 ^ 32) :
      Step σ (.copy s c) ((σ.set s space.copy.1 σ.heap).set c space.copy.2 σ.heap)
  | destroy (s : Nat) : Step σ (.destroy s) { σ with spaces := Function.update σ.spaces s none }

/-- The processes that start with one address space. -/
inductive Reachable : Process → Prop
  | initial (cells : Nat → OwnedState) : Reachable ⟨⟨0, cells⟩, Function.update (fun _ => none) 0 (some {})⟩
  | step {σ σ' : Process} {act : Act} (h : Reachable σ) (hstep : Step σ act σ') : Reachable σ'

variable {σ σ' : Process} {s t c os n : Nat} {mo : MemoryObject} {space space' : AddressSpace} {heap heap' : Heap} {act : Act}

/-- The object state that is bound to an address in an address space. -/
def contents (σ : Process) (s : Nat) (mo : MemoryObject) : Option ObjectState := do
  let space ← σ.spaces s
  let os ← space.findObject mo
  return (σ.heap.cells os).state

/-! ### The invariant -/

/-- The address space `s` has bound the object state. -/
def Binds (σ : Process) (s os : Nat) : Prop :=
  ∃ space, σ.spaces s = some space ∧ ∃ mo, (mo, os) ∈ space.objects.entries

def epochs (σ : Process) : Epochs Nat Nat where
  epoch s := (σ.spaces s).elim 0 fun space => space.cowKey.toNat
  owner os := (σ.heap.cells os).copyOnWriteOwner.toNat
  holds := σ.Binds

/-- Owners are epochs of address spaces, and only object states that have been given out are bound. -/
structure Invariant (σ : Process) : Prop where
  epochs : σ.epochs.Invariant
  pos : ∀ s space, σ.spaces s = some space → 0 < space.cowKey.toNat
  allocated : ∀ s os, σ.Binds s os → os < σ.heap.next

theorem epoch_eq (hs : σ.spaces s = some space) : σ.epochs.epoch s = space.cowKey.toNat := by
  simp only [epochs, hs, Option.elim]

theorem epoch_congr (h : σ'.spaces t = σ.spaces t) : σ'.epochs.epoch t = σ.epochs.epoch t := by
  simp only [epochs, h]

theorem binds_iff (hs : σ.spaces s = some space) : σ.Binds s os ↔ ∃ mo, (mo, os) ∈ space.objects.entries := by
  constructor
  · rintro ⟨space', hs', hmem⟩
    obtain rfl := Option.some.inj (hs.symm.trans hs')
    exact hmem
  · exact fun hmem => ⟨space, hs, hmem⟩

theorem findObject_eq_some : space.findObject mo = some os ↔ ∃ mo', (mo', os) ∈ space.objects.entries ∧ mo'.address = mo.address := by
  rw [AddressSpace.findObject, Option.map_eq_some_iff]
  constructor
  · rintro ⟨⟨mo', os'⟩, hlookup, rfl⟩
    exact ⟨mo', SortedList.lookup_eq_some.mp hlookup⟩
  · rintro ⟨mo', hmem, haddress⟩
    exact ⟨(mo', os), SortedList.lookup_eq_some.mpr ⟨hmem, haddress⟩, rfl⟩

/-! ### The steps -/

theorem bindObject_eq_ok (h : space.bindObject heap mo os = .ok (space', heap')) :
    (heap.cells os).copyOnWriteOwner = 0 ∧ space' = { space with objects := space.objects.replace (mo, os) } ∧
      heap' = heap.set os { heap.cells os with copyOnWriteOwner := space.cowKey } := by
  unfold AddressSpace.bindObject at h
  split at h
  · rename_i howner
    obtain ⟨rfl, rfl⟩ := Prod.mk.inj (Except.ok.inj h)
    exact ⟨howner, rfl, rfl⟩
  · cases h

/-- The object state itself where it is owned, and else a copy of it. -/
theorem getWriteable_eq_ok (h : space.getWriteable heap mo os = .ok (n, space', heap')) :
    (space.cowKey = (heap.cells os).copyOnWriteOwner ∧ n = os ∧ space' = space ∧ heap' = heap) ∨
      (n = heap.next ∧ space' = { space with objects := space.objects.replace (mo, heap.next) } ∧
        heap' = heap.new { heap.cells os with copyOnWriteOwner := space.cowKey }) := by
  unfold AddressSpace.getWriteable at h
  split at h
  · cases h
  rename_i hreadOnly
  split at h
  · rename_i howner
    obtain ⟨hn, hpair⟩ := Prod.mk.inj (Except.ok.inj h)
    obtain ⟨hspace, hheap⟩ := Prod.mk.inj hpair
    exact .inl ⟨howner, hn.symm, hspace.symm, hheap.symm⟩
  · obtain ⟨copy, hcopy, h⟩ := Result.bind_eq_ok.mp h
    rw [OwnedState.copy, if_neg hreadOnly] at hcopy
    obtain rfl := Except.ok.inj hcopy
    obtain ⟨hn, hpair⟩ := Prod.mk.inj (Except.ok.inj h)
    obtain ⟨hspace, hheap⟩ := Prod.mk.inj hpair
    have hstate : ({ (heap.cells os).state with readOnly := false } : ObjectState) = (heap.cells os).state := by
      rw [← Bool.eq_false_of_not_eq_true hreadOnly]
    exact .inr ⟨hn.symm, hspace.symm, by rw [← hheap, hstate]⟩

@[simp] theorem set_spaces_self : (σ.set s space heap).spaces s = some space := Function.update_self _ _ _

theorem set_spaces_of_ne (ht : t ≠ s) : (σ.set s space heap).spaces t = σ.spaces t := Function.update_of_ne ht _ _

theorem set_binds_self : (σ.set s space heap).Binds s os ↔ ∃ mo, (mo, os) ∈ space.objects.entries :=
  binds_iff set_spaces_self

theorem set_binds_of_ne (ht : t ≠ s) : (σ.set s space heap).Binds t os ↔ σ.Binds t os := by
  unfold Binds
  rw [set_spaces_of_ne ht]

/-- The address space's own key does not change. -/
theorem set_epoch (hs : σ.spaces s = some space) (hkey : space'.cowKey = space.cowKey) :
    (σ.set s space' heap).epochs.epoch = σ.epochs.epoch := by
  funext t
  by_cases ht : t = s
  · subst ht
    rw [epoch_eq set_spaces_self, epoch_eq hs, hkey]
  · exact epoch_congr (set_spaces_of_ne ht)

theorem owner_congr {cell : OwnedState} (h : σ.heap.cells os = cell) : σ.epochs.owner os = cell.copyOnWriteOwner.toNat :=
  congrArg (fun cell : OwnedState => cell.copyOnWriteOwner.toNat) h

/-- An object state that no address space has becomes one of `s`. -/
theorem Invariant.claim (h : σ.Invariant) (hs : σ.spaces s = some space) (value : ObjectState) (next : Nat)
    (hnext : σ.heap.next ≤ next) (hos : os < next) (hfree : ∀ t, ¬σ.Binds t os) :
    (σ.set s { space with objects := space.objects.replace (mo, os) }
      ⟨next, Function.update σ.heap.cells os ⟨space.cowKey, value⟩⟩).Invariant := by
  set σ' := σ.set s { space with objects := space.objects.replace (mo, os) }
    ⟨next, Function.update σ.heap.cells os ⟨space.cowKey, value⟩⟩ with hσ'
  have hbinds : ∀ t p, σ'.Binds t p → p = os ∧ t = s ∨ p ≠ os ∧ σ.Binds t p := by
    intro t p ht
    by_cases hts : t = s
    · subst hts
      obtain ⟨mo', hmem⟩ := set_binds_self.mp ht
      rcases SortedList.mem_replace.mp hmem with heq | ⟨hmem, -⟩
      · exact .inl ⟨congrArg Prod.snd heq, rfl⟩
      · have hold : σ.Binds t p := (binds_iff hs).mpr ⟨mo', hmem⟩
        exact .inr ⟨fun hp => hfree t (hp ▸ hold), hold⟩
    · have hold := (set_binds_of_ne hts).mp ht
      exact .inr ⟨fun hp => hfree t (hp ▸ hold), hold⟩
  refine ⟨?_, fun t space' ht => ?_, fun t p ht => ?_⟩
  · refine h.epochs.claim (o := os) (s := s) ?_ (set_epoch hs rfl) (fun p hp => ?_) ?_ (fun t p hp ht => ?_) fun t ht => ?_
    · rw [epoch_eq hs]
      exact h.pos s space hs
    · exact owner_congr (Function.update_of_ne hp _ _)
    · rw [epoch_eq hs]
      have hcell : σ'.heap.cells os = ⟨space.cowKey, value⟩ := Function.update_self _ _ _
      exact owner_congr hcell
    · exact ((hbinds t p ht).resolve_left fun hleft => hp hleft.1).2
    · exact ((hbinds t os ht).resolve_right fun hright => hright.1 rfl).2
  · by_cases hts : t = s
    · subst hts
      obtain rfl := Option.some.inj (set_spaces_self.symm.trans ht)
      exact h.pos t space hs
    · exact h.pos t space' ((set_spaces_of_ne hts).symm.trans ht)
  · rcases hbinds t p ht with ⟨rfl, -⟩ | ⟨-, hold⟩
    · exact hos
    · exact (h.allocated t p hold).trans_le hnext

/-- Address spaces lose objects, and object states that are bound keep their owners. -/
theorem Invariant.mono (h : σ.Invariant)
    (hspaces : ∀ t space', σ'.spaces t = some space' → ∃ space, σ.spaces t = some space ∧ space'.cowKey = space.cowKey ∧
      ∀ entry ∈ space'.objects.entries, entry ∈ space.objects.entries)
    (hnext : σ.heap.next ≤ σ'.heap.next)
    (howner : ∀ os < σ.heap.next, (σ'.heap.cells os).copyOnWriteOwner = (σ.heap.cells os).copyOnWriteOwner) :
    σ'.Invariant := by
  have hbinds : ∀ t os, σ'.Binds t os → σ.Binds t os := by
    rintro t os ⟨space', ht, mo, hmem⟩
    obtain ⟨space, hs, -, hentries⟩ := hspaces t space' ht
    exact ⟨space, hs, mo, hentries _ hmem⟩
  -- an address space that is gone has no epoch, but holds nothing either
  have hepoch : ∀ t os, σ'.Binds t os → σ'.epochs.epoch t = σ.epochs.epoch t := by
    rintro t os ⟨space', ht, -⟩
    obtain ⟨space, hs, hkey, -⟩ := hspaces t space' ht
    rw [epoch_eq ht, epoch_eq hs, hkey]
  have howner' : ∀ t os, σ'.Binds t os → σ'.epochs.owner os = σ.epochs.owner os := fun t os ht =>
    congrArg BitVec.toNat (howner os (h.allocated t os (hbinds t os ht)))
  refine ⟨⟨fun t os ht => ?_, fun t os ht => ?_, fun t u os hne ht hu => ?_⟩, fun t space' ht => ?_, fun t os ht => ?_⟩
  · rw [howner' t os ht]
    exact h.epochs.pos t os (hbinds t os ht)
  · rw [howner' t os ht, hepoch t os ht]
    exact h.epochs.le t os (hbinds t os ht)
  · rw [howner' t os ht, hepoch t os ht]
    exact h.epochs.shared t u os hne (hbinds t os ht) (hbinds u os hu)
  · obtain ⟨space, hs, hkey, -⟩ := hspaces t space' ht
    exact hkey ▸ h.pos t space hs
  · exact (h.allocated t os (hbinds t os ht)).trans_le hnext

/-- The key of the copy is the next one. -/
theorem copy_toNat (hwrap : space.cowKey.toNat + 1 < 2 ^ 32) : (space.cowKey + 1).toNat = space.cowKey.toNat + 1 := by
  rw [BitVec.toNat_add]
  exact Nat.mod_eq_of_lt hwrap

theorem Invariant.copy (h : σ.Invariant) (hs : σ.spaces s = some space) (hc : σ.spaces c = none)
    (hwrap : space.cowKey.toNat + 1 < 2 ^ 32) :
    ((σ.set s space.copy.1 σ.heap).set c space.copy.2 σ.heap).Invariant := by
  set σ' := (σ.set s space.copy.1 σ.heap).set c space.copy.2 σ.heap with hσ'
  have hne : s ≠ c := by
    rintro rfl
    rw [hs] at hc
    cases hc
  have hsource : σ'.spaces s = some space.copy.1 := (set_spaces_of_ne hne).trans set_spaces_self
  have hcopy : σ'.spaces c = some space.copy.2 := set_spaces_self
  have hother : ∀ t, t ≠ s → t ≠ c → σ'.spaces t = σ.spaces t := fun t hts htc =>
    (set_spaces_of_ne htc).trans (set_spaces_of_ne hts)
  have hbinds : ∀ t os, t ≠ c → σ'.Binds t os → σ.Binds t os := by
    intro t os htc ht
    by_cases hts : t = s
    · subst hts
      exact (binds_iff hs).mpr ((binds_iff hsource).mp ht)
    · exact (set_binds_of_ne hts).mp ((set_binds_of_ne htc).mp ht)
  have hcopied : ∀ os, σ'.Binds c os → σ.Binds s os := fun os ht => (binds_iff hs).mpr ((binds_iff hcopy).mp ht)
  refine ⟨?_, fun t space' ht => ?_, fun t os ht => ?_⟩
  · refine h.epochs.fork (s := s) (c := c) ?_ ?_ (fun t hts htc => ?_) rfl hbinds hcopied
    · rw [epoch_eq hsource, epoch_eq hs]
      exact copy_toNat hwrap
    · rw [epoch_eq hcopy, epoch_eq hs]
      exact copy_toNat hwrap
    · exact epoch_congr (hother t hts htc)
  · by_cases htc : t = c
    · subst htc
      obtain rfl := Option.some.inj (hcopy.symm.trans ht)
      exact (copy_toNat hwrap).symm ▸ Nat.succ_pos _
    · by_cases hts : t = s
      · subst hts
        obtain rfl := Option.some.inj (hsource.symm.trans ht)
        exact (copy_toNat hwrap).symm ▸ Nat.succ_pos _
      · exact h.pos t space' ((hother t hts htc).symm.trans ht)
  · by_cases htc : t = c
    · exact h.allocated s os (hcopied os (htc ▸ ht))
    · exact h.allocated t os (hbinds t os htc ht)

/-- Writes to an object state leave the owners as they are. -/
theorem Invariant.modify (h : σ.Invariant) (n : Nat) (writes : ObjectState → ObjectState) :
    Invariant { σ with heap := σ.heap.modify n writes } := by
  refine h.mono (fun t space' ht => ⟨space', ht, rfl, fun _ hmem => hmem⟩) (Nat.le_refl _) fun os _ => ?_
  by_cases hos : os = n
  · subst hos
    change ((σ.heap.modify os writes).cells os).copyOnWriteOwner = _
    rw [Heap.modify_cells_self]
  · exact congrArg OwnedState.copyOnWriteOwner (Heap.modify_cells_of_ne hos _ _)

theorem Step.invariant (hstep : Step σ act σ') (h : σ.Invariant) : σ'.Invariant := by
  cases hstep with
  | new state =>
    refine h.mono (fun t space' ht => ⟨space', ht, rfl, fun _ hmem => hmem⟩) (Nat.le_succ _) fun os hos => ?_
    exact congrArg OwnedState.copyOnWriteOwner (Heap.new_cells_of_ne hos.ne _)
  | bindObject hs hos hok =>
    rename_i s os mo space space' heap'
    obtain ⟨howner, rfl, rfl⟩ := bindObject_eq_ok hok
    have hfree : ∀ t, ¬σ.Binds t os := fun t => h.epochs.free (congrArg BitVec.toNat howner)
    exact h.claim hs (σ.heap.cells os).state σ.heap.next (Nat.le_refl _) hos hfree
  | write writes hs hos hok =>
    rename_i s os n mo space space' heap'
    have hwriteable : (σ.set s space' heap').Invariant := by
      rcases getWriteable_eq_ok hok with ⟨-, rfl, rfl, rfl⟩ | ⟨rfl, rfl, rfl⟩
      · refine h.mono (fun t space' ht => ?_) (Nat.le_refl _) fun _ _ => rfl
        by_cases hts : t = s
        · subst hts
          obtain rfl := Option.some.inj (set_spaces_self.symm.trans ht)
          exact ⟨_, hs, rfl, fun _ hmem => hmem⟩
        · exact ⟨space', (set_spaces_of_ne hts).symm.trans ht, rfl, fun _ hmem => hmem⟩
      · have hfree : ∀ t, ¬σ.Binds t σ.heap.next := fun t ht => Nat.lt_irrefl _ (h.allocated t _ ht)
        exact h.claim hs (σ.heap.cells os).state (σ.heap.next + 1) (Nat.le_succ _) (Nat.lt_succ_self _) hfree
    exact hwriteable.modify n writes
  | unbindObject mo hs =>
    rename_i s space
    refine h.mono (fun t space' ht => ?_) (Nat.le_refl _) fun _ _ => rfl
    by_cases hts : t = s
    · subst hts
      obtain rfl := Option.some.inj (set_spaces_self.symm.trans ht)
      exact ⟨space, hs, rfl, fun _ hmem => (SortedList.mem_remove.mp hmem).1⟩
    · exact ⟨space', (set_spaces_of_ne hts).symm.trans ht, rfl, fun _ hmem => hmem⟩
  | copy hs hc hwrap => exact h.copy hs hc hwrap
  | destroy s =>
    refine h.mono (fun t space' ht => ?_) (Nat.le_refl _) fun _ _ => rfl
    by_cases hts : t = s
    · subst hts
      cases (Function.update_self t none σ.spaces).symm.trans ht
    · exact ⟨space', (Function.update_of_ne hts _ _).symm.trans ht, rfl, fun _ hmem => hmem⟩

theorem Reachable.invariant (h : Reachable σ) : σ.Invariant := by
  induction h with
  | initial cells =>
    have hspaces : ∀ s space, Function.update (fun _ => none) 0 (some ({} : AddressSpace)) s = some space → space = {} := by
      intro s space hs
      by_cases h0 : s = 0
      · rw [h0, Function.update_self] at hs
        exact (Option.some.inj hs).symm
      · rw [Function.update_of_ne h0] at hs
        cases hs
    have hbinds : ∀ s os, ¬Binds ⟨⟨0, cells⟩, Function.update (fun _ => none) 0 (some {})⟩ s os := by
      rintro s os ⟨space, hs, mo, hmem⟩
      rw [hspaces s space hs] at hmem
      cases hmem
    refine ⟨⟨fun s os hs => absurd hs (hbinds s os), fun s os hs => absurd hs (hbinds s os),
      fun s t os _ hs => absurd hs (hbinds s os)⟩, fun s space hs => ?_, fun s os hs => absurd hs (hbinds s os)⟩
    rw [hspaces s space hs]
    decide
  | step _ hstep ih => exact hstep.invariant ih

/-! ### Isolation -/

/-- The contents depend on the bindings of the address space and on the object states that it has bound. -/
theorem contents_congr (hspaces : (σ'.spaces t).map AddressSpace.objects = (σ.spaces t).map AddressSpace.objects)
    (hcells : ∀ os, σ.Binds t os → (σ'.heap.cells os).state = (σ.heap.cells os).state) :
    σ'.contents t mo = σ.contents t mo := by
  unfold contents
  cases hs : σ.spaces t with
  | none =>
    rw [hs, Option.map_none, Option.map_eq_none_iff] at hspaces
    rw [hspaces]
    rfl
  | some space =>
    rw [hs, Option.map_some, Option.map_eq_some_iff] at hspaces
    obtain ⟨space', hs', hobjects⟩ := hspaces
    have hfind : space'.findObject mo = space.findObject mo := by
      rw [AddressSpace.findObject, AddressSpace.findObject, hobjects]
    simp only [hs', hfind, Option.bind_eq_bind, Option.bind_some]
    cases hos : space.findObject mo with
    | none => rfl
    | some os =>
      obtain ⟨mo', hmem, -⟩ := findObject_eq_some.mp hos
      exact congrArg some (hcells os ⟨space, hs, mo', hmem⟩)

/-- A step changes the contents of one address space at most. -/
theorem Step.contents_of_ne (hstep : Step σ act σ') (h : σ.Invariant) (ht : act.changes ≠ some t) :
    σ'.contents t mo = σ.contents t mo := by
  cases hstep with
  | new state =>
    refine contents_congr rfl fun os hos => ?_
    exact congrArg OwnedState.state (Heap.new_cells_of_ne (h.allocated t os hos).ne _)
  | bindObject hs hos hok =>
    rename_i s os mo space space' heap'
    obtain ⟨howner, rfl, rfl⟩ := bindObject_eq_ok hok
    have hts : t ≠ s := fun hts => ht (congrArg some hts.symm)
    refine contents_congr (congrArg _ (set_spaces_of_ne hts)) fun p hp => ?_
    have hne : p ≠ os := by
      rintro rfl
      exact h.epochs.free (congrArg BitVec.toNat howner) hp
    exact congrArg OwnedState.state (Function.update_of_ne hne _ _)
  | write writes hs hos hok =>
    rename_i s os n mo space space' heap'
    have hts : t ≠ s := fun hts => ht (congrArg some hts.symm)
    refine contents_congr (congrArg _ (set_spaces_of_ne hts)) fun p hp => ?_
    obtain ⟨mo', hmem, -⟩ := findObject_eq_some.mp hos
    rcases getWriteable_eq_ok hok with ⟨howner, rfl, rfl, rfl⟩ | ⟨rfl, rfl, rfl⟩
    · -- the object state is the address space's own
      have hkey : σ.epochs.owner n = σ.epochs.epoch s := by
        rw [epoch_eq hs, howner]
        rfl
      have hne : p ≠ n := by
        rintro rfl
        exact h.epochs.exclusive ((binds_iff hs).mpr ⟨mo', hmem⟩) hkey hts hp
      exact congrArg OwnedState.state (Heap.modify_cells_of_ne hne _ _)
    · have hne : p ≠ σ.heap.next := (h.allocated t p hp).ne
      refine congrArg OwnedState.state ?_
      exact (Heap.modify_cells_of_ne hne _ _).trans (Heap.new_cells_of_ne hne _)
  | unbindObject mo hs =>
    rename_i s space
    have hts : t ≠ s := fun hts => ht (congrArg some hts.symm)
    exact contents_congr (congrArg _ (set_spaces_of_ne hts)) fun _ _ => rfl
  | copy hs hc hwrap =>
    rename_i s c space
    have htc : t ≠ c := fun htc => ht (congrArg some htc.symm)
    refine contents_congr ?_ fun _ _ => rfl
    by_cases hts : t = s
    · subst hts
      rw [set_spaces_of_ne htc, set_spaces_self, hs]
      rfl
    · rw [set_spaces_of_ne htc, set_spaces_of_ne hts]
  | destroy s =>
    have hts : t ≠ s := fun hts => ht (congrArg some hts.symm)
    exact contents_congr (congrArg _ (Function.update_of_ne hts _ _)) fun _ _ => rfl

/-- In every process that is reached, what an address space owns no other one has, and a write through one address space is
    seen through that one only. -/
theorem Reachable.isolated (h : Reachable σ) :
    (∀ s space mo os, σ.spaces s = some space → space.findObject mo = some os →
      (σ.heap.cells os).copyOnWriteOwner.toNat ≤ space.cowKey.toNat ∧
        ((σ.heap.cells os).copyOnWriteOwner = space.cowKey →
          ∀ t space' mo', t ≠ s → σ.spaces t = some space' → space'.findObject mo' ≠ some os)) ∧
      ∀ act σ', Step σ act σ' → ∀ t, act.changes ≠ some t → ∀ mo, σ'.contents t mo = σ.contents t mo := by
  refine ⟨fun s space mo os hs hos => ?_, fun act σ' hstep t ht mo => hstep.contents_of_ne h.invariant ht⟩
  obtain ⟨mo', hmem, -⟩ := findObject_eq_some.mp hos
  have hbinds : σ.Binds s os := (binds_iff hs).mpr ⟨mo', hmem⟩
  constructor
  · exact epoch_eq hs ▸ h.invariant.epochs.le s os hbinds
  · intro howner t space' mo' hts ht hos'
    obtain ⟨mo'', hmem', -⟩ := findObject_eq_some.mp hos'
    have hkey : σ.epochs.owner os = σ.epochs.epoch s := by
      rw [epoch_eq hs, ← howner]
      rfl
    exact h.invariant.epochs.exclusive hbinds hkey hts ((binds_iff ht).mpr ⟨mo'', hmem'⟩)

/-- Two address spaces share an object state of one byte, and the first one writes to it: it owns a new one then. -/
theorem isolated_written : ∃ σ : Process, (σ.Binds 0 1 ∧ σ.Binds 1 0) ∧
    (∀ t space mo, t ≠ 0 → σ.spaces t = some space → space.findObject mo ≠ some 1) ∧
    ∀ act σ', Step σ act σ' → ∀ t, act.changes ≠ some t → ∀ mo, σ'.contents t mo = σ.contents t mo := by
  let byte : ObjectState := .concrete 1 none
  let mo : MemoryObject := ⟨4096, 1⟩
  have hnew := Reachable.step (.initial fun _ => { state := byte }) (.new byte)
  have hbind := Reachable.step hnew (@Step.bindObject _ 0 0 mo _ _ _ rfl Nat.one_pos rfl)
  have hcopy := Reachable.step hbind (@Step.copy _ 0 1 _ rfl rfl (by decide))
  have hwrite := Reachable.step hcopy (@Step.write _ 0 0 1 mo _ _ _ id rfl rfl rfl)
  refine ⟨_, ⟨?_, ?_⟩, ((Reachable.isolated hwrite).1 0 _ mo 1 rfl rfl).2 rfl, (Reachable.isolated hwrite).2⟩
  · exact ⟨_, rfl, mo, List.mem_singleton_self _⟩
  · exact ⟨_, rfl, mo, List.mem_singleton_self _⟩

end Process

end CapTaint.Klee
