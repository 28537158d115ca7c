import CapTaint.Theorems.AccessNames
import CapTaint.DealWithSymbolicExpr

/-! # Full names

Every shared access of a run has a full name of its own, from which its variable and, when it is entered in a table, its
event can be read back. -/

namespace CapTaint
open Std

/-! ### The accesses of an event -/

/-- The locations that a call writes through its arguments. -/
def Inst.implicitWrites : Inst → List Location
  | .call (.strcpy dest length) => PSOListener.copiedBytes dest length
  | .call (.fillBuffer _ fields) => fields
  | _ => []

/-- A shared access: its location, whether it writes, and its full name. -/
structure NamedAccess where
  loc : Location
  isStore : Bool
  name : String

/-- The shared ones among written locations with their names. -/
def sharedWrites (names : List (Location × String)) : List NamedAccess :=
  (names.filter (·.1.isGlobal)).map fun entry => ⟨entry.1, true, entry.2⟩

def Event.sharedAccesses (event : Event) : List NamedAccess :=
  match event.inst.access with
  | some (loc, isStore) => if loc.isGlobal then [⟨loc, isStore, event.globalVarFullName⟩] else []
  | none => sharedWrites (event.inst.implicitWrites.zip event.implicitGlobalVar)

/-- The name is that of the access number `time`. -/
def NamedAccess.IsNumber (a : NamedAccess) (time : Nat) : Prop :=
  a.loc.isGlobal = true ∧ a.name = createGlobalVarFullName (createVarName a.loc) time a.isStore

theorem NamedAccess.IsNumber.same {a b : NamedAccess} {time time' : Nat} (ha : a.IsNumber time) (hb : b.IsNumber time')
    (hname : a.name = b.name) : a.isStore = b.isStore ∧ a.loc = b.loc ∧ time = time' := by
  rw [ha.2, hb.2] at hname
  exact createGlobalVarFullName_inj ha.1 hb.1 hname

/-- Accesses that are counted from `l` to `l'`: each has a number of that span, and no two of them the same name. -/
structure Counted (l l' : PSOListener) (accesses : List NamedAccess) : Prop where
  number : ∀ a ∈ accesses, ∃ time, a.IsNumber time ∧ l.times a.isStore a.loc.address < time ∧
    time ≤ l'.times a.isStore a.loc.address
  distinct : (accesses.map (·.name)).Nodup

section
variable {l l' l'' : PSOListener} {accesses accesses' : List NamedAccess}

theorem Counted.nil : Counted l l' [] where
  number _ h := by cases h
  distinct := .nil

/-- What is counted later has larger numbers. -/
theorem Counted.append (h : Counted l l' accesses) (h' : Counted l' l'' accesses')
    (hle : ∀ isStore address, l.times isStore address ≤ l'.times isStore address)
    (hle' : ∀ isStore address, l'.times isStore address ≤ l''.times isStore address) :
    Counted l l'' (accesses ++ accesses') := by
  refine ⟨fun a ha => ?_, ?_⟩
  · rcases List.mem_append.mp ha with ha | ha
    · obtain ⟨time, hnumber, hlt, htime⟩ := h.number a ha
      exact ⟨time, hnumber, hlt, htime.trans (hle' _ _)⟩
    · obtain ⟨time, hnumber, hlt, htime⟩ := h'.number a ha
      exact ⟨time, hnumber, (hle _ _).trans_lt hlt, htime⟩
  · rw [List.map_append, List.nodup_append]
    refine ⟨h.distinct, h'.distinct, fun name hname name' hname' heq => ?_⟩
    obtain ⟨a, ha, rfl⟩ := List.mem_map.mp hname
    obtain ⟨b, hb, rfl⟩ := List.mem_map.mp hname'
    obtain ⟨time, hnumber, -, htime⟩ := h.number a ha
    obtain ⟨time', hnumber', hlt, -⟩ := h'.number b hb
    obtain ⟨hstore, hloc, rfl⟩ := hnumber.same hnumber' heq
    rw [hstore, hloc] at htime
    omega

/-! ### What an instruction counts -/

theorem nameWrites_counted (l : PSOListener) (countLocal : Bool) (locs : List Location) :
    Counted l (l.nameWrites countLocal locs).2 (sharedWrites (l.nameWrites countLocal locs).1) := by
  induction locs generalizing l with
  | nil => exact .nil
  | cons loc rest ih =>
    unfold PSOListener.nameWrites
    cases hglobal : loc.isGlobal with
    | true =>
      simp only [if_true]
      have hhead : Counted l (l.getStoreTime loc.address).2
          [⟨loc, true, createGlobalVarFullName (createVarName loc) (l.getStoreTime loc.address).1 true⟩] := by
        refine ⟨fun a ha => ?_, List.nodup_singleton _⟩
        obtain rfl := List.mem_singleton.mp ha
        refine ⟨(l.getStoreTime loc.address).1, ⟨hglobal, rfl⟩, ?_, ?_⟩
        · simp [PSOListener.times, PSOListener.getStoreTime]
        · simp [PSOListener.times, PSOListener.getStoreTime]
      have happend := hhead.append (ih (l.getStoreTime loc.address).2) (fun isStore a => getStoreTime_times l _ isStore a)
        fun isStore a => nameWrites_times _ countLocal rest isStore a
      simpa [sharedWrites, hglobal] using happend
    | false =>
      simp only [Bool.false_eq_true, if_false]
      have hrest := Counted.nil.append (ih (if countLocal then (l.getStoreTime loc.address).2 else l))
        (fun isStore a => by
          cases countLocal with
          | true => exact getStoreTime_times l _ isStore a
          | false => exact Nat.le_refl _)
        fun isStore a => nameWrites_times _ countLocal rest isStore a
      simpa [sharedWrites, hglobal] using hrest

variable {threadId : Nat} {ki : KInstruction}

/-- A call that writes through its arguments: the names are those of the counted writes. -/
theorem item_implicit (l : PSOListener) (threadId : Nat) (ki : KInstruction) (haccess : ki.inst.access = none) :
    Counted l (l.executeInstruction threadId ki)
      (sharedWrites (ki.inst.implicitWrites.zip (l.item threadId ki).implicitGlobalVar)) := by
  obtain ⟨inst, ignored⟩ := ki
  have hzip : ∀ (l : PSOListener) (countLocal : Bool) (locs : List Location),
      locs.zip ((l.nameWrites countLocal locs).1.map (·.2)) = (l.nameWrites countLocal locs).1 := by
    intro l countLocal locs
    have hfst : (l.nameWrites countLocal locs).1.map (·.1) = locs := nameWrites_fst
    nth_rewrite 1 [← hfst]
    exact (List.zip_of_prod rfl rfl).symm
  cases inst with
  | call f =>
    cases f with
    | strcpy dest length =>
      have hcounted := nameWrites_counted (l.createEvent threadId (.call (.strcpy dest length))
        (if ignored then .ignore else .normal)).2 false (PSOListener.copiedBytes dest length)
      rw [← hzip] at hcounted
      exact ⟨hcounted.number, hcounted.distinct⟩
    | fillBuffer name fields =>
      have hcounted := nameWrites_counted (l.createEvent threadId (.call (.fillBuffer name fields))
        (if ignored then .ignore else .normal)).2 true fields
      rw [← hzip] at hcounted
      exact ⟨hcounted.number, hcounted.distinct⟩
    | _ => exact .nil
  | _ => exact .nil

theorem item_counted (l : PSOListener) (threadId : Nat) (ki : KInstruction) :
    Counted l (l.executeInstruction threadId ki) (l.item threadId ki).sharedAccesses := by
  unfold Event.sharedAccesses
  rw [item_inst]
  cases haccess : ki.inst.access with
  | none => exact item_implicit l threadId ki haccess
  | some access =>
    obtain ⟨loc, isStore⟩ := access
    dsimp only
    split
    next hshared =>
      obtain ⟨hnamed, hle⟩ := item_sharedAccess l threadId haccess hshared
      refine ⟨fun a ha => ?_, List.nodup_singleton _⟩
      obtain rfl := List.mem_singleton.mp ha
      exact ⟨_, ⟨hshared, hnamed.fullName⟩, Nat.lt_succ_self _, hle⟩
    next => exact .nil

/-- The accesses of a run are counted from the start. -/
theorem recorded_counted {l : PSOListener} (h : Recorded l) : Counted {} l (l.trace.path.flatMap Event.sharedAccesses) := by
  induction h with
  | start inits =>
    obtain ⟨set, hset⟩ := @foldl_insertGlobalVariableInitializer inits {}
    rw [hset]
    exact .nil
  | @create l newThreadId hl ih =>
    obtain ⟨points, hpoints⟩ := @createThread_eq l newThreadId
    rw [hpoints]
    exact ⟨ih.number, ih.distinct⟩
  | @execute l threadId ki hl ih =>
    have hpath : (l.executeInstruction threadId ki).trace.path = l.trace.path ++ [l.item threadId ki] := by
      rw [executeInstruction_trace]
    rw [hpath, List.flatMap_append, List.flatMap_singleton]
    refine ih.append (item_counted l threadId ki) (fun isStore address => ?_) fun isStore address =>
      executeInstruction_times isStore address
    cases isStore <;> simp [PSOListener.times]

end

/-! ### Reading a name back to its event -/

theorem takeWhile_append_cons {p : Char → Bool} {before after : List Char} {mark : Char} (h : ∀ c ∈ before, p c = true)
    (hmark : p mark = false) : (before ++ mark :: after).takeWhile p = before ∧
      (before ++ mark :: after).dropWhile p = mark :: after := by
  induction before with
  | nil => simp [hmark]
  | cons c rest ih =>
    obtain ⟨htake, hdrop⟩ := ih fun c' hc' => h c' (List.mem_cons_of_mem _ hc')
    simp [h c List.mem_cons_self, htake, hdrop]

/-- The first mark of a full name is the one between the variable and the number. -/
theorem fullName_split {loc : Location} (h : loc.isGlobal = true) (time : Nat) (isStore : Bool) :
    beforeMark (createGlobalVarFullName (createVarName loc) time isStore) = createVarName loc ∧
      (createGlobalVarFullName (createVarName loc) time isStore).toList.dropWhile (fun c => c ≠ 'S' ∧ c ≠ 'L') =
        (if isStore then 'S' else 'L') :: (toString time).toList := by
  have hbefore : ∀ c ∈ (createVarName loc).toList, decide (c ≠ 'S' ∧ c ≠ 'L') = true := by
    intro c hc
    refine decide_eq_true ⟨?_, ?_⟩
    · rintro rfl
      exact notMem_createVarName h (by decide) (by decide) (by decide) hc
    · rintro rfl
      exact notMem_createVarName h (by decide) (by decide) (by decide) hc
  have hmark : decide ((if isStore then 'S' else 'L') ≠ 'S' ∧ (if isStore then 'S' else 'L') ≠ 'L') = false := by
    cases isStore <;> rfl
  rw [beforeMark, createGlobalVarFullName_toList]
  obtain ⟨htake, hdrop⟩ := takeWhile_append_cons hbefore hmark
  exact ⟨by rw [htake, String.ofList_toList], hdrop⟩

/-- An entry of the write set: a shared store, or a call that writes through its arguments and has no full name. -/
def IsWrite (path : List Event) (var : String) (event : Event) : Prop :=
  event ∈ path ∧ ((∃ loc, event.inst = .store loc false ∧ loc.isGlobal = true ∧ var = createVarName loc) ∨
    event.inst.access = none ∧ event.globalVarFullName = "")

theorem recorded_writes {l : PSOListener} (h : Recorded l) {var : String} {event : Event}
    (hevent : event ∈ l.trace.writeSet.getD var []) : IsWrite l.trace.path var event := by
  have htable : EntryTable l.trace.writeSet (IsWrite l.trace.path) fun _ _ => True := by
    clear hevent
    induction h with
    | start inits =>
      obtain ⟨set, hset⟩ := @foldl_insertGlobalVariableInitializer inits {}
      rw [hset]
      exact .empty
    | @create l newThreadId hl ih =>
      obtain ⟨points, hpoints⟩ := @createThread_eq l newThreadId
      rw [hpoints]
      exact ih
    | @execute l threadId ki hl ih =>
      obtain ⟨inst, ignored⟩ := ki
      have hpath : (l.executeInstruction threadId ⟨inst, ignored⟩).trace.path =
          l.trace.path ++ [l.item threadId ⟨inst, ignored⟩] := by
        rw [executeInstruction_trace]
      rw [hpath, executeInstruction_writeSet]
      have hitem : l.item threadId ⟨inst, ignored⟩ ∈ l.trace.path ++ [l.item threadId ⟨inst, ignored⟩] :=
        List.mem_append_right _ (List.mem_singleton_self _)
      have hmono : ∀ {var : String} {event : Event}, IsWrite l.trace.path var event →
          IsWrite (l.trace.path ++ [l.item threadId ⟨inst, ignored⟩]) var event :=
        fun hx => ⟨List.mem_append_left _ hx.1, hx.2⟩
      split
      next loc isPointerTy hinst =>
        split
        next hshared =>
          simp only [Bool.and_eq_true, Bool.not_eq_true'] at hshared
          refine ih.push hmono ⟨hitem, .inl ⟨loc, ?_, hshared.2, rfl⟩⟩ fun _ => trivial
          rw [item_inst]
          exact hinst.trans (by rw [hshared.1])
        next => exact ih.mono hmono
      next dest length hinst =>
        obtain rfl : inst = .call (.strcpy dest length) := hinst
        exact ih.pushGlobals hmono (fun loc _ _ => ⟨hitem, .inr ⟨rfl, rfl⟩⟩) (fun _ => trivial) trivial
      next name fields hinst =>
        obtain rfl : inst = .call (.fillBuffer name fields) := hinst
        exact ih.pushGlobals hmono (fun loc _ _ => ⟨hitem, .inr ⟨rfl, rfl⟩⟩) (fun _ => trivial) trivial
      next => exact ih.mono hmono
  exact htable.entry hevent

/-- The first event of a list with the name of one of them is that one, when the others have other names. -/
theorem find?_fullName {events : List Event} {event : Event} (hmem : event ∈ events)
    (hunique : ∀ other ∈ events, other.globalVarFullName = event.globalVarFullName → other = event) :
    events.find? (fun other => other.globalVarFullName = event.globalVarFullName) = some event := by
  cases hfind : events.find? (fun other => other.globalVarFullName = event.globalVarFullName) with
  | none => exact absurd (decide_eq_true rfl) (List.find?_eq_none.mp hfind event hmem)
  | some other =>
    have hname := List.find?_some hfind
    rw [hunique other (List.mem_of_find?_eq_some hfind) (of_decide_eq_true hname)]

theorem getEvent_of_table {trace : Trace} {event : Event} {loc : Location} {isStore : Bool} {time : Nat}
    (haccess : SharedAccess event loc isStore time)
    (hmem : event ∈ (if isStore then trace.writeSet else trace.readSet).getD (createVarName loc) [])
    (hunique : ∀ other ∈ (if isStore then trace.writeSet else trace.readSet).getD (createVarName loc) [],
      other.globalVarFullName = event.globalVarFullName → other = event) :
    trace.getEvent event.globalVarFullName = some event := by
  obtain ⟨hvar, hdrop⟩ := fullName_split haccess.shared time isStore
  rw [← haccess.fullName] at hvar hdrop
  rw [Trace.getEvent, hdrop]
  dsimp only
  rw [hvar]
  have hmark : (if (if isStore then 'S' else 'L') = 'S' then trace.writeSet else trace.readSet) =
      if isStore then trace.writeSet else trace.readSet := by
    cases isStore <;> rfl
  rw [hmark]
  cases hget : (if isStore then trace.writeSet else trace.readSet)[createVarName loc]? with
  | none =>
    rw [TreeMap.getD_eq_getD_getElem?, hget] at hmem
    cases hmem
  | some events =>
    rw [getD_of_getElem? hget] at hmem hunique
    exact find?_fullName hmem hunique

/-- The full names of a run tell its shared accesses apart, and lead back to the variable and to the event. -/
structure FullNamesIdentify (trace : Trace) : Prop where
  distinct : ((trace.path.flatMap Event.sharedAccesses).map (·.name)).Nodup
  varName : ∀ access ∈ trace.path.flatMap Event.sharedAccesses, beforeMark access.name = createVarName access.loc
  load : ∀ var, ∀ event ∈ trace.readSet.getD var [], trace.getEvent event.globalVarFullName = some event
  store : ∀ var, ∀ event ∈ trace.writeSet.getD var [], ∀ loc isPointerTy, event.inst = .store loc isPointerTy →
    trace.getEvent event.globalVarFullName = some event

theorem fullNames_identify (inits : List String) (steps : List (Nat × KInstruction × Option Nat)) :
    FullNamesIdentify (PSOListener.record inits steps).trace := by
  have h := record_recorded inits steps
  have hnames := recorded_accessNames h
  have hcounted := recorded_counted h
  refine ⟨hcounted.distinct, fun access haccess => ?_, fun var event hevent => ?_,
    fun var event hevent loc isPointerTy hinst => ?_⟩
  · obtain ⟨time, hnumber, -, -⟩ := hcounted.number access haccess
    rw [hnumber.2]
    exact (fullName_split hnumber.1 time access.isStore).1
  · have hload : ∀ other ∈ (PSOListener.record inits steps).trace.readSet.getD var [],
        other ∈ (PSOListener.record inits steps).trace.path ∧
          ∃ loc time, var = createVarName loc ∧ SharedAccess other loc false time := by
      intro other hother
      obtain ⟨hpath, loc, hinst, hshared, hvar⟩ := recorded_reads h hother
      obtain ⟨time, -, haccess⟩ := hnames.named other hpath loc false (by rw [hinst]; rfl) hshared
      exact ⟨hpath, loc, time, hvar, haccess⟩
    obtain ⟨hpath, loc, time, rfl, haccess⟩ := hload event hevent
    refine getEvent_of_table haccess hevent fun other hother hname => ?_
    obtain ⟨hpath', loc', time', -, haccess'⟩ := hload other hother
    exact hnames.unique other hpath' event hpath haccess' haccess hname
  · obtain ⟨hpath, hwrite⟩ := recorded_writes h hevent
    rcases hwrite with ⟨loc', hinst', hshared, rfl⟩ | ⟨hnone, -⟩
    · obtain ⟨time, -, haccess⟩ := hnames.named event hpath loc' true (by rw [hinst']; rfl) hshared
      refine getEvent_of_table haccess hevent fun other hother hname => ?_
      obtain ⟨hpath', hother'⟩ := recorded_writes h hother
      rcases hother' with ⟨loc'', hinst'', hshared', -⟩ | ⟨-, hempty⟩
      · obtain ⟨time', -, haccess'⟩ := hnames.named other hpath' loc'' true (by rw [hinst'']; rfl) hshared'
        exact hnames.unique other hpath' event hpath haccess' haccess hname
      · -- a call of the write set has the empty full name, an access has a mark in it
        have hlist := congrArg String.toList (hname.symm.trans hempty)
        rw [haccess.fullName, createGlobalVarFullName_toList] at hlist
        simp at hlist
    · rw [hinst] at hnone
      cases hnone

end CapTaint
