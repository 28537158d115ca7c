import CapTaint.ExternalWrites
import CapTaint.Theorems.Accesses
import CapTaint.Theorems.AccessNames
import CapTaint.Encode.Taint

/-! # The variables of an external call

What the `strcpy` branch records is right for a destination at the start of its object. The variables of a call are
recorded in the order of their addresses, so the first name that starts with a variable is a name of this variable. -/

namespace CapTaint
open Std

namespace PSOListener

/-! ### The copied string -/

/-- The index of the first zero byte at or after the destination. -/
def stringLength (object : FilledObject) (destaddress : Nat) : Nat :=
  (object.contents.drop (destaddress - object.address)).findIdx fun byte => byte == 0

/-- The bytes from the destination up to and including the first zero byte. -/
def copiedString (object : FilledObject) (destaddress : Nat) : List Location :=
  copiedBytes (object.location destaddress) (stringLength object destaddress + 1)

/-- The loop records neighbouring bytes. -/
theorem strcpyLoop_eq (object : FilledObject) (destaddress rounds i : Nat) :
    strcpyLoop object destaddress rounds i =
      (List.range (strcpyLoop object destaddress rounds i).length).map fun j => (i + j, destaddress + (i + j)) := by
  induction rounds generalizing i with
  | zero => rfl
  | succ rounds ih =>
    rw [strcpyLoop]
    split
    · rfl
    · rw [List.length_cons, List.range_succ_eq_map, List.map_cons, List.map_map]
      conv_lhs => rw [ih (i + 1)]
      refine congrArg _ (List.map_congr_left fun j _ => ?_)
      simp only [Function.comp_apply, Nat.succ_eq_add_one]
      rw [show i + 1 + j = i + (j + 1) by omega]

/-- How often the loop goes round: to its first zero byte, or to the end of the rounds. -/
theorem strcpyLoop_length_iff (object : FilledObject) (destaddress rounds i m : Nat) :
    (strcpyLoop object destaddress rounds i).length = m + 1 ↔ m < rounds ∧
      (∀ j < m, object.contents.getD (i + j) 0 ≠ 0) ∧ (object.contents.getD (i + m) 0 = 0 ∨ m + 1 = rounds) := by
  induction rounds generalizing i m with
  | zero => simp [strcpyLoop]
  | succ rounds ih =>
    rw [strcpyLoop]
    by_cases hzero : object.contents.getD i 0 = 0
    · rw [if_pos hzero, List.length_singleton]
      constructor
      · intro hm
        obtain rfl : m = 0 := by omega
        exact ⟨Nat.succ_pos _, fun j hj => absurd hj (Nat.not_lt_zero j), .inl hzero⟩
      · rintro ⟨-, hbefore, -⟩
        by_contra hm
        exact hbefore 0 (by omega) hzero
    · rw [if_neg hzero, List.length_cons]
      cases m with
      | zero =>
        rw [Nat.add_right_cancel_iff, List.length_eq_zero_iff]
        constructor
        · intro hnil
          refine ⟨Nat.succ_pos _, fun j hj => absurd hj (Nat.not_lt_zero j), .inr ?_⟩
          cases rounds with
          | zero => rfl
          | succ rounds =>
            rw [strcpyLoop] at hnil
            split at hnil <;> cases hnil
        · rintro ⟨-, -, hend⟩
          obtain rfl : rounds = 0 := by
            have := hend.resolve_left hzero
            omega
          rfl
      | succ m =>
        rw [Nat.add_right_cancel_iff, ih]
        have hshift : ∀ j, i + 1 + j = i + (j + 1) := fun j => by omega
        refine and_congr (by omega) (and_congr ⟨fun h j hj => ?_, fun h j hj => ?_⟩ ?_)
        · cases j with
          | zero => exact hzero
          | succ j => exact hshift j ▸ h j (by omega)
        · exact hshift j ▸ h (j + 1) (by omega)
        · rw [hshift m]
          exact or_congr_right (by omega)

theorem strcpyBytes_writes (object : FilledObject) (destaddress : Nat) :
    writtenLocations (.strcpy object destaddress) =
      copiedBytes (object.location destaddress) (strcpyBytes object destaddress).length := by
  rw [writtenLocations, copiedBytes]
  conv_lhs => rw [strcpyBytes, strcpyLoop_eq, ← strcpyBytes, List.map_map]
  refine List.map_congr_left fun j _ => ?_
  simp [FilledObject.location]

theorem copiedBytes_inj {dest : Location} {m n : Nat} : copiedBytes dest m = copiedBytes dest n ↔ m = n := by
  refine ⟨fun h => ?_, fun h => by rw [h]⟩
  simpa [copiedBytes] using congrArg List.length h

/-- The reads of the loop are inside of the object when the destination is. -/
theorem strcpyBytes_read {object : FilledObject} {destaddress : Nat} (hdest : object.address ≤ destaddress) :
    ∀ entry ∈ strcpyBytes object destaddress, entry.1 < object.size := by
  have hloop : ∀ rounds i, ∀ entry ∈ strcpyLoop object destaddress rounds i, entry.1 < i + rounds := by
    intro rounds
    induction rounds with
    | zero => exact fun i entry hentry => absurd hentry List.not_mem_nil
    | succ rounds ih =>
      intro i entry hentry
      rw [strcpyLoop] at hentry
      split at hentry
      · obtain rfl := List.mem_singleton.mp hentry
        exact Nat.lt_add_of_pos_right (Nat.succ_pos rounds)
      · rcases List.mem_cons.mp hentry with rfl | hentry
        · exact Nat.lt_add_of_pos_right (Nat.succ_pos rounds)
        · have := ih (i + 1) entry hentry
          omega
  intro entry hentry
  have := hloop _ _ entry hentry
  omega

/-- The branch records the copied string, with reads inside of the object, exactly when the string ends where a string at
    the start of the object would end: the bytes there are not zero up to the string's length, and the next one is, or
    the string ends with the object. -/
theorem strcpy_exact_iff {object : FilledObject} {destaddress : Nat} (hdest : object.address ≤ destaddress)
    (hzero : 0 ∈ object.contents.drop (destaddress - object.address)) :
    (writtenLocations (.strcpy object destaddress) = copiedString object destaddress ∧
      ∀ entry ∈ strcpyBytes object destaddress, entry.1 < object.size) ↔
    (∀ j < stringLength object destaddress, object.contents.getD j 0 ≠ 0) ∧
      (object.contents.getD (stringLength object destaddress) 0 = 0 ∨
        destaddress + stringLength object destaddress + 1 = object.address + object.size) := by
  have hlt : stringLength object destaddress < object.size - (destaddress - object.address) := by
    have hfind : stringLength object destaddress < (object.contents.drop (destaddress - object.address)).length :=
      List.findIdx_lt_length_of_exists ⟨0, hzero, by simp⟩
    rwa [List.length_drop] at hfind
  rw [and_iff_left (strcpyBytes_read hdest), strcpyBytes_writes, copiedString, copiedBytes_inj, strcpyBytes,
    strcpyLoop_length_iff]
  simp only [Nat.zero_add]
  rw [and_iff_right (by omega)]
  exact and_congr_right fun _ => or_congr_right (by omega)

/-- A string behind a byte that is not zero, at the end of its object. -/
theorem strcpy_exact_end :
    (writtenLocations (.strcpy ⟨1, 1000, true, [97, 98, 0]⟩ 1001) = copiedString ⟨1, 1000, true, [97, 98, 0]⟩ 1001 ∧
      ∀ entry ∈ strcpyBytes ⟨1, 1000, true, [97, 98, 0]⟩ 1001, entry.1 < 3) ↔
    (∀ j < stringLength ⟨1, 1000, true, [97, 98, 0]⟩ 1001, ([97, 98, 0] : List UInt8).getD j 0 ≠ 0) ∧
      (([97, 98, 0] : List UInt8).getD (stringLength ⟨1, 1000, true, [97, 98, 0]⟩ 1001) 0 = 0 ∨
        1001 + stringLength ⟨1, 1000, true, [97, 98, 0]⟩ 1001 + 1 = 1000 + 3) :=
  @strcpy_exact_iff ⟨1, 1000, true, [97, 98, 0]⟩ 1001 (by decide) (by decide)

/-- Behind a zero byte only the first byte of a string is recorded. -/
theorem not_strcpy_exact : ¬(writtenLocations (.strcpy ⟨1, 1000, true, [0, 97, 98, 0]⟩ 1001) =
      copiedString ⟨1, 1000, true, [0, 97, 98, 0]⟩ 1001 ∧
    ∀ entry ∈ strcpyBytes ⟨1, 1000, true, [0, 97, 98, 0]⟩ 1001, entry.1 < 4) := by
  decide

/-! ### The order of the addresses -/

/-- Addresses that an analysis meets on its way from one address to another. -/
structure Ascending (start : Nat) (result : List Nat × Nat) : Prop where
  sorted : result.1.Pairwise (· ≤ ·)
  bounds : ∀ address ∈ result.1, start ≤ address ∧ address ≤ result.2
  le : start ≤ result.2

theorem Ascending.nil (start : Nat) : Ascending start ([], start) := ⟨.nil, by simp, le_rfl⟩

theorem Ascending.append {start : Nat} {first rest : List Nat × Nat} (h : Ascending start first)
    (h' : Ascending first.2 rest) : Ascending start (first.1 ++ rest.1, rest.2) where
  sorted := List.pairwise_append.mpr ⟨h.sorted, h'.sorted, fun a ha b hb => (h.bounds a ha).2.trans (h'.bounds b hb).1⟩
  bounds address haddress := by
    rcases List.mem_append.mp haddress with hmem | hmem
    · exact ⟨(h.bounds address hmem).1, (h.bounds address hmem).2.trans h'.le⟩
    · exact ⟨h.le.trans (h'.bounds address hmem).1, (h'.bounds address hmem).2⟩
  le := h.le.trans h'.le

theorem le_alignTo (address : Nat) {alignment : Nat} (hpos : 0 < alignment) : address ≤ alignTo address alignment := by
  unfold alignTo
  split
  · exact (Nat.lt_mul_of_div_lt (Nat.lt_succ_self _) hpos).le
  · exact le_rfl

theorem repeatInput_ascending {analyze : Nat → List Nat × Nat} (h : ∀ address, Ascending address (analyze address))
    (n address : Nat) : Ascending address (repeatInput analyze n address) := by
  induction n generalizing address with
  | zero => exact .nil address
  | succ n ih => exact (h address).append (ih (analyze address).2)

mutual

theorem analyzeInputValue_ascending : ∀ (type : InputType) (address : Nat), Ascending address (analyzeInputValue type address)
  | .primitive sizeInBits alignment positive, address => by
    have hle := le_alignTo address positive
    refine ⟨List.pairwise_singleton _ _, fun a ha => ?_, Nat.le_add_right_of_le hle⟩
    obtain rfl := List.mem_singleton.mp ha
    exact ⟨hle, Nat.le_add_right _ _⟩
  | .struct elements, address => by
    rw [analyzeInputValue]
    exact analyzeElements_ascending elements address
  | .array numElements elementType, address | .vector numElements elementType, address => by
    rw [analyzeInputValue]
    exact repeatInput_ascending (fun address => analyzeInputValue_ascending elementType address) numElements address

theorem analyzeElements_ascending : ∀ (elements : List InputType) (address : Nat),
    Ascending address (analyzeElements elements address)
  | [], address => by
    rw [analyzeElements]
    exact .nil address
  | element :: rest, address => by
    rw [analyzeElements]
    exact (analyzeInputValue_ascending element address).append
      (analyzeElements_ascending rest (analyzeInputValue element address).2)

end

/-- The locations of a call lie in one object, in the order of their addresses. -/
theorem writtenLocations_sorted (call : ExternalCall) : (writtenLocations call).Pairwise fun a b =>
    a.address ≤ b.address ∧ a.memoryId = b.memoryId ∧ a.isGlobal = b.isGlobal := by
  have hfields : ∀ (object : FilledObject) (type : InputType) (start : Nat),
      ((analyzeInputValue type start).1.map object.location).Pairwise fun a b =>
        a.address ≤ b.address ∧ a.memoryId = b.memoryId ∧ a.isGlobal = b.isGlobal := fun object type start =>
    List.pairwise_map.mpr ((analyzeInputValue_ascending type start).sorted.imp fun hle => ⟨hle, rfl, rfl⟩)
  cases call with
  | strcpy object destaddress =>
    rw [strcpyBytes_writes, copiedBytes]
    refine List.pairwise_map.mpr (List.pairwise_lt_range.imp fun hlt => ⟨?_, rfl, rfl⟩)
    exact Nat.add_le_add_left hlt.le _
  | getrlimit object start type => exact hfields object type start
  | lstat object start type => exact hfields object type start
  | time object start type => exact hfields object type start

/-! ### The first name -/

/-- What a written location is called: by its variable alone when it is local, with the number of the store else. -/
def IsWriteName (loc : Location) (name : String) : Prop :=
  name = createVarName loc ∨ ∃ storeTime, name = createGlobalVarFullName (createVarName loc) storeTime true

theorem nameWrites_isWriteName {l : PSOListener} {countLocal : Bool} {locs : List Location} :
    ∀ entry ∈ (l.nameWrites countLocal locs).1, IsWriteName entry.1 entry.2 := by
  induction locs generalizing l with
  | nil => exact fun entry hentry => absurd hentry List.not_mem_nil
  | cons loc rest ih =>
    intro entry hentry
    unfold nameWrites at hentry
    dsimp only at hentry
    split at hentry
    · rcases List.mem_cons.mp hentry with rfl | hentry
      · exact .inr ⟨_, rfl⟩
      · exact ih entry hentry
    · rcases List.mem_cons.mp hentry with rfl | hentry
      · exact .inl rfl
      · exact ih entry hentry

theorem IsWriteName.prefix_self {loc : Location} {name : String} (h : IsWriteName loc name) :
    (createVarName loc).toList <+: name.toList := by
  rcases h with rfl | ⟨storeTime, rfl⟩
  · exact List.prefix_refl _
  · rw [createGlobalVarFullName_toList]
    exact List.prefix_append _ _

theorem createVarName_toList_eq (loc : Location) : (createVarName loc).toList =
    ((if loc.isGlobal then "G" else "L").toList ++ (toString loc.memoryId).toList ++ ['_']) ++
      (toString loc.address).toList := by
  simp [createVarName]

/-- In one object, a name that starts with a variable is that of an address which is not below it. -/
theorem IsWriteName.address_le {loc loc' : Location} {name : String} (h : IsWriteName loc' name)
    (hid : loc.memoryId = loc'.memoryId) (hglobal : loc.isGlobal = loc'.isGlobal)
    (hstarts : (createVarName loc).toList <+: name.toList) : loc.address ≤ loc'.address := by
  refine Names.le_of_toString_prefix ?_
  rcases h with rfl | ⟨storeTime, rfl⟩
  · rw [createVarName_toList_eq, createVarName_toList_eq, hid, hglobal] at hstarts
    exact (List.prefix_append_right_inj _).mp hstarts
  · rw [createGlobalVarFullName_toList, createVarName_toList_eq, createVarName_toList_eq, hid, hglobal,
      List.append_assoc _ (toString loc'.address).toList] at hstarts
    refine Names.prefix_of_prefix_append (fun c hc => ?_) ((List.prefix_append_right_inj _).mp hstarts)
    obtain rfl : 'S' = c := by simpa using hc
    exact Names.notMem_toString (by decide)

/-- Among names in the order of their addresses, the first one that starts with a variable is a name of this variable. -/
theorem exists_find_name {entries : List (Location × String)} {loc : Location}
    (hsorted : (entries.map (·.1)).Pairwise fun a b =>
      a.address ≤ b.address ∧ a.memoryId = b.memoryId ∧ a.isGlobal = b.isGlobal)
    (hnames : ∀ entry ∈ entries, IsWriteName entry.1 entry.2) (hloc : loc ∈ entries.map (·.1)) :
    ∃ name, (entries.map (·.2)).find? (fun name => (createVarName loc).toList.isPrefixOf name.toList) = some name ∧
      (loc, name) ∈ entries := by
  induction entries with
  | nil => exact absurd hloc List.not_mem_nil
  | cons entry entries ih =>
    obtain ⟨first, name⟩ := entry
    obtain ⟨hfirst, hrest⟩ := List.pairwise_cons.mp hsorted
    have hname : IsWriteName first name := hnames (first, name) List.mem_cons_self
    rw [List.map_cons, List.find?_cons]
    by_cases hstarts : (createVarName loc).toList.isPrefixOf name.toList
    · -- the address of the variable is neither below nor above that of this name
      have hsame : loc = first := by
        rcases List.mem_cons.mp hloc with rfl | hmem
        · rfl
        · obtain ⟨hle, hid, hglobal⟩ := hfirst loc hmem
          have hge := hname.address_le hid.symm hglobal.symm (List.isPrefixOf_iff_prefix.mp hstarts)
          obtain ⟨memoryId, address, isGlobal⟩ := loc
          obtain ⟨memoryId', address', isGlobal'⟩ := first
          simp only at hle hid hglobal hge
          rw [hid, hglobal, hge.antisymm hle]
      refine ⟨name, by simp [hstarts], ?_⟩
      rw [hsame]
      exact List.mem_cons_self
    · have hmem : loc ∈ entries.map (·.1) := by
        refine (List.mem_cons.mp hloc).resolve_left ?_
        rintro rfl
        exact hstarts (List.isPrefixOf_iff_prefix.mpr hname.prefix_self)
      obtain ⟨found, hfound, hentry⟩ := ih hrest (fun entry hentry => hnames entry (List.mem_cons_of_mem _ hentry)) hmem
      exact ⟨found, by simp [hstarts, hfound], List.mem_cons_of_mem _ hentry⟩

/-! ### The equations of a read -/

/-- The event of a call and what the listener writes into it after the call. -/
def externalEvent (l : PSOListener) (threadId : Nat) (call : ExternalCall) : Event :=
  let (item, l) := l.createEvent threadId (.call (externalFunction call)) .normal
  (l.handleExternalFunction item call).1

theorem externalEvent_names (l : PSOListener) (threadId : Nat) (call : ExternalCall) :
    ∃ entries : List (Location × String), entries.map (·.1) = writtenLocations call ∧
      (∀ entry ∈ entries, IsWriteName entry.1 entry.2) ∧
      (l.externalEvent threadId call).implicitGlobalVar = entries.map (·.2) ∧
      (l.externalEvent threadId call).globalVarFullName = "" := by
  cases call <;> exact ⟨_, nameWrites_fst, nameWrites_isWriteName, rfl, rfl⟩

/-- A read of a variable that a call has written is equated with a name of exactly this variable, both the value and the
    taint. -/
theorem implicitWrite_matched (l : PSOListener) (threadId : Nat) (call : ExternalCall) (read : Event) {var : String}
    (hvar : var ∈ (writtenLocations call).map createVarName) :
    ∃ (i : Nat) (loc : Location) (name : String), (writtenLocations call)[i]? = some loc ∧ createVarName loc = var ∧ IsWriteName loc name ∧
      (l.externalEvent threadId call).implicitGlobalVar[i]? = some name ∧
      Encode.readFromWriteFormula read (l.externalEvent threadId call) var = .same read.globalVarFullName name ∧
      Encode.taintReadFromWriteFormula read (l.externalEvent threadId call) var =
        (Encode.tag read.globalVarFullName).iff (Encode.tag name) := by
  obtain ⟨loc, hloc, rfl⟩ := List.mem_map.mp hvar
  obtain ⟨entries, hlocs, hnames, himplicit, hfull⟩ := externalEvent_names l threadId call
  obtain ⟨name, hfind, hentry⟩ := exists_find_name (by rw [hlocs]; exact writtenLocations_sorted call) hnames
    (by rw [hlocs]; exact hloc)
  obtain ⟨i, hi⟩ := List.mem_iff_getElem?.mp hentry
  have hwrite : Encode.writeVarName (l.externalEvent threadId call) (createVarName loc) = name := by
    have hne : entries.map (·.2) ≠ [] := by
      rintro hnil
      rw [hnil] at hfind
      cases hfind
    rw [Encode.writeVarName, himplicit, hfull, if_pos ⟨rfl, hne⟩, hfind]
    rfl
  refine ⟨i, loc, name, ?_, rfl, hnames _ hentry, ?_, ?_, ?_⟩
  · rw [← hlocs, List.getElem?_map, hi]
    rfl
  · rw [himplicit, List.getElem?_map, hi]
    rfl
  · rw [Encode.readFromWriteFormula, hwrite]
  · rw [Encode.taintReadFromWriteFormula, hwrite]

/-- A string of ten bytes, which ends at a byte whose name starts with that of the first one. -/
def longString : ExternalCall := .strcpy ⟨1, 1, true, [9, 9, 9, 9, 9, 9, 9, 9, 9, 0]⟩ 1

theorem implicitWrite_matched_longString :
    ∃ (i : Nat) (loc : Location) (name : String), (writtenLocations longString)[i]? = some loc ∧
      createVarName loc = "G1_1" ∧ IsWriteName loc name ∧
      (({} : PSOListener).externalEvent 1 longString).implicitGlobalVar[i]? = some name ∧
      Encode.readFromWriteFormula default (({} : PSOListener).externalEvent 1 longString) "G1_1" =
        .same (default : Event).globalVarFullName name ∧
      Encode.taintReadFromWriteFormula default (({} : PSOListener).externalEvent 1 longString) "G1_1" =
        (Encode.tag (default : Event).globalVarFullName).iff (Encode.tag name) :=
  implicitWrite_matched {} 1 longString default (by decide)

end PSOListener
end CapTaint
