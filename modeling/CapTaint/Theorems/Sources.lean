import CapTaint.Encode.Taint
import CapTaint.Theorems.AccessNames
import CapTaint.Lib.OptionLoop

/-! # Sources of taint

The formulas of `Encode::PTS`, which finds the trace filtered, force the tag of a source exactly when the source is named
after a store of a number. A location that has not been stored to is named after its initial value, whose tag is false, or
free when the filter has dropped the initializer. -/

namespace CapTaint
open Std Smt Encode OptionLoop

/-- The tag of a source: that of the store, or of the initial value, that it is named after. -/
def sourceTag (event : Event) : String :=
  if event.globalVarFullName = event.varName ++ "_Init_tag" then event.globalVarFullName
  else event.globalVarFullName ++ "_tag"

/-- The trace as `Encode::PTS` finds it: `buildifAndassert` has filtered it by the expressions of its branches. -/
def PSOListener.filteredTrace (l : PSOListener) (symbolic : SymbolicExprs) : Trace :=
  (DealWithSymbolicExpr.filterUseless l.trace symbolic).trace

section
variable (l : PSOListener) (symbolic : SymbolicExprs)

end

/-- Every assignment that the formulas accept makes the tag of the source true. -/
def SourceTainted (V : Type) (trace : Trace) (stored : Event → StoredValue) (potential : TreeSet String) (event : Event) :
    Prop :=
  ∀ fs, buildTaintFormula trace stored potential = some fs →
    ∀ σ : Assignment V, Satisfies σ fs → σ.bool (sourceTag event) = true

/-- The source is named after a store of a number. -/
def NumberStored (trace : Trace) (stored : Event → StoredValue) (event : Event) : Prop :=
  ∃ write ∈ trace.path, TaintListener.storesNumber stored write = true ∧
    write.globalVarFullName = event.globalVarFullName

/-! ### Symbols and equations -/

section
variable {name : SymbolName} {width : Nat}

theorem symbol_cases (name : SymbolName) (width : Nat) (hwidth : width ≠ 1) :
    TaintListener.manualMakeTaintSymbolic name width = .read name ∨
      ∃ rest, TaintListener.manualMakeTaintSymbolic name width = .concat name rest := by
  unfold TaintListener.manualMakeTaintSymbolic
  rw [if_neg hwidth]
  cases List.range (width / 8 - 1) using List.reverseRecOn with
  | nil => exact .inl rfl
  | append_singleton l i =>
    rw [List.foldl_append]
    exact .inr ⟨_, rfl⟩

theorem getFullName_symbol {other : String}
    (h : getFullName (TaintListener.manualMakeTaintSymbolic name width) = some other) : other = name.name := by
  by_cases hwidth : width = 1
  · subst hwidth
    cases h
  · rcases symbol_cases name width hwidth with heq | ⟨rest, heq⟩
    · rw [heq] at h
      exact (Option.some.inj h).symm
    · rw [heq] at h
      exact (Option.some.inj h).symm

end

/-- The names whose tags make up the tag of a value. -/
def tagNames : Expr → List String
  | .read root | .concat root _ => [root.name]
  | .constant _ => []
  | .unary _ kid => tagNames kid
  | .binary _ left right => tagNames left ++ tagNames right
  | .select _ _ _ => []

theorem holds_makeOrTaint {V : Type} {σ : Assignment V} {value : Expr} {f : Formula} (h : makeOrTaint value = some f) :
    f.Holds σ ↔ ∃ name ∈ tagNames value, (tag name).Holds σ := by
  induction value generalizing f with
  | constant v =>
    cases h
    simp [tagNames]
  | read root =>
    cases h
    simp [tagNames]
  | concat root rest =>
    cases h
    simp [tagNames]
  | unary kind kid ih => exact ih h
  | select =>
    cases h
    simp [tagNames]
  | binary kind left right ihl ihr =>
    have hboth : (do
        let left ← makeOrTaint left
        let right ← makeOrTaint right
        some (Formula.or left right)) = some f := by
      cases kind
      case concat => cases h
      all_goals exact h
    obtain ⟨l, hl, hboth⟩ := Option.bind_eq_some_iff.mp hboth
    obtain ⟨r, hr, hboth⟩ := Option.bind_eq_some_iff.mp hboth
    cases hboth
    rw [holds_or, ihl hl, ihr hr, tagNames]
    simp only [List.mem_append, or_and_right, exists_or]

section
variable {trace : Trace} {stored : Event → StoredValue} {potential : TreeSet String}

theorem mem_taintExpr {value : EqExpr} : value ∈ TaintListener.taintExpr trace stored ↔
    ∃ write ∈ trace.path, TaintListener.storesNumber stored write = true ∧
      ∃ name : SymbolName, name.name = write.globalVarFullName ∧ value = TaintListener.taintConstraint name (stored write) := by
  unfold TaintListener.taintExpr
  rw [List.mem_filterMap]
  refine exists_congr fun write => and_congr_right fun _ => ?_
  unfold TaintListener.storeConstraint
  split
  next hnumber =>
    rw [Option.map_eq_some_iff]
    simp only [hnumber, true_and]
    refine exists_congr fun name => and_congr ?_ eq_comm
    unfold TaintListener.symbolName
    constructor
    · intro h
      split at h
      · cases h
        rfl
      · cases h
    · intro h
      obtain ⟨n, hmarked⟩ := name
      obtain rfl : n = write.globalVarFullName := h
      exact dif_pos hmarked
  next hnumber => simp [hnumber]

theorem mem_initTaintSymbolicExpr {name : String} : name ∈ TaintListener.initTaintSymbolicExpr trace ↔
    ∃ event ∈ trace.path, TaintListener.sourceName event = some name := by
  have hfold : ∀ (l : List String) (s : TreeSet String), name ∈ l.foldl TreeSet.insert s ↔ name ∈ l ∨ name ∈ s := by
    intro l
    induction l with
    | nil => simp
    | cons a l ih =>
      intro s
      rw [List.foldl_cons, ih, TreeSet.mem_insert, Std.compare_eq_iff_eq, List.mem_cons, eq_comm]
      tauto
  rw [TaintListener.initTaintSymbolicExpr, hfold, List.mem_filterMap]
  simp

/-- The right side of an equation has the name of the store. -/
theorem right_fullName {name : SymbolName} {value : StoredValue} {other : String}
    (h : getFullName (TaintListener.taintConstraint name value).right = some other) : other = name.name :=
  getFullName_symbol h

/-- The three parts of the formulas. -/
theorem buildTaintFormula_eq {fs : List Formula} (h : buildTaintFormula trace stored potential = some fs) :
    ∃ propagation, buildTaintProgatationFormula (TaintListener.taintExpr trace stored)
        (TaintListener.initTaintSymbolicExpr trace) = some propagation ∧
      fs = buildInitTaintFormula trace ++ buildTaintMatchFormula trace potential ++ propagation := by
  obtain ⟨propagation, hpropagation, h⟩ := Option.bind_eq_some_iff.mp h
  exact ⟨propagation, hpropagation, (Option.some.inj h).symm⟩

/-! ### Names of stores and of reads -/

variable {l : PSOListener} {symbolic : SymbolicExprs}

theorem storesNumber_access (h : Recorded l) {write : Event} (hwrite : write ∈ l.trace.path)
    (hnumber : TaintListener.storesNumber stored write = true) : ∃ loc time, SharedAccess write loc true time := by
  have hnames := recorded_accessNames h
  unfold TaintListener.storesNumber at hnumber
  split at hnumber
  next loc isPointerTy hinst =>
    have haccess : write.inst.access = some (loc, true) := by rw [hinst]; rfl
    simp only [Bool.and_eq_true] at hnumber
    have hshared : loc.isGlobal = true := (hnames.isGlobal write hwrite loc true haccess).symm.trans hnumber.1.2
    obtain ⟨time, -, hnamed⟩ := hnames.named write hwrite loc true haccess hshared
    exact ⟨loc, time, hnamed⟩
  next => cases hnumber

theorem read_access (h : Recorded l) {var : String} {read : Event} (hread : read ∈ l.trace.readSet.getD var []) :
    read ∈ l.trace.path ∧ ∃ loc time, var = createVarName loc ∧ SharedAccess read loc false time := by
  obtain ⟨hpath, loc, hinst, hshared, rfl⟩ := recorded_reads h hread
  have haccess : read.inst.access = some (loc, false) := by rw [hinst]; rfl
  obtain ⟨time, -, hnamed⟩ := (recorded_accessNames h).named read hpath loc false haccess hshared
  exact ⟨hpath, loc, time, rfl, hnamed⟩

/-- Each store has one equation. -/
theorem taintExpr_unique (h : Recorded l) {value value' : EqExpr} {name : String}
    (hvalue : value ∈ TaintListener.taintExpr (l.filteredTrace symbolic) stored)
    (hvalue' : value' ∈ TaintListener.taintExpr (l.filteredTrace symbolic) stored)
    (hname : getFullName value.right = some name) (hname' : getFullName value'.right = some name) : value = value' := by
  obtain ⟨write, hwrite, hnumber, root, hroot, rfl⟩ := mem_taintExpr.mp hvalue
  obtain ⟨write', hwrite', hnumber', root', hroot', rfl⟩ := mem_taintExpr.mp hvalue'
  obtain ⟨loc, time, haccess⟩ := storesNumber_access h hwrite hnumber
  obtain ⟨loc', time', haccess'⟩ := storesNumber_access h hwrite' hnumber'
  have hsame : root.name = root'.name := (right_fullName hname).symm.trans (right_fullName hname')
  obtain rfl := (recorded_accessNames h).unique write hwrite write' hwrite' haccess haccess'
    (hroot.symm.trans (hsame.trans hroot'))
  obtain rfl : root = root' := by
    obtain ⟨n, hmarked⟩ := root
    obtain ⟨n', hmarked'⟩ := root'
    obtain rfl : n = n' := hsame
    rfl
  rfl

/-- A read does not have the name of a store. -/
theorem read_ne_store (h : Recorded l) {var : String} {read : Event} (hread : read ∈ l.trace.readSet.getD var [])
    {value : EqExpr} (hvalue : value ∈ TaintListener.taintExpr (l.filteredTrace symbolic) stored) :
    getFullName value.right ≠ some read.globalVarFullName := by
  intro hname
  obtain ⟨write, hwrite, hnumber, root, hroot, rfl⟩ := mem_taintExpr.mp hvalue
  obtain ⟨loc, time, haccess⟩ := storesNumber_access h hwrite hnumber
  obtain ⟨-, loc', time', -, haccess'⟩ := read_access h hread
  exact Bool.false_ne_true (haccess'.same haccess ((right_fullName hname).trans hroot)).1

/-- A name is read once. -/
theorem read_unique (h : Recorded l) {var var' : String} {read read' : Event}
    (hread : read ∈ l.trace.readSet.getD var []) (hread' : read' ∈ l.trace.readSet.getD var' [])
    (hname : read.globalVarFullName = read'.globalVarFullName) : var = var' ∧ read = read' := by
  obtain ⟨hpath, loc, time, rfl, haccess⟩ := read_access h hread
  obtain ⟨hpath', loc', time', rfl, haccess'⟩ := read_access h hread'
  obtain ⟨-, rfl, -⟩ := haccess.same haccess' hname
  exact ⟨rfl, (recorded_accessNames h).unique read hpath read' hpath' haccess haccess' hname⟩

/-! ### Sources that are stores -/

theorem ne_initTag {loc : Location} {time : Nat} (var : Location) (hvar : var.isGlobal = true) :
    createGlobalVarFullName (createVarName loc) time true ≠ createVarName var ++ "_Init_tag" := by
  intro hname
  have hmem : 'S' ∈ (createGlobalVarFullName (createVarName loc) time true).toList := by
    rw [createGlobalVarFullName_toList]
    exact List.mem_append_right _ List.mem_cons_self
  rw [hname, String.toList_append, List.mem_append] at hmem
  rcases hmem with hmem | hmem
  · exact notMem_createVarName hvar (by decide) (by decide) (by decide) hmem
  · exact absurd hmem (by decide)

theorem sourceTainted_of_numberStored (V : Type) (h : Recorded l) {event : Event} (hevent : event ∈ l.trace.path)
    {loc : Location} (hinst : event.inst = .call (.makeTaint loc)) (hshared : loc.isGlobal = true)
    (hstored : NumberStored l.trace stored event) : SourceTainted V (l.filteredTrace symbolic) stored potential event := by
  obtain ⟨write, hwrite, hnumber, hname⟩ := hstored
  obtain ⟨loc', time, haccess⟩ := storesNumber_access h hwrite hnumber
  obtain ⟨hvar, -⟩ := recorded_makeTaint h hevent hinst hshared
  have htag : sourceTag event = write.globalVarFullName ++ "_tag" := by
    rw [sourceTag, ← hname, hvar, if_neg]
    rw [haccess.fullName]
    exact ne_initTag loc hshared
  intro fs hfs σ hσ
  obtain ⟨propagation, hpropagation, rfl⟩ := buildTaintFormula_eq hfs
  have hmarked : (write.globalVarFullName.toList.any fun c => c == 'S' || c == 'L') = true := by
    rw [haccess.fullName, createGlobalVarFullName_toList]
    simp
  have hvalue := mem_taintExpr.mpr ⟨write, hwrite, hnumber, ⟨_, hmarked⟩, rfl, rfl⟩
  obtain ⟨f, hf, hformula⟩ := mapM_mem hpropagation hvalue
  obtain ⟨name, hfull, hformula⟩ := Option.bind_eq_some_iff.mp hformula
  obtain rfl := right_fullName hfull
  have hinit : write.globalVarFullName ∈ TaintListener.initTaintSymbolicExpr (l.filteredTrace symbolic) := by
    refine mem_initTaintSymbolicExpr.mpr ⟨event, hevent, ?_⟩
    rw [TaintListener.sourceName, hinst, hname]
  rw [if_pos hinit] at hformula
  obtain rfl := Option.some.inj hformula
  have hholds := (satisfies_append.mp hσ).2 _ hf
  rw [htag]
  simpa [tag] using hholds

/-! ### The least taint -/

theorem orderAtInit_overInts {read : Event} {candidates : List Event} :
    ∀ f ∈ orderAtInit trace read candidates, f.OverInts := by
  intro f hf
  obtain ⟨w, -, rfl⟩ := List.mem_map.mp hf
  trivial

theorem orderAtWrite_overInts {read write : Event} {candidates : List Event} {i : Nat} :
    ∀ f ∈ orderAtWrite trace read candidates i write, f.OverInts := by
  intro f hf
  rcases List.mem_cons.mp hf with rfl | hf
  · split
    · split
      · exact ⟨trivial, trivial⟩
      · trivial
    · trivial
  · obtain ⟨item, -, rfl⟩ := List.mem_map.mp hf
    exact ⟨trivial, trivial⟩

theorem mem_matchRead {read : Event} {candidates : List Event} {equalInit : Option Formula} {equal : Event → Formula}
    {f : Formula} : f ∈ matchRead trace read candidates equalInit equal ↔
      (trace.latestWrite read = none ∧
        ∃ equality, equalInit = some equality ∧ f = makeExprsAnd (equality :: orderAtInit trace read candidates)) ∨
      ∃ i write, candidates[i]? = some write ∧
        f = makeExprsAnd (equal write :: orderAtWrite trace read candidates i write) := by
  unfold matchRead
  rw [List.mem_append]
  refine or_congr ?_ ?_
  · by_cases hlatest : trace.latestWrite read = none
    · simp [hlatest, eq_comm]
    · simp [hlatest]
  · simp only [List.mem_mapIdx, List.getElem?_eq_some_iff]
    constructor
    · rintro ⟨i, hi, rfl⟩
      exact ⟨i, _, ⟨hi, rfl⟩, rfl⟩
    · rintro ⟨i, write, ⟨hi, rfl⟩, rfl⟩
      exact ⟨i, hi, rfl⟩

variable {V : Type} {σ : Assignment V}

/-- Under `σ` the read may be given the tag `name` of a write. -/
def Sees (σ : Assignment V) (trace : Trace) (var : String) (read : Event) (name : String) : Prop :=
  ∃ i write, (mayBeTainted trace var read)[i]? = some write ∧ name = writeVarName write var ∧
    ∀ f ∈ orderAtWrite trace read (mayBeTainted trace var read) i write, f.Holds σ

/-- The names that the sources taint along the equations and along what the reads see. -/
inductive Reached (σ : Assignment V) (trace : Trace) (stored : Event → StoredValue) (potential : TreeSet String) :
    String → Prop
  | source {value : EqExpr} {name : String} (hvalue : value ∈ TaintListener.taintExpr trace stored)
      (hname : getFullName value.right = some name) (hinit : name ∈ TaintListener.initTaintSymbolicExpr trace) :
      Reached σ trace stored potential name
  | store {value : EqExpr} {name other : String} (hvalue : value ∈ TaintListener.taintExpr trace stored)
      (hname : getFullName value.right = some name) (hinit : name ∉ TaintListener.initTaintSymbolicExpr trace)
      (hother : other ∈ tagNames value.left) (hreached : Reached σ trace stored potential other) :
      Reached σ trace stored potential name
  | read {var name : String} {read : Event} (hread : read ∈ trace.allReadSet.getD var []) (hpotential : var ∈ potential)
      (hsees : Sees σ trace var read name) (hequal : (tag read.globalVarFullName).Holds σ ↔ (tag name).Holds σ)
      (hreached : Reached σ trace stored potential name) : Reached σ trace stored potential read.globalVarFullName

/-- The assignment that makes exactly the tags of the reached names true. -/
noncomputable def leastTaint (σ : Assignment V) (trace : Trace) (stored : Event → StoredValue) (potential : TreeSet String) :
    Assignment V :=
  open Classical in
  { σ with bool := fun s => decide (∃ name, s = name ++ "_tag" ∧ Reached σ trace stored potential name) }

theorem holds_tag_leastTaint {name : String} :
    (tag name).Holds (leastTaint σ trace stored potential) ↔ Reached σ trace stored potential name := by
  simp only [tag, holds_boolConst, leastTaint, decide_eq_true_eq]
  constructor
  · rintro ⟨other, hother, hreached⟩
    rwa [String.append_left_inj "_tag" |>.mp hother]
  · exact fun hreached => ⟨name, rfl, hreached⟩

/-- A formula of the propagation. -/
theorem taintPropagation_eq {init : TreeSet String} {value : EqExpr} {f : Formula} (h : taintPropagation init value = some f) :
    ∃ name, getFullName value.right = some name ∧
      ((name ∈ init ∧ ∀ σ : Assignment V, f.Holds σ ↔ (tag name).Holds σ) ∨
        (name ∉ init ∧ ∀ σ : Assignment V,
          f.Holds σ ↔ ((∃ other ∈ tagNames value.left, (tag other).Holds σ) ↔ (tag name).Holds σ))) := by
  obtain ⟨name, hname, h⟩ := Option.bind_eq_some_iff.mp h
  refine ⟨name, hname, ?_⟩
  split at h
  next hinit =>
    cases h
    exact .inl ⟨hinit, fun σ => by simp⟩
  next hinit =>
    obtain ⟨lhs, hlhs, h⟩ := Option.bind_eq_some_iff.mp h
    cases h
    exact .inr ⟨hinit, fun σ => by rw [holds_iff, holds_makeOrTaint hlhs]⟩

section
variable {propagation : List Formula}
  (hpropagation : buildTaintProgatationFormula (TaintListener.taintExpr trace stored)
    (TaintListener.initTaintSymbolicExpr trace) = some propagation)
  (hσ : Satisfies σ (buildInitTaintFormula trace ++ buildTaintMatchFormula trace potential ++ propagation))

include hpropagation hσ in
/-- What is reached is true under `σ`. -/
theorem Reached.holds {name : String} (h : Reached σ trace stored potential name) : (tag name).Holds σ := by
  have hprop : ∀ {value : EqExpr}, value ∈ TaintListener.taintExpr trace stored →
      ∃ f, taintPropagation (TaintListener.initTaintSymbolicExpr trace) value = some f ∧ f.Holds σ := by
    intro value hvalue
    obtain ⟨f, hf, hformula⟩ := mapM_mem hpropagation hvalue
    exact ⟨f, hformula, (satisfies_append.mp hσ).2 f hf⟩
  induction h with
  | source hvalue hname hinit =>
    obtain ⟨f, hformula, hholds⟩ := hprop hvalue
    obtain ⟨name', hname', ⟨-, hiff⟩ | ⟨hnot, -⟩⟩ := taintPropagation_eq (V := V) hformula
    · cases hname.symm.trans hname'
      exact (hiff σ).mp hholds
    · cases hname.symm.trans hname'
      exact absurd hinit hnot
  | store hvalue hname hinit hother hreached ih =>
    obtain ⟨f, hformula, hholds⟩ := hprop hvalue
    obtain ⟨name', hname', ⟨hin, -⟩ | ⟨-, hiff⟩⟩ := taintPropagation_eq (V := V) hformula
    · cases hname.symm.trans hname'
      exact absurd hin hinit
    · cases hname.symm.trans hname'
      exact ((hiff σ).mp hholds).mp ⟨_, hother, ih⟩
  | read hread hpotential hsees hequal hreached ih => exact hequal.mpr ih

end

/-- A name is reached in one way: as a source, along the equation of a store, or as a read. -/
theorem reached_store_iff (h : Recorded l) {value : EqExpr} {name : String}
    (hvalue : value ∈ TaintListener.taintExpr (l.filteredTrace symbolic) stored) (hname : getFullName value.right = some name)
    (hinit : name ∉ TaintListener.initTaintSymbolicExpr (l.filteredTrace symbolic)) :
    Reached σ (l.filteredTrace symbolic) stored potential name ↔
      ∃ other ∈ tagNames value.left, Reached σ (l.filteredTrace symbolic) stored potential other := by
  refine ⟨fun hreached => ?_, fun ⟨other, hother, hreached⟩ => .store hvalue hname hinit hother hreached⟩
  cases hreached with
  | source _ _ hin => exact absurd hin hinit
  | store hvalue' hname' _ hother hreached =>
    obtain rfl := taintExpr_unique h hvalue hvalue' hname hname'
    exact ⟨_, hother, hreached⟩
  | read hread => exact absurd hname (read_ne_store h hread hvalue)

theorem reached_read (h : Recorded l) {var : String} {read : Event} (hread : read ∈ l.trace.readSet.getD var [])
    (hreached : Reached σ (l.filteredTrace symbolic) stored potential read.globalVarFullName) :
    ∃ name, Sees σ (l.filteredTrace symbolic) var read name ∧ Reached σ (l.filteredTrace symbolic) stored potential name := by
  generalize hname : read.globalVarFullName = name at hreached
  cases hreached with
  | source hvalue hright => exact absurd (hname ▸ hright) (read_ne_store h hread hvalue)
  | store hvalue hright => exact absurd (hname ▸ hright) (read_ne_store h hread hvalue)
  | read hread' _ hsees _ hreached =>
    obtain ⟨rfl, rfl⟩ := read_unique h hread hread' hname
    exact ⟨_, hsees, hreached⟩

theorem not_holds_initName (hinit : Satisfies σ (buildInitTaintFormula trace)) {var : String}
    (hvar : var ∈ trace.globalVariableInitializer) : ¬(tag (initName var)).Holds σ := by
  have hfalse := hinit _ (List.mem_map_of_mem (TreeSet.mem_toList.mpr hvar))
  rw [holds_iff, holds_bool] at hfalse
  exact fun htag => Bool.false_ne_true (hfalse.mp htag)

/-- The formula of a read holds under the least taint. -/
theorem taintMatch_leastTaint (h : Recorded l) {var : String} {read : Event} (hread : read ∈ l.trace.readSet.getD var [])
    (hinit : Satisfies σ (buildInitTaintFormula (l.filteredTrace symbolic)))
    (hmatch : (taintMatch (l.filteredTrace symbolic) potential var read).Holds σ)
    (hbelow : ∀ {name}, Reached σ (l.filteredTrace symbolic) stored potential name → (tag name).Holds σ) :
    (taintMatch (l.filteredTrace symbolic) potential var read).Holds (leastTaint σ (l.filteredTrace symbolic) stored potential) := by
  have hints : σ.int = (leastTaint σ (l.filteredTrace symbolic) stored potential).int := rfl
  unfold taintMatch at hmatch ⊢
  by_cases hpotential : var ∈ potential
  swap
  · rw [if_neg hpotential, holds_iff, holds_bool] at hmatch ⊢
    rw [holds_tag_leastTaint]
    exact ⟨fun hreached => hmatch.mp (hbelow hreached), fun hno => by cases hno⟩
  rw [if_pos hpotential, holds_makeExprsOr] at hmatch ⊢
  rcases hmatch with hnone | ⟨f, hf, hholds⟩
  · exact .inl hnone
  refine .inr ?_
  by_cases hreached : Reached σ (l.filteredTrace symbolic) stored potential read.globalVarFullName
  · -- the read is tainted by a write that it may see
    obtain ⟨name, ⟨i, write, hwrite, rfl, horder⟩, hname⟩ := reached_read h hread hreached
    refine ⟨_, mem_matchRead.mpr (.inr ⟨i, write, hwrite, rfl⟩), holds_makeExprsAnd.mpr fun g hg => ?_⟩
    rcases List.mem_cons.mp hg with rfl | hg
    · rw [taintReadFromWriteFormula, holds_iff, holds_tag_leastTaint, holds_tag_leastTaint]
      exact iff_of_true hreached hname
    · exact ((orderAtWrite_overInts g hg).holds_congr hints).mp (horder g hg)
  · -- then what it takes under `σ` is not tainted either
    refine ⟨f, hf, ?_⟩
    rcases mem_matchRead.mp hf with ⟨-, equality, hequality, rfl⟩ | ⟨i, write, hwrite, rfl⟩
    · rw [holds_makeExprsAnd] at hholds ⊢
      intro g hg
      rcases List.mem_cons.mp hg with rfl | hg'
      · unfold taintReadFromInitFormula at hequality
        split at hequality
        next hvar =>
          cases hequality
          rw [holds_iff, holds_tag_leastTaint, holds_tag_leastTaint]
          exact iff_of_false hreached fun hreach => not_holds_initName hinit hvar (hbelow hreach)
        next => cases hequality
      · exact ((orderAtInit_overInts g hg').holds_congr hints).mp (hholds g hg)
    · rw [holds_makeExprsAnd] at hholds ⊢
      intro g hg
      rcases List.mem_cons.mp hg with rfl | hg'
      · have hequal := hholds _ List.mem_cons_self
        rw [taintReadFromWriteFormula, holds_iff] at hequal ⊢
        rw [holds_tag_leastTaint, holds_tag_leastTaint]
        refine iff_of_false hreached fun hname => hreached (.read hread hpotential ?_ hequal hname)
        exact ⟨i, write, hwrite, rfl, fun g hg => hholds g (List.mem_cons_of_mem _ hg)⟩
      · exact ((orderAtWrite_overInts g hg').holds_congr hints).mp (hholds g hg)

/-- An assignment that the formulas accept can be lowered to the least taint. -/
theorem satisfies_leastTaint (h : Recorded l) {fs : List Formula} (hfs : buildTaintFormula (l.filteredTrace symbolic) stored potential = some fs)
    (hσ : Satisfies σ fs) : Satisfies (leastTaint σ (l.filteredTrace symbolic) stored potential) fs := by
  obtain ⟨propagation, hpropagation, rfl⟩ := buildTaintFormula_eq hfs
  have hbelow : ∀ {name}, Reached σ (l.filteredTrace symbolic) stored potential name → (tag name).Holds σ :=
    fun hreached => hreached.holds hpropagation hσ
  obtain ⟨hfirst, -⟩ := satisfies_append.mp hσ
  obtain ⟨hinit, hmatch⟩ := satisfies_append.mp hfirst
  refine satisfies_append.mpr ⟨satisfies_append.mpr ⟨?_, ?_⟩, ?_⟩
  · intro f hf
    obtain ⟨var, hvar, rfl⟩ := List.mem_map.mp hf
    rw [holds_iff, holds_tag_leastTaint]
    exact iff_of_false (fun hreached => not_holds_initName hinit (TreeSet.mem_toList.mp hvar) (hbelow hreached)) (by simp)
  · intro f hf
    obtain ⟨⟨var, reads⟩, hentry, hmap⟩ := List.mem_flatMap.mp hf
    obtain ⟨read, hread, rfl⟩ := List.mem_map.mp hmap
    have hreads : l.trace.readSet.getD var [] = reads :=
      getD_of_getElem? (TreeMap.mem_toList_iff_getElem?_eq_some.mp hentry)
    have hmem : read ∈ l.trace.readSet.getD var [] := by
      rw [hreads]
      exact hread
    exact taintMatch_leastTaint h hmem hinit (hmatch _ hf) hbelow
  · intro f hf
    obtain ⟨value, hvalue, hformula⟩ := mem_mapM hpropagation hf
    obtain ⟨name, hname, ⟨hin, hiff⟩ | ⟨hnot, hiff⟩⟩ := taintPropagation_eq (V := V) hformula
    · rw [hiff, holds_tag_leastTaint]
      exact .source hvalue hname hin
    · rw [hiff, holds_tag_leastTaint, reached_store_iff h hvalue hname hnot]
      simp only [holds_tag_leastTaint]

/-! ### All sources -/

/-- What a source is named after is not reached, unless it is a store of a number. -/
theorem not_reached_source (σ : Assignment V) (potential : TreeSet String) (h : Recorded l) {event : Event}
    (hevent : event ∈ l.trace.path) {loc : Location}
    (hinst : event.inst = .call (.makeTaint loc)) (hshared : loc.isGlobal = true)
    (hstored : ¬NumberStored l.trace stored event) : ∃ name, sourceTag event = name ++ "_tag" ∧
      ¬Reached σ (l.filteredTrace symbolic) stored potential name := by
  obtain ⟨hvar, hname⟩ := recorded_makeTaint h hevent hinst hshared
  -- a reached name is that of a store of a number or of a read
  have hcases : ∀ {name}, Reached σ (l.filteredTrace symbolic) stored potential name → (∃ write ∈ l.trace.path,
      TaintListener.storesNumber stored write = true ∧ write.globalVarFullName = name) ∨
      ∃ loc time, loc.isGlobal = true ∧ name = createGlobalVarFullName (createVarName loc) time false := by
    intro name hreached
    have hright : ∀ {value : EqExpr}, value ∈ TaintListener.taintExpr (l.filteredTrace symbolic) stored →
        getFullName value.right = some name → ∃ write ∈ l.trace.path,
          TaintListener.storesNumber stored write = true ∧ write.globalVarFullName = name := by
      intro value hvalue hright
      obtain ⟨write, hwrite, hnumber, root, hroot, rfl⟩ := mem_taintExpr.mp hvalue
      exact ⟨write, hwrite, hnumber, hroot.symm.trans (right_fullName hright).symm⟩
    cases hreached with
    | source hvalue hname => exact .inl (hright hvalue hname)
    | store hvalue hname => exact .inl (hright hvalue hname)
    | read hread =>
      obtain ⟨-, loc, time, -, haccess⟩ := read_access h hread
      exact .inr ⟨loc, time, haccess.shared, haccess.fullName⟩
  rcases hname with hname | ⟨time, hname⟩
  · refine ⟨initName (createVarName loc), ?_, fun hreached => ?_⟩
    · rw [sourceTag, hvar, if_pos hname, hname, initName, String.append_assoc]
      rfl
    · have hmark : ∀ {loc' : Location} {time : Nat} {isStore : Bool},
          createGlobalVarFullName (createVarName loc') time isStore ≠ initName (createVarName loc) := by
        intro loc' time isStore heq
        have hmem : (if isStore then 'S' else 'L') ∈ (initName (createVarName loc)).toList := by
          rw [← heq, createGlobalVarFullName_toList]
          exact List.mem_append_right _ List.mem_cons_self
        rw [initName, String.toList_append, List.mem_append] at hmem
        rcases hmem with hmem | hmem
        · exact notMem_createVarName hshared (by cases isStore <;> rfl) (by cases isStore <;> decide)
            (by cases isStore <;> decide) hmem
        · exact absurd hmem (by cases isStore <;> decide)
      rcases hcases hreached with ⟨write, hwrite, hnumber, heq⟩ | ⟨loc', time, -, heq⟩
      · obtain ⟨loc', time, haccess⟩ := storesNumber_access h hwrite hnumber
        exact hmark (haccess.fullName.symm.trans heq)
      · exact hmark heq.symm
  · refine ⟨event.globalVarFullName, ?_, fun hreached => ?_⟩
    · rw [sourceTag, hvar, if_neg]
      rw [hname]
      exact ne_initTag loc hshared
    · rcases hcases hreached with ⟨write, hwrite, hnumber, heq⟩ | ⟨loc', time', hshared', heq⟩
      · exact hstored ⟨write, hwrite, hnumber, heq⟩
      · rw [hname] at heq
        exact absurd (createGlobalVarFullName_inj hshared hshared' heq).1 (by decide)

end

/-- On the filtered trace the tag of a source is forced if the source is named after a store of a number; and where the
    formulas have a model, only then. -/
theorem sourceTainted_numberStored (V : Type) {l : PSOListener} (h : Recorded l) (symbolic : SymbolicExprs)
    (stored : Event → StoredValue) (potential : TreeSet String) {event : Event} (hevent : event ∈ l.trace.path) {loc : Location}
    (hinst : event.inst = .call (.makeTaint loc)) (hshared : loc.isGlobal = true) :
    (NumberStored l.trace stored event → SourceTainted V (l.filteredTrace symbolic) stored potential event) ∧
      ((∃ fs, buildTaintFormula (l.filteredTrace symbolic) stored potential = some fs ∧ ∃ σ : Assignment V, Satisfies σ fs) →
        (SourceTainted V (l.filteredTrace symbolic) stored potential event ↔ NumberStored l.trace stored event)) := by
  have henough : NumberStored l.trace stored event → SourceTainted V (l.filteredTrace symbolic) stored potential event :=
    sourceTainted_of_numberStored V h hevent hinst hshared
  refine ⟨henough, fun ⟨fs, hfs, σ, hσ⟩ => ⟨fun htainted => ?_, henough⟩⟩
  by_contra hstored
  obtain ⟨name, htag, hnot⟩ := not_reached_source σ potential h hevent hinst hshared hstored
  have htrue := htainted fs hfs _ (satisfies_leastTaint h hfs hσ)
  rw [htag] at htrue
  exact hnot (holds_tag_leastTaint.mp htrue)

/-- A variable that has an initial value becomes a source; `stores` says whether it is stored to before. -/
def sourceRun (stores : Bool) : PSOListener :=
  PSOListener.record ["G1_8"]
    ((if stores then [(1, ⟨.store ⟨1, 8, true⟩ false, false⟩, none)] else []) ++
      [(1, ⟨.call (.makeTaint ⟨1, 8, true⟩), false⟩, none)])

/-- The event of the source. -/
def sourceEvent (eventId : Nat) (globalVarFullName : String) : Event where
  threadId := 1
  eventId := eventId
  inst := .call (.makeTaint ⟨1, 8, true⟩)
  eventType := .normal
  isGlobal := true
  varName := "G1_8"
  globalVarFullName := globalVarFullName

/-- An `int` that is computed from nothing. -/
def storedInt (_ : Event) : StoredValue where
  isNumber := true
  width := 32
  related := []

theorem sourceTainted_store :
    (∃ fs, buildTaintFormula ((sourceRun true).filteredTrace {}) storedInt ∅ = some fs ∧ ∃ σ : Assignment Unit, Satisfies σ fs) ∧
      SourceTainted Unit ((sourceRun true).filteredTrace {}) storedInt ∅ (sourceEvent 1 "G1_8S1") := by
  have hbuilt : (buildTaintFormula ((sourceRun true).filteredTrace {}) storedInt ∅).isSome = true := by decide +kernel
  have hmodel : ∀ fs ∈ (buildTaintFormula ((sourceRun true).filteredTrace {}) storedInt ∅).toList,
      Satisfies { int := fun _ => 0, bool := fun s => s = "G1_8S1_tag", value := fun _ => () } fs := by decide +kernel
  obtain ⟨fs, hfs⟩ := Option.isSome_iff_exists.mp hbuilt
  have hsat : ∃ fs, buildTaintFormula ((sourceRun true).filteredTrace {}) storedInt ∅ = some fs ∧
      ∃ σ : Assignment Unit, Satisfies σ fs := ⟨fs, hfs, _, hmodel fs (by simp [hfs])⟩
  have hstored : NumberStored (sourceRun true).trace storedInt (sourceEvent 1 "G1_8S1") := by
    unfold NumberStored
    decide +kernel
  exact ⟨hsat, ((sourceTainted_numberStored Unit (record_recorded _ _) {} storedInt ∅ (by decide +kernel) rfl rfl).2 hsat).mpr
    hstored⟩

/-- Nothing is stored before, so the tag of the initial value is never set to true. No branch reads the variable here, so
    the filter has dropped its initializer and the tag is free. -/
theorem not_sourceTainted_init :
    ¬∀ (l : PSOListener), Recorded l → ∀ (symbolic : SymbolicExprs) (stored : Event → StoredValue)
      (potential : TreeSet String), ∀ event ∈ l.trace.path, ∀ loc, event.inst = .call (.makeTaint loc) → loc.isGlobal = true →
        SourceTainted Unit (l.filteredTrace symbolic) stored potential event := by
  intro hall
  have htainted := hall (sourceRun false) (record_recorded _ _) {} storedInt ∅ (sourceEvent 0 "G1_8_Init_tag")
    (by decide +kernel) ⟨1, 8, true⟩ rfl rfl
  have hbuilt : (buildTaintFormula ((sourceRun false).filteredTrace {}) storedInt ∅).isSome = true := by decide +kernel
  have hmodel : ∀ fs ∈ (buildTaintFormula ((sourceRun false).filteredTrace {}) storedInt ∅).toList,
      Satisfies { int := fun _ => 0, bool := fun _ => false, value := fun _ => () } fs := by decide +kernel
  obtain ⟨fs, hfs⟩ := Option.isSome_iff_exists.mp hbuilt
  exact absurd (htainted fs hfs _ (hmodel fs (by simp [hfs]))) Bool.false_ne_true

end CapTaint
