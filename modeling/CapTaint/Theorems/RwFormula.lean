import CapTaint.SymbolicListener
import CapTaint.Lib.Smt
import CapTaint.Lib.OptionLoop

/-! # The events of the value equations

The equations and the events are recorded in pairs. The filter drops equations and no events, so the pairs survive it
exactly when what it keeps is the front of the vector. -/

namespace CapTaint
open Std DealWithSymbolicExpr SymbolicListener

/-- What a filter keeps is the front of the list when nothing that it drops stands before something that it keeps. -/
theorem filter_prefix_iff {α : Type} {p : α → Bool} {l : List α} :
    l.filter p <+: l ↔ l.Pairwise fun a b => p b = true → p a = true := by
  induction l with
  | nil => simp
  | cons a l ih =>
    rw [List.pairwise_cons, List.filter_cons]
    by_cases ha : p a = true
    · rw [if_pos ha, List.prefix_cons_inj, ih]
      exact (and_iff_right fun b _ _ => ha).symm
    · rw [if_neg ha]
      have hnone : (∀ b ∈ l, p b = true → p a = true) ↔ l.filter p = [] := by
        rw [List.filter_eq_nil_iff]
        exact forall₂_congr fun b _ => ⟨fun h hb => ha (h hb), fun h hb => absurd hb h⟩
      rw [hnone]
      constructor
      · intro hstarts
        have hnil : l.filter p = [] := by
          cases hkept : l.filter p with
          | nil => rfl
          | cons b kept =>
            rw [hkept] at hstarts
            obtain ⟨rfl, -⟩ := List.cons_prefix_cons.mp hstarts
            have hb : b ∈ l.filter p := by rw [hkept]; exact List.mem_cons_self
            exact absurd (List.mem_filter.mp hb).2 ha
        refine ⟨hnil, List.pairwise_of_forall_mem_list fun b _ c hc hpc => ?_⟩
        exact absurd hpc (List.filter_eq_nil_iff.mp hnil c hc)
      · rintro ⟨hnil, -⟩
        rw [hnil]
        exact List.nil_prefix

/-- The loads of a run: the full name of a shared load is its own. -/
structure LoadRun where
  loads : List Load
  distinct : ((loads.filter isRecorded).map fun load => load.event.globalVarFullName).Nodup

namespace LoadRun

def recorded (run : LoadRun) : List Load := run.loads.filter isRecorded

/-- The two vectors when `filterUseless` is through. -/
def filtered (run : LoadRun) (symbolic : SymbolicExprs) : RwTables :=
  filterRw (record run.loads) (closure symbolic).allRelatedSymbolicExpr

/-- The variable of the equation is one that the branches and assertions depend on. -/
def isRelated (symbolic : SymbolicExprs) (load : Load) : Bool :=
  getVarName load.symbolic ∈ (closure symbolic).allRelatedSymbolicExpr

variable (run : LoadRun) (symbolic : SymbolicExprs)

theorem record_eq : record run.loads =
    { rwSymbolicExpr := run.recorded.map Load.constraint, rwEvent := run.recorded.map Load.event } := by
  have hloop : ∀ (loads : List Load) (t : RwTables), loads.foldl instructionExecuted t =
      { rwSymbolicExpr := t.rwSymbolicExpr ++ (loads.filter isRecorded).map Load.constraint
        rwEvent := t.rwEvent ++ (loads.filter isRecorded).map Load.event } := by
    intro loads
    induction loads with
    | nil => simp
    | cons load loads ih =>
      intro t
      rw [List.foldl_cons, ih, instructionExecuted, List.filter_cons]
      split <;> simp
  rw [record, hloop]
  rfl

theorem filtered_eq : run.filtered symbolic =
    { rwSymbolicExpr := (run.recorded.filter (isRelated symbolic)).map Load.constraint
      rwEvent := run.recorded.map Load.event } := by
  rw [filtered, record_eq, filterRw, List.filter_map]
  rfl

theorem recorded_inj {a b : Load} (ha : a ∈ run.recorded) (hb : b ∈ run.recorded)
    (hname : a.event.globalVarFullName = b.event.globalVarFullName) : a = b :=
  List.inj_on_of_nodup_map run.distinct ha hb hname

/-- The zipped vector pairs the kept equations with the first events. -/
theorem rwFormula_filtered {F : Type} (getZ3Expr : EqExpr → F) :
    ∃ formula, Encode.rwFormula getZ3Expr (run.filtered symbolic) = some formula ∧
      formula.length = (run.recorded.filter (isRelated symbolic)).length ∧
      ∀ {j : Nat} {a b : Load}, run.recorded[j]? = some a → (run.recorded.filter (isRelated symbolic))[j]? = some b →
        formula[j]? = some (a.event, getZ3Expr b.constraint) := by
  have hle : (run.recorded.filter (isRelated symbolic)).length ≤ run.recorded.length := List.length_filter_le _ _
  have hzip : Encode.rwFormula getZ3Expr (run.filtered symbolic) =
      some (((run.recorded.filter (isRelated symbolic)).map Load.constraint).zipIdx.map fun entry =>
        (((run.recorded.map Load.event)[entry.2]?).getD default, getZ3Expr entry.1)) := by
    rw [Encode.rwFormula, filtered_eq]
    refine OptionLoop.mapM_eq_some fun entry hentry => ?_
    have hlt : entry.2 < run.recorded.length := by
      have hidx := List.snd_lt_of_mem_zipIdx hentry
      rw [List.length_map] at hidx
      omega
    rw [List.getElem?_map, List.getElem?_eq_getElem hlt]
    rfl
  refine ⟨_, hzip, by simp, fun {j a b} ha hb => ?_⟩
  rw [List.getElem?_map, List.getElem?_zipIdx, List.getElem?_map, hb]
  simp [ha]

/-- The pair number `j` of `rwFormula` is the event of a shared load with the translation of its equation, which is the
    expression number `j` of `rwSymbolicExpr`. -/
def Aligned {F : Type} (getZ3Expr : EqExpr → F) : Prop :=
  ∃ formula, Encode.rwFormula getZ3Expr (run.filtered symbolic) = some formula ∧
    formula.length = (run.filtered symbolic).rwSymbolicExpr.length ∧
    ∀ {j : Nat} {event : Event} {equation : F}, formula[j]? = some (event, equation) →
      ∃ load ∈ run.recorded, load.event = event ∧ (run.filtered symbolic).rwSymbolicExpr[j]? = some load.constraint ∧
        equation = getZ3Expr load.constraint

/-- The pairs stay together on exactly the runs in which no shared load of an unrelated variable comes before one of a
    related variable. -/
theorem aligned_iff {F : Type} (getZ3Expr : EqExpr → F) : run.Aligned symbolic getZ3Expr ↔
    run.recorded.Pairwise fun a b => isRelated symbolic b → isRelated symbolic a := by
  rw [← filter_prefix_iff]
  obtain ⟨formula, hformula, hlength, hget⟩ := run.rwFormula_filtered symbolic getZ3Expr
  have hle : (run.recorded.filter (isRelated symbolic)).length ≤ run.recorded.length := List.length_filter_le _ _
  have hsymbolic : (run.filtered symbolic).rwSymbolicExpr =
      (run.recorded.filter (isRelated symbolic)).map Load.constraint := by rw [filtered_eq]
  constructor
  · rintro ⟨formula', hformula', -, haligned⟩
    obtain rfl := Option.some.inj (hformula.symm.trans hformula')
    refine List.prefix_iff_getElem?.mpr fun j hj => ?_
    have hb : (run.recorded.filter (isRelated symbolic))[j]? = some (run.recorded.filter (isRelated symbolic))[j] :=
      List.getElem?_eq_getElem hj
    have ha : run.recorded[j]? = some run.recorded[j] := List.getElem?_eq_getElem (hj.trans_le hle)
    obtain ⟨load, hload, hevent, hequation, -⟩ := haligned (hget ha hb)
    rw [hsymbolic, List.getElem?_map, hb, Option.map_some, Option.some.injEq] at hequation
    have hkept : (run.recorded.filter (isRelated symbolic))[j] ∈ run.recorded :=
      List.mem_of_mem_filter (List.getElem_mem hj)
    -- the equation names its load, and the event names the load in its place
    have hsame : load = (run.recorded.filter (isRelated symbolic))[j] := by
      refine run.recorded_inj hload hkept ?_
      have hsym : (run.recorded.filter (isRelated symbolic))[j].symbolic = load.symbolic := congrArg EqExpr.right hequation
      have hname := (run.recorded.filter (isRelated symbolic))[j].named
      rw [hsym, load.named] at hname
      exact Option.some.inj hname
    have hplace : load = run.recorded[j] :=
      run.recorded_inj hload (List.getElem_mem _) (congrArg Event.globalVarFullName hevent)
    rw [ha, ← hplace, hsame]
  · intro hstarts
    refine ⟨formula, hformula, by rw [hlength, hsymbolic, List.length_map], fun {j event equation} hj => ?_⟩
    have hlt : j < (run.recorded.filter (isRelated symbolic)).length := by
      rw [← hlength]
      exact (List.getElem?_eq_some_iff.mp hj).1
    have hb : (run.recorded.filter (isRelated symbolic))[j]? = some (run.recorded.filter (isRelated symbolic))[j] :=
      List.getElem?_eq_getElem hlt
    have ha := List.prefix_iff_getElem?.mp hstarts j hlt
    rw [hget ha hb, Option.some.injEq, Prod.mk.injEq] at hj
    refine ⟨_, List.mem_of_getElem? ha, hj.1, ?_, hj.2.symm⟩
    rw [hsymbolic, List.getElem?_map, hb]
    rfl

/-- A load of a shared variable by its full name. -/
def sharedLoad (memoryId : Nat) (name : SymbolName) : Load where
  event :=
    { threadId := 1, eventId := memoryId, inst := .load ⟨memoryId, 8, true⟩ false, eventType := .normal
      varName := createVarName ⟨memoryId, 8, true⟩, globalVarFullName := name.name, isGlobal := true }
  type := .integer
  value := .constant 0
  symbolic := .read name
  named := rfl

/-- The program loads `G3_8`, then `G4_8`. -/
def twoLoads : LoadRun where
  loads := [sharedLoad 3 ⟨"G3_8L1", rfl⟩, sharedLoad 4 ⟨"G4_8L1", rfl⟩]
  distinct := by decide

/-- The program branches on what it has loaded from `G4_8`. -/
def branchOnSecond : SymbolicExprs where
  brSymbolicExpr := [.read ⟨"G4_8L1", rfl⟩]

theorem rwFormula_twoLoads : Encode.rwFormula id (twoLoads.filtered branchOnSecond) =
    some [((sharedLoad 3 ⟨"G3_8L1", rfl⟩).event, (sharedLoad 4 ⟨"G4_8L1", rfl⟩).constraint)] := by
  decide +kernel

/-- The equation of the second load is paired with the first one. -/
theorem not_aligned_twoLoads : ¬twoLoads.Aligned branchOnSecond id := by
  rintro ⟨formula, hformula, -, haligned⟩
  obtain rfl := Option.some.inj (rwFormula_twoLoads.symm.trans hformula)
  obtain ⟨load, hload, hevent, hequation, -⟩ := @haligned 0 _ _ rfl
  have hkept : (twoLoads.filtered branchOnSecond).rwSymbolicExpr[0]? =
      some (sharedLoad 4 ⟨"G4_8L1", rfl⟩).constraint := by decide +kernel
  have hloads : load = sharedLoad 3 ⟨"G3_8L1", rfl⟩ ∨ load = sharedLoad 4 ⟨"G4_8L1", rfl⟩ := by
    simpa [recorded, twoLoads, isRecorded, sharedLoad] using hload
  rw [hkept, Option.some.injEq] at hequation
  rcases hloads with rfl | rfl
  · exact absurd hequation (by decide)
  · exact absurd hevent (by decide)

end LoadRun
end CapTaint
