import CapTaint.ExprSMTLIBPrinter
import Mathlib

/-! # The options of the SMT-LIB printer

The value of an option that is set once more is stored as the number of the enumerator, whose order is the other way
round than that of `bool`. -/

namespace CapTaint.ExprSMTLIBPrinter

variable {Query : Type} {option : SMTLIBboolOptions} {printer : Printer Query} {map : OptionMap}

/-! ### Histories -/

/-- The settings that a history makes, the implicit ones too. `pending` says whether array values have been asked for
    since the last query. -/
def settings (pending : Bool) : List (Call Query) → List (SMTLIBboolOptions × SMTLIBboolValues)
  | [] => []
  | .setSMTLIBboolOption option value :: calls => (option, value) :: settings pending calls
  | .setArrayValuesToGet a :: calls => (if a ≠ [] then [(.produceModels, .optionTrue)] else []) ++ settings true calls
  | .setQuery _ :: calls => (if pending then [(.produceModels, .optionDefault)] else []) ++ settings false calls
  | .setOutput :: calls => settings pending calls
  | .generateOutput :: calls => settings pending calls

/-- The settings of one option, the last one at the end. -/
def settingsOf (calls : List (Call Query)) (option : SMTLIBboolOptions) : List SMTLIBboolValues :=
  ((settings false calls).filter fun setting => setting.1 = option).map Prod.snd

/-- The value that a setting stands for. -/
def meaning : SMTLIBboolValues → Option Bool
  | .optionTrue => some true
  | .optionFalse => some false
  | .optionDefault => none

/-- The options whose last setting is true or false. -/
def lastSettings (calls : List (Call Query)) : OptionMap := fun option => (settingsOf calls option).getLast?.bind meaning

/-- Whenever options are printed, they are those whose last setting is true or false. -/
def PrintsLastSettings (calls : List (Call Query)) : Prop :=
  ∀ before rest lines, calls = before ++ .generateOutput :: rest → (after before).generateOutput = some lines →
    lines = (entries (lastSettings before)).map optionLine

/-- The last setting is true or false, and so is the one before it. -/
def Repeated (values : List SMTLIBboolValues) : Prop :=
  ∃ earlier u v, values = earlier ++ [u, v] ∧ u ≠ .optionDefault ∧ v ≠ .optionDefault

/-! ### One setting -/

/-- What a setting makes of the entry of its option. -/
def setEntry : Option Bool → SMTLIBboolValues → Option Bool
  | _, .optionDefault => none
  | none, value => some (value = .optionTrue)
  | some _, value => some value.toBool

theorem setSMTLIBboolOption_options (printer : Printer Query) (option : SMTLIBboolOptions) (value : SMTLIBboolValues) :
    (printer.setSMTLIBboolOption option value).smtlibBoolOptions =
      Function.update printer.smtlibBoolOptions option (setEntry (printer.smtlibBoolOptions option) value) := by
  rw [Printer.setSMTLIBboolOption, insert]
  rcases hentry : printer.smtlibBoolOptions option with _ | b <;> cases value <;>
    simp [setEntry, SMTLIBboolValues.toBool, SMTLIBboolValues.number]

theorem setSMTLIBboolOption_arrays (printer : Printer Query) (option : SMTLIBboolOptions) (value : SMTLIBboolValues) :
    (printer.setSMTLIBboolOption option value).arraysToCallGetValueOn = printer.arraysToCallGetValueOn := by
  rw [Printer.setSMTLIBboolOption]
  split_ifs <;> rfl

/-- The entries after some settings. -/
def setEntries (map : OptionMap) (settings : List (SMTLIBboolOptions × SMTLIBboolValues)) : OptionMap :=
  settings.foldl (fun map setting => Function.update map setting.1 (setEntry (map setting.1) setting.2)) map

/-- A call makes the settings of its history. -/
theorem foldl_call_options : ∀ (calls : List (Call Query)) (printer : Printer Query),
    (calls.foldl Printer.call printer).smtlibBoolOptions =
      setEntries printer.smtlibBoolOptions (settings printer.arraysToCallGetValueOn.isSome calls)
  | [], _ => rfl
  | .setSMTLIBboolOption option value :: calls, printer => by
    rw [List.foldl_cons, foldl_call_options calls, settings, Printer.call, setSMTLIBboolOption_arrays,
      setSMTLIBboolOption_options]
    rfl
  | .setArrayValuesToGet a :: calls, printer => by
    rw [List.foldl_cons, foldl_call_options calls, settings, Printer.call, Printer.setArrayValuesToGet]
    split_ifs
    · rw [setSMTLIBboolOption_arrays, setSMTLIBboolOption_options]
      rfl
    · rfl
  | .setQuery q :: calls, printer => by
    rw [List.foldl_cons, foldl_call_options calls, settings, Printer.call, Printer.setQuery, Printer.reset]
    by_cases harrays : printer.arraysToCallGetValueOn.isSome = true
    · rw [if_pos harrays, if_pos harrays, setSMTLIBboolOption_options]
      rfl
    · rw [if_neg harrays, if_neg harrays]
      rfl
  | .setOutput :: calls, printer => foldl_call_options calls printer.setOutput
  | .generateOutput :: calls, printer => foldl_call_options calls printer

/-- Only its own settings change the entry of an option. -/
theorem setEntries_apply (option : SMTLIBboolOptions) : ∀ (settings : List (SMTLIBboolOptions × SMTLIBboolValues)) (map : OptionMap),
    setEntries map settings option =
      ((settings.filter fun setting => setting.1 = option).map Prod.snd).foldl setEntry (map option)
  | [], _ => rfl
  | (option', value) :: settings, map => by
    rw [setEntries, List.foldl_cons]
    refine (setEntries_apply option settings _).trans ?_
    by_cases heq : option' = option
    · subst heq
      rw [List.filter_cons_of_pos (by simp), List.map_cons, List.foldl_cons, Function.update_self]
    · rw [List.filter_cons_of_neg (by simpa using heq), Function.update_of_ne (Ne.symm heq)]

theorem after_options (calls : List (Call Query)) (option : SMTLIBboolOptions) :
    (after calls).smtlibBoolOptions option = (settingsOf calls option).foldl setEntry none := by
  rw [after, foldl_call_options]
  exact setEntries_apply option _ _

/-! ### The settings of one option -/

theorem setEntry_eq_none (entry : Option Bool) (value : SMTLIBboolValues) : setEntry entry value = none ↔ value = .optionDefault := by
  rcases entry with _ | b <;> cases value <;> simp [setEntry]

/-- A setting is right unless the option has an entry and gets another one. -/
theorem setEntry_eq_meaning (entry : Option Bool) (value : SMTLIBboolValues) :
    setEntry entry value = meaning value ↔ ¬(entry ≠ none ∧ value ≠ .optionDefault) := by
  rcases entry with _ | b <;> cases value <;> simp [setEntry, meaning, SMTLIBboolValues.toBool, SMTLIBboolValues.number]

theorem repeated_append (earlier : List SMTLIBboolValues) (v : SMTLIBboolValues) :
    Repeated (earlier ++ [v]) ↔ earlier.foldl setEntry none ≠ none ∧ v ≠ .optionDefault := by
  constructor
  · rintro ⟨earlier', u, v', heq, hu, hv⟩
    have heq' : earlier ++ [v] = (earlier' ++ [u]) ++ [v'] := heq.trans (List.append_cons earlier' u [v'])
    obtain ⟨rfl, hlast⟩ := List.append_inj' heq' rfl
    obtain rfl : v = v' := List.head_eq_of_cons_eq hlast
    refine ⟨?_, hv⟩
    rw [List.foldl_append]
    exact (setEntry_eq_none _ u).not.mpr hu
  · rintro ⟨hentry, hv⟩
    rcases List.eq_nil_or_concat' earlier with rfl | ⟨earlier', u, rfl⟩
    · exact absurd rfl hentry
    · rw [List.foldl_append] at hentry
      exact ⟨earlier', u, v, List.append_assoc _ _ _, (setEntry_eq_none _ u).not.mp hentry, hv⟩

/-- The entry is that of the last setting unless it is a repeated one. -/
theorem foldl_setEntry_iff (values : List SMTLIBboolValues) :
    values.foldl setEntry none = values.getLast?.bind meaning ↔ ¬Repeated values := by
  rcases List.eq_nil_or_concat' values with rfl | ⟨earlier, v, rfl⟩
  · refine iff_of_true rfl ?_
    rintro ⟨earlier, u, v, heq, -⟩
    exact absurd heq (List.append_ne_nil_of_right_ne_nil earlier (List.cons_ne_nil u [v])).symm
  · rw [repeated_append, List.foldl_append, List.getLast?_concat]
    exact setEntry_eq_meaning _ v

/-! ### The lines -/

theorem mem_entries {b : Bool} : (option, b) ∈ entries map ↔ map option = some b := by
  rw [entries, List.mem_filterMap]
  constructor
  · rintro ⟨option', -, h⟩
    obtain ⟨b', hb, heq⟩ := Option.map_eq_some_iff.mp h
    cases heq
    exact hb
  · intro h
    refine ⟨option, ?_, by rw [h]; rfl⟩
    cases option <;> simp [allOptions]

theorem entries_inj {map map' : OptionMap} : entries map = entries map' ↔ map = map' := by
  refine ⟨fun h => funext fun option => Option.ext fun b => ?_, congrArg _⟩
  rw [← mem_entries, h, mem_entries]

theorem optionLine_injective : Function.Injective optionLine := by
  rintro ⟨option, b⟩ ⟨option', b'⟩ h
  cases option <;> cases option' <;> cases b <;> cases b' <;> first | rfl | exact absurd h (by decide)

/-- The lines are right exactly when no option has a repeated setting as its last one. -/
theorem printOptions_iff (calls : List (Call Query)) :
    (after calls).printOptions = (entries (lastSettings calls)).map optionLine ↔ ∀ option, ¬Repeated (settingsOf calls option) := by
  rw [Printer.printOptions, (List.map_injective_iff.mpr optionLine_injective).eq_iff, entries_inj, funext_iff]
  refine forall_congr' fun option => ?_
  rw [after_options, ← foldl_setEntry_iff]
  rfl

/-- A run prints the last settings exactly when each time that it prints, no option has a repeated setting as its last one. -/
theorem printsLastSettings_iff (calls : List (Call Query)) :
    PrintsLastSettings calls ↔ ∀ before rest, calls = before ++ .generateOutput :: rest →
      (after before).generateOutput.isSome = true → ∀ option, ¬Repeated (settingsOf before option) := by
  refine forall_congr' fun before => forall_congr' fun rest => ?_
  rw [Printer.generateOutput]
  split_ifs
  · simp
  · rw [← printOptions_iff]
    simp

/-- PRODUCE_MODELS is set to false, and then array values are asked for. -/
def modelsAfterFalse : List (Call Unit) :=
  [.setOutput, .setQuery (), .setSMTLIBboolOption .produceModels .optionFalse, .setArrayValuesToGet [0], .generateOutput]

/-- The printed value is false. -/
theorem not_printsLastSettings_models : ¬PrintsLastSettings modelsAfterFalse := by
  intro h
  exact absurd (h (modelsAfterFalse.take 4) [] _ rfl rfl) (by decide)

end CapTaint.ExprSMTLIBPrinter
