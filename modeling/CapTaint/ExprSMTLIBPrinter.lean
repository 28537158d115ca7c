import Mathlib.Tactic.Common

/-! # The options of the SMT-LIB printer

The members of `ExprSMTLIBPrinter` that set and print options. `Query` are the queries; a number stands for an array. -/

namespace CapTaint.ExprSMTLIBPrinter

inductive SMTLIBboolOptions
  | printSuccess | produceModels | interactiveMode
  deriving DecidableEq, Repr

inductive SMTLIBboolValues
  | optionTrue | optionFalse | optionDefault
  deriving DecidableEq, Repr

/-- The value of the enumeration. -/
def SMTLIBboolValues.number : SMTLIBboolValues → Nat
  | .optionTrue => 0
  | .optionFalse => 1
  | .optionDefault => 2

/-- The conversion of an enumerator to `bool`. -/
def SMTLIBboolValues.toBool (value : SMTLIBboolValues) : Bool := value.number ≠ 0

/-- `std::map<SMTLIBboolOptions, bool>` -/
abbrev OptionMap : Type := SMTLIBboolOptions → Option Bool

structure Printer (Query : Type) where
  /-- An output stream has been set. -/
  hasOutput : Bool
  query : Option Query
  smtlibBoolOptions : OptionMap
  arraysToCallGetValueOn : Option (List Nat)

variable {Query : Type}

/-- The constructor. -/
def Printer.new : Printer Query := ⟨false, none, fun _ => none, none⟩

/-- `map::insert`, which leaves an entry that is there, and whether it was not there. -/
def insert (map : OptionMap) (option : SMTLIBboolOptions) (value : Bool) : OptionMap × Bool :=
  if (map option).isSome then (map, false) else (Function.update map option (some value), true)

namespace Printer

variable (printer : Printer Query)

def setSMTLIBboolOption (option : SMTLIBboolOptions) (value : SMTLIBboolValues) : Printer Query :=
  let theValue := value = .optionTrue
  let thePair := insert printer.smtlibBoolOptions option theValue
  if value = .optionDefault then { printer with smtlibBoolOptions := Function.update thePair.1 option none }
  -- The enumerator is stored, not `theValue`.
  else if thePair.2 = false then { printer with smtlibBoolOptions := Function.update thePair.1 option (some value.toBool) }
  else { printer with smtlibBoolOptions := thePair.1 }

def setArrayValuesToGet (a : List Nat) : Printer Query :=
  let printer := { printer with arraysToCallGetValueOn := some a }
  if a ≠ [] then printer.setSMTLIBboolOption .produceModels .optionTrue else printer

def reset : Printer Query :=
  let printer := if printer.arraysToCallGetValueOn.isSome then printer.setSMTLIBboolOption .produceModels .optionDefault else printer
  { printer with arraysToCallGetValueOn := none }

def setQuery (q : Query) : Printer Query := { printer with query := some q }.reset

def setOutput : Printer Query := { printer with hasOutput := true }

end Printer

/-! ### The output -/

def getSMTLIBOptionString : SMTLIBboolOptions → String
  | .printSuccess => "print-success"
  | .produceModels => "produce-models"
  | .interactiveMode => "interactive-mode"

/-- The keys in their order. -/
def allOptions : List SMTLIBboolOptions := [.printSuccess, .produceModels, .interactiveMode]

/-- The entries of a map, in the order of the iteration. -/
def entries (map : OptionMap) : List (SMTLIBboolOptions × Bool) := allOptions.filterMap fun option => (map option).map (option, ·)

def optionLine (entry : SMTLIBboolOptions × Bool) : String :=
  "(set-option :" ++ getSMTLIBOptionString entry.1 ++ " " ++ (if entry.2 then "true" else "false") ++ ")"

def Printer.printOptions (printer : Printer Query) : List String := (entries printer.smtlibBoolOptions).map optionLine

/-- The option lines of `generateOutput`, which prints nothing without an output or a query. -/
def Printer.generateOutput (printer : Printer Query) : Option (List String) :=
  if printer.hasOutput = false ∨ printer.query.isNone then none else some printer.printOptions

/-! ### Runs -/

inductive Call (Query : Type)
  | setSMTLIBboolOption (option : SMTLIBboolOptions) (value : SMTLIBboolValues)
  | setArrayValuesToGet (a : List Nat)
  | setQuery (q : Query)
  | setOutput
  | generateOutput

def Printer.call (printer : Printer Query) : Call Query → Printer Query
  | .setSMTLIBboolOption option value => printer.setSMTLIBboolOption option value
  | .setArrayValuesToGet a => printer.setArrayValuesToGet a
  | .setQuery q => printer.setQuery q
  | .setOutput => printer.setOutput
  | .generateOutput => printer

/-- A printer after these calls. -/
def after (calls : List (Call Query)) : Printer Query := calls.foldl Printer.call .new

end CapTaint.ExprSMTLIBPrinter
