/-
Module: OperatorTerms.Log
Layer: Diagnostics
Purpose: What a run reports about itself while it works. Validation and parsing record what they
  do as data; the wording and the level of each record are functions of it, so that a log can be
  filtered and printed by whoever asked for it.
Imports: OperatorTerms.Diagnostic
Main exports: Level, Record, Record.level, Record.message, Record.text, Outcome
-/
import OperatorTerms.Diagnostic

namespace OperatorTerms

/-- How much a record matters. -/
inductive Level where
  | error
  | warn
  | info
  | debug
  | trace
deriving DecidableEq, Repr, Inhabited

namespace Level

/-- The level as records show it. -/
def name : Level → String
  | error => "ERROR"
  | warn => "WARN"
  | info => "INFO"
  | debug => "DEBUG"
  | trace => "TRACE"

/-- The verbosity from which on records of the level are shown. -/
def threshold : Level → Nat
  | error => 0
  | warn => 1
  | info => 2
  | debug => 3
  | trace => 4

end Level

/-- One step that a run reports. Labels are those of the tokens involved. -/
inductive Record where
  /-- A sequence is about to be validated. -/
  | validating (tokens : Nat)
  /-- A sequence is about to be parsed. -/
  | parsing (tokens : Nat)
  /-- A token may follow what is on the stack, which holds so many items. -/
  | shift (label : String) (items : Nat)
  /-- An infix operator was applied to the terms on its two sides. -/
  | reduceInfix (label : String)
  /-- A prefix or suffix operator was applied to its operand. -/
  | reduceUnary (label : String)
  /-- The parentheses around a term were removed. -/
  | reduceGroup (opened closed : String)
  /-- Parentheses with nothing between them became a placeholder. -/
  | reduceEmptyGroup (opened closed : String)
  /-- A semi-colon just before a closing parenthesis was removed. -/
  | dropSemicolon (label closed : String)
  /-- The tokens ran out with so many items on the stack. -/
  | unreduced (items : Nat)
  /-- A tree was built; this is its compact form. -/
  | parsed (display : String)
  /-- A line of input was accepted with the given tree. -/
  | lineParsed (number : Nat) (display : String)
  /-- All lines were read, and so many of them were rejected. -/
  | finished (failures : Nat)
deriving DecidableEq, Repr

namespace Record

/-- The level of a record: single steps of the parser are traced, whole sequences and lines are
    debugging aids, and the summary of a session is information. -/
def level : Record → Level
  | validating .. | parsing .. | unreduced .. | parsed .. | lineParsed .. => .debug
  | shift .. | reduceInfix .. | reduceUnary .. | reduceGroup .. | reduceEmptyGroup ..
  | dropSemicolon .. => .trace
  | finished .. => .info

/-- The wording of a record. -/
def message : Record → String
  | validating tokens => "Validating " ++ toString tokens ++ " tokens"
  | parsing tokens => "Parsing " ++ toString tokens ++ " tokens"
  | shift label items => "Shift " ++ label ++ " onto " ++ toString items ++ " items"
  | reduceInfix label => "Reduce " ++ label ++ " over two operands"
  | reduceUnary label => "Reduce " ++ label ++ " over one operand"
  | reduceGroup opened closed => "Reduce " ++ opened ++ " " ++ closed
  | reduceEmptyGroup opened closed => "Reduce empty " ++ opened ++ " " ++ closed
  | dropSemicolon label closed => "Drop " ++ label ++ " before " ++ closed
  | unreduced items => "Parse ended with " ++ toString items ++ " unreduced items"
  | parsed display => "Parsed " ++ display
  | lineParsed number display => "Line " ++ toString number ++ ": " ++ display
  | finished failures => "Finished with " ++ toString failures ++ " failures"

/-- Whether a record is shown at the given verbosity. -/
def isShown (verbosity : Nat) (record : Record) : Bool :=
  record.level.threshold ≤ verbosity

/-- The record as a line of a printed log. -/
def text (record : Record) : String := record.level.name ++ " - " ++ record.message ++ "\n"

end Record

/-- The result of checking or parsing a sequence, with the records made on the way, the oldest
    first. -/
structure Outcome (α : Type) where
  log : List Record
  result : Except SyntaxError α

end OperatorTerms
