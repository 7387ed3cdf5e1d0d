/-
Module: OperatorTerms.Session.Options
Layer: Session
Purpose: The options of the command line. There is one, the verbosity of the log, given at most
  once as `-v N`, `-vN`, `-v=N`, `--verbose N` or `--verbose=N`. A lone `--` at the end is
  accepted; any other argument is an error of use.
Imports: OperatorTerms.Text.Decimal
Main exports: Options, Options.ofArguments?
-/
import OperatorTerms.Text.Decimal

namespace OperatorTerms

/-- What the command line decides. -/
structure Options where
  /-- How much of the log is shown: nothing but errors at zero, everything from four on. -/
  verbosity : Nat := 1
deriving DecidableEq, Repr, Inhabited

namespace Options

/-- An argument that sets the verbosity. -/
inductive Setting where
  /-- The value is the next argument. -/
  | separate
  /-- The value is the rest of this argument. -/
  | attached (value : List Char)
deriving DecidableEq, Repr

/-- Recognises an argument that sets the verbosity. -/
def Setting.ofArgument? (argument : String) : Option Setting :=
  match argument.toList with
  | ['-', 'v'] => some .separate
  | '-' :: 'v' :: '=' :: value => some (.attached value)
  | '-' :: 'v' :: value => some (.attached value)
  | '-' :: '-' :: 'v' :: 'e' :: 'r' :: 'b' :: 'o' :: 's' :: 'e' :: rest =>
      match rest with
      | [] => some .separate
      | '=' :: value => some (.attached value)
      | _ => none
  | _ => none

/-- Verbosities are machine words. -/
def verbosityBound : Nat := UInt64.size

/-- The options, when the given value is followed by nothing but a lone `--`. -/
def ofValue? (value : List Char) (rest : List String) : Option Options :=
  if rest = [] ∨ rest = ["--"] then
    (Text.natural? verbosityBound value).map Options.mk
  else
    none

/-- Reads the arguments of the command line. -/
def ofArguments? : List String → Option Options
  | [] | ["--"] => some {}
  | argument :: rest =>
      match Setting.ofArgument? argument, rest with
      | some (.attached value), rest => ofValue? value rest
      | some .separate, value :: rest => ofValue? value.toList rest
      | _, _ => none

end Options

end OperatorTerms
