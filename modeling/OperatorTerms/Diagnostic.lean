/-
Module: OperatorTerms.Diagnostic
Layer: Diagnostics
Purpose: What can be wrong with a token sequence, and how it is worded. Validation and parsing
  share this vocabulary. A diagnostic is data (a position and a reason that cites what was found
  and what would have been accepted); its text is computed from the reason alone.
Imports: OperatorTerms.Grammar, OperatorTerms.Token
Main exports: Element, Reason, ErrorClass, SyntaxError, Reason.message, SyntaxError.describe
-/
import OperatorTerms.Grammar
import OperatorTerms.Token

namespace OperatorTerms

/-- A token or a term as a diagnostic cites it. -/
structure Element where
  kind : Kind
  label : String
deriving DecidableEq, Repr, Inhabited

/-- The citation, such as `variable: v1`. -/
def Element.text (element : Element) : String := element.kind.name ++ ": " ++ element.label

/-- A token as a diagnostic cites it: its discriminator is left out. -/
def Token.element (token : Token) : Element := ⟨token.kind, token.label⟩

/-- Why a token sequence is rejected. Every set is the set of kinds accepted at that place. -/
inductive Reason where
  /-- A group is closed by a parenthesis whose discriminator is not that of the one that opened
      it. -/
  | parenthesisMismatch (opened : String) (openedAt : Position) (closed : String)
      (closedAt : Position)
  /-- A closing parenthesis has no group to close. -/
  | unexpectedClosing (closed : String) (position : Position) (expected : KindSet)
  /-- A group is never closed. -/
  | unclosed (opened : String) (position : Position)
  /-- The first element cannot open an expression. -/
  | unexpectedStart (element : Element) (expected : KindSet)
  /-- An element cannot follow the one before it. -/
  | unexpectedElement (element previous : Element) (position : Position) (expected : KindSet)
  /-- The last element cannot close an expression. -/
  | unexpectedEnd (last : Element) (expected : KindSet)
  /-- The tokens ran out before the expression was complete. -/
  | incomplete (last : Element) (expected : KindSet)
  /-- There are no tokens at all. -/
  | empty (expected : KindSet)
deriving DecidableEq, Repr

/-- The four families of reasons. -/
inductive ErrorClass where
  /-- Parentheses that do not match. -/
  | structural
  /-- An element that may not follow its predecessor. -/
  | transition
  /-- An element that may not open or close an expression. -/
  | boundary
  /-- More tokens are needed. -/
  | incomplete
deriving DecidableEq, Repr, Inhabited

/-- The name of a family of reasons. -/
def ErrorClass.name : ErrorClass → String
  | .structural => "structural"
  | .transition => "transition"
  | .boundary => "boundary"
  | .incomplete => "incomplete expression"

namespace Reason

/-- The family that a reason belongs to. -/
def errorClass : Reason → ErrorClass
  | parenthesisMismatch .. | unexpectedClosing .. | unclosed .. => .structural
  | unexpectedElement .. => .transition
  | unexpectedStart .. | unexpectedEnd .. => .boundary
  | incomplete .. | empty .. => .incomplete

/-- The wording of a reason. -/
def message : Reason → String
  | parenthesisMismatch opened openedAt closed closedAt =>
      "Parenthesis mismatch between " ++ opened ++ " at position " ++ toString openedAt
        ++ " and " ++ closed ++ " at position " ++ toString closedAt ++ "."
  | unexpectedClosing closed position expected =>
      "Unexpected closing parenthesis: " ++ closed ++ " at position " ++ toString position
        ++ ". Expected: " ++ expected.describe ++ "."
  | unclosed opened position =>
      "No closing parenthesis matching " ++ opened ++ " at position " ++ toString position ++ "."
  | unexpectedStart element expected =>
      "Expression must start with " ++ expected.describe ++ ", not " ++ element.text ++ "."
  | unexpectedElement element previous position expected =>
      "Unexpected " ++ element.text ++ " following " ++ previous.text ++ " at position "
        ++ toString position ++ ". Expected: " ++ expected.describe ++ "."
  | unexpectedEnd last expected =>
      "Expected: " ++ expected.describe ++ " after final " ++ last.text ++ "."
  | incomplete last expected =>
      "Incomplete expression. Expected: " ++ expected.describe ++ " after final " ++ last.text
        ++ "."
  | empty expected => "Empty expression. Expected: " ++ expected.describe ++ "."

end Reason

/-- A rejected token sequence: the reason, and the position at which it was detected. -/
structure SyntaxError where
  position : Position
  reason : Reason
deriving DecidableEq, Repr

namespace SyntaxError

/-- The wording of the error, which is that of its reason. -/
def message (error : SyntaxError) : String := error.reason.message

/-- The family of the error's reason. -/
def errorClass (error : SyntaxError) : ErrorClass := error.reason.errorClass

/-- The wording with the family in front. -/
def describe (error : SyntaxError) : String :=
  error.errorClass.name ++ " error: " ++ error.message

end SyntaxError

end OperatorTerms
