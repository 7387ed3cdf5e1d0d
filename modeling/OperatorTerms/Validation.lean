/-
Module: OperatorTerms.Validation
Layer: Validation
Purpose: Well-formedness of a token sequence, decided without building a tree. Four checks run in
  a fixed order and the first that fails decides the diagnostic: the parentheses, the first token,
  every pair of neighbours from left to right, and the last token. A sequence without tokens is
  well formed.
Imports: OperatorTerms.Nesting
Main exports: Validation.checkFirst, Validation.checkNeighbours, Validation.checkLast, validate
-/
import OperatorTerms.Nesting

namespace OperatorTerms

namespace Validation

/-- The first token must be able to open an expression. -/
def checkFirst (token : Token) : Except SyntaxError Unit :=
  if Grammar.first.contains token.kind then
    .ok ()
  else
    .error ⟨1, .unexpectedStart token.element Grammar.first⟩

/-- Every token must be able to follow the one before it. The leftmost token that is not is
    reported. -/
def checkNeighbours (previous : Token) : List Placed → Except SyntaxError Unit
  | [] => .ok ()
  | next :: rest =>
      if (Grammar.next previous.kind).contains next.token.kind then
        checkNeighbours next.token rest
      else
        .error ⟨next.position,
          .unexpectedElement next.token.element previous.element next.position
            (Grammar.next previous.kind)⟩

/-- The last token must be able to close an expression. -/
def checkLast (last : Placed) : Except SyntaxError Unit :=
  if Grammar.last.contains last.token.kind then
    .ok ()
  else
    .error ⟨last.position, .unexpectedEnd last.token.element (Grammar.next last.token.kind)⟩

end Validation

/-- Decides whether a token sequence is well formed, and why not. -/
def validate (tokens : List Token) : Except SyntaxError Unit :=
  match Placed.all tokens with
  | [] => .ok ()
  | first :: rest => do
      Nesting.check tokens
      Validation.checkFirst first.token
      Validation.checkNeighbours first.token rest
      Validation.checkLast (rest.getLastD first)

end OperatorTerms
