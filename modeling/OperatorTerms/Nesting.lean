/-
Module: OperatorTerms.Nesting
Layer: Validation
Purpose: The bracket scan. It reads a sequence from left to right and keeps the parentheses that
  are still open, innermost first. Each closing parenthesis must pair with the innermost one, and
  none may be left open at the end. No other kind matters to it.
Imports: OperatorTerms.Diagnostic
Main exports: Nesting.step, Nesting.scan, Nesting.check
-/
import OperatorTerms.Diagnostic

namespace OperatorTerms.Nesting

/-- Reads one token, given the kind of the token before it and the parentheses still open. -/
def step (previous : Option Kind) (opened : List Placed) (next : Placed) :
    Except SyntaxError (List Placed) :=
  match next.token.kind with
  | .opening => .ok (next :: opened)
  | .closing =>
      match opened with
      | innermost :: outer =>
          if innermost.token.pairsWith next.token then
            .ok outer
          else
            .error ⟨next.position,
              .parenthesisMismatch innermost.token.label innermost.position
                next.token.label next.position⟩
      | [] =>
          .error ⟨next.position,
            .unexpectedClosing next.token.label next.position (Grammar.expectedAfter previous)⟩
  | _ => .ok opened

/-- The parentheses still open after a sequence, innermost first. -/
def scan (previous : Option Kind) (opened : List Placed) :
    List Placed → Except SyntaxError (List Placed)
  | [] => .ok opened
  | next :: rest => do
      let opened ← step previous opened next
      scan (some next.token.kind) opened rest

/-- Accepts a sequence whose parentheses all match. When some are left open, the innermost of them
    is reported. -/
def check (tokens : List Token) : Except SyntaxError Unit := do
  match ← scan none [] (Placed.all tokens) with
  | [] => .ok ()
  | innermost :: _ =>
      .error ⟨innermost.position, .unclosed innermost.token.label innermost.position⟩

end OperatorTerms.Nesting
