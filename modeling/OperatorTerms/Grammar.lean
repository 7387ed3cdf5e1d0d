/-
Module: OperatorTerms.Grammar
Layer: Grammar
Purpose: Which kind may stand where. An expression opens with a kind of `first`, closes with a
  kind of `last`, and a kind is followed only by a kind of its `next` set. Bracket matching is not
  part of these tables.
Imports: OperatorTerms.KindSet
Main exports: Grammar.first, Grammar.last, Grammar.next, Grammar.expectedAfter, Grammar.allows
-/
import OperatorTerms.KindSet

namespace OperatorTerms.Grammar

/-- Kinds that may open an expression. -/
def first : KindSet := .ofList [.opening, .prefixOp, .semicolon, .var]

/-- Kinds that may close an expression. -/
def last : KindSet := .ofList [.closing, .suffixOp, .semicolon, .var]

/-- Kinds that may follow the given one. After an operator an operand must begin; after an opening
    parenthesis or a semi-colon a statement may begin, or be missing; after a complete operand
    comes whatever can extend or end it. -/
def next : Kind → KindSet
  | .assign | .dyad | .prefixOp => .ofList [.opening, .prefixOp, .var]
  | .opening | .semicolon => .ofList [.opening, .closing, .prefixOp, .semicolon, .var]
  | .closing | .suffixOp | .term | .var =>
      .ofList [.assign, .closing, .dyad, .semicolon, .suffixOp]

/-- Kinds that may come next, when the previous kind is known or there is none. -/
def expectedAfter : Option Kind → KindSet
  | none => first
  | some previous => next previous

/-- Whether a kind may follow the previous one, or open the expression when there is none. -/
def allows (previous : Option Kind) (successor : Kind) : Bool :=
  (expectedAfter previous).contains successor

end OperatorTerms.Grammar
