/-
Module: OperatorTerms.Term.Yield
Layer: Terms
Purpose: What a term and a token sequence have in common. Written out in order, with every
  operator beside its operands where it stood in the input, a term gives back its tokens, apart
  from the parentheses, the semi-colons that separate nothing, and the placeholders that stand for
  what is missing. Both sides are lists of kinds and labels.
Imports: OperatorTerms.Diagnostic, OperatorTerms.Term
Main exports: Term.yield, Token.spelling
-/
import OperatorTerms.Diagnostic
import OperatorTerms.Term

namespace OperatorTerms

namespace Term

mutual

/-- A term written out: a suffix operator after its operand, an infix operator after the first of
    its operands, and any other operator before its operands. -/
def yield : Term → List Element
  | node kind label [] => [⟨kind, label⟩]
  | node kind label (first :: rest) =>
      if kind.isInfix then
        first.yield ++ ⟨kind, label⟩ :: yieldAll rest
      else if kind == .suffixOp then
        first.yield ++ yieldAll rest ++ [⟨kind, label⟩]
      else
        ⟨kind, label⟩ :: (first.yield ++ yieldAll rest)

/-- A list of terms written out one after the other. -/
def yieldAll : List Term → List Element
  | [] => []
  | term :: rest => term.yield ++ yieldAll rest

end

end Term

namespace Token

/-- Whether a statement is missing before a semi-colon, given the kind of the token before it. -/
def statementMissing : Option Kind → Bool
  | none | some .opening | some .semicolon => true
  | _ => false

/-- Whether nothing stands between an opening parenthesis and its partner, given the tokens after
    it. -/
def groupEmpty : List Token → Bool
  | [] => false
  | next :: _ => next.kind == .closing

/-- Whether a semi-colon separates nothing, given the tokens after it. -/
def separatesNothing : List Token → Bool
  | [] => true
  | next :: _ => next.kind == .closing

/-- A token sequence as it shows in a term: a placeholder before a semi-colon whose statement is
    missing and in place of parentheses with nothing between them, no semi-colon that separates
    nothing, and no other parenthesis. The first argument is the kind of the token before. -/
def spelling (previous : Option Kind) : List Token → List Element
  | [] => []
  | token :: rest =>
      let later := spelling (some token.kind) rest
      match token.kind with
      | .opening =>
          if groupEmpty rest then ⟨.term, Term.emptyGroupLabel⟩ :: later else later
      | .closing => later
      | .semicolon =>
          (if statementMissing previous then [⟨.term, Term.emptyStatementLabel⟩] else [])
            ++ (if separatesNothing rest then [] else [token.element]) ++ later
      | _ => token.element :: later

end Token

end OperatorTerms
