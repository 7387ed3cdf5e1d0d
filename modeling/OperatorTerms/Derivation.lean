/-
Module: OperatorTerms.Derivation
Layer: Grammar
Purpose: The language of expressions as a context-free grammar. A sequence is made of statements
  with semi-colons between them, any of which may be missing; a statement is made of operands with
  assignment and dyadic operators between them; an operand is an atom with prefix operators before
  and suffix operators after it; an atom is a variable or a sequence in parentheses with equal
  discriminators.
Imports: OperatorTerms.Token
Main exports: Phrase, Derives
-/
import OperatorTerms.Token

namespace OperatorTerms

/-- The four categories of phrases. -/
inductive Phrase where
  | sequence
  | statement
  | operand
  | atom
deriving DecidableEq, Repr

/-- The tokens that form a phrase of a category. -/
inductive Derives : Phrase → List Token → Prop where
  /-- A sequence may be empty. -/
  | nothing : Derives .sequence []
  /-- A sequence may be a single statement. -/
  | single {tokens : List Token} : Derives .statement tokens → Derives .sequence tokens
  /-- A sequence may begin with a semi-colon, the statement before it being missing. -/
  | missing {semicolon : Token} {rest : List Token} :
      semicolon.kind = .semicolon → Derives .sequence rest →
        Derives .sequence (semicolon :: rest)
  /-- A sequence may begin with a statement and a semi-colon. -/
  | separated {tokens : List Token} {semicolon : Token} {rest : List Token} :
      Derives .statement tokens → semicolon.kind = .semicolon → Derives .sequence rest →
        Derives .sequence (tokens ++ semicolon :: rest)
  /-- A statement may be a single operand. -/
  | lone {tokens : List Token} : Derives .operand tokens → Derives .statement tokens
  /-- A statement may be an operand, an infix operator and a statement. -/
  | combined {tokens : List Token} {operator : Token} {rest : List Token} :
      Derives .operand tokens → operator.kind = .assign ∨ operator.kind = .dyad →
        Derives .statement rest → Derives .statement (tokens ++ operator :: rest)
  /-- An operand is an atom between prefix and suffix operators. -/
  | affixed {prefixes tokens suffixes : List Token} :
      (∀ operator ∈ prefixes, operator.kind = .prefixOp) → Derives .atom tokens →
        (∀ operator ∈ suffixes, operator.kind = .suffixOp) →
          Derives .operand (prefixes ++ tokens ++ suffixes)
  /-- A variable is an atom. -/
  | name {token : Token} : token.kind = .var → Derives .atom [token]
  /-- A sequence between parentheses with equal discriminators is an atom. -/
  | group {opened closed : Token} {inner : List Token} :
      opened.kind = .opening → closed.kind = .closing →
        opened.discriminator = closed.discriminator → Derives .sequence inner →
          Derives .atom (opened :: inner ++ [closed])

end OperatorTerms
