/-
Module: OperatorTerms.Token
Layer: Grammar
Purpose: The tokens that callers supply, already classified, and their code form: a kind letter
  followed by free text. For brackets the free text is the discriminator, which must be the same
  on an opening parenthesis and on the closing one that ends its group.
Imports: OperatorTerms.Kind
Main exports: Token, Token.pairsWith, Token.pairsWith_iff, Token.ofCode, Token.ofCodes, CodeError,
  Placed, Placed.all
-/
import OperatorTerms.Kind

namespace OperatorTerms

/-- A token: its kind, the text shown for it, and the discriminator compared between brackets. -/
structure Token where
  kind : Kind
  /-- Shown in diagnostics, and kept as the label of the term built from the token. -/
  label : String
  /-- Must be equal on the two parentheses of a group; no other kind uses it. -/
  discriminator : String := ""
deriving DecidableEq, Repr, Inhabited

/-- Why a code is not a token. -/
inductive CodeError where
  /-- The code has no letter. -/
  | empty
  /-- No kind has the letter that the code begins with. -/
  | unknownKind (letter : Char) (code : String)
  /-- The letter is that of `Kind.term`, which only the parser may produce. -/
  | syntheticTerm (code : String)
deriving DecidableEq, Repr, Inhabited

/-- The wording of a code error. -/
def CodeError.message : CodeError → String
  | .empty => "empty token"
  | .unknownKind letter code =>
      "unknown lexical kind '" ++ letter.toString ++ "' in token: " ++ code
  | .syntheticTerm code => "terms cannot appear in raw input: " ++ code

namespace Token

/-- Whether the first token is an opening parenthesis that the second one closes. -/
def pairsWith (opened closed : Token) : Bool :=
  opened.kind == .opening && closed.kind == .closing
    && opened.discriminator == closed.discriminator

/-- An opening parenthesis and a closing one pair if their discriminators are equal. -/
theorem pairsWith_iff {opened closed : Token} : opened.pairsWith closed = true ↔
    opened.kind = .opening ∧ closed.kind = .closing ∧
      opened.discriminator = closed.discriminator := by
  simp only [pairsWith, Bool.and_eq_true, beq_iff_eq, and_assoc]

/-- Only an opening parenthesis has a partner, which is a closing one. -/
theorem kind_of_pairsWith {opened closed : Token} (h : opened.pairsWith closed = true) :
    opened.kind = .opening ∧ closed.kind = .closing := by
  obtain ⟨hopened, hclosed, -⟩ := pairsWith_iff.1 h
  exact ⟨hopened, hclosed⟩

/-- Reads the code form of a token. The label is the whole code, letter included. -/
def ofCode (code : String) : Except CodeError Token :=
  match code.toList with
  | [] => .error .empty
  | letter :: text =>
      match Kind.ofCode? letter with
      | none => .error (.unknownKind letter code)
      | some .term => .error (.syntheticTerm code)
      | some kind =>
          .ok ⟨kind, code, if kind.isBracket then String.ofList text else ""⟩

/-- Reads a sequence of codes. The first code that is not a token decides the error. -/
def ofCodes (codes : List String) : Except CodeError (List Token) := codes.mapM ofCode

end Token

/-!
### Positions

Diagnostics count tokens from one, so the parser and the bracket scan carry each token together with
its position.
-/

/-- A place in a token sequence, counted from one. -/
abbrev Position := Nat

/-- A token together with its position in the sequence. -/
structure Placed where
  position : Position
  token : Token
deriving DecidableEq, Repr, Inhabited

/-- The tokens of a sequence with their positions, the first of which is `start`. -/
def Placed.from (start : Position) : List Token → List Placed
  | [] => []
  | token :: tokens => ⟨start, token⟩ :: Placed.from (start + 1) tokens

/-- The tokens of a whole sequence with their positions. -/
def Placed.all (tokens : List Token) : List Placed := Placed.from 1 tokens

end OperatorTerms
