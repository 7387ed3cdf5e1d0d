/-
Module: OperatorTerms.Kind
Layer: Grammar
Purpose: The nine lexical kinds of an operator expression. Eight of them classify the tokens a
  caller supplies; the ninth, `term`, is the kind of anything the parser has already reduced.
  Every kind has a one-letter code, a name for people, and a one-word title.
Imports: none
Main exports: Kind, Kind.all, Kind.code, Kind.ofCode?, Kind.name, Kind.isInfix, Kind.isUnary
-/

namespace OperatorTerms

/-- The grammatical category of a token, or of an already reduced term. -/
inductive Kind where
  | assign
  | opening
  | closing
  | dyad
  | prefixOp
  | suffixOp
  | semicolon
  /-- The kind of a reduced term. Its letter is reserved: code form refuses it. -/
  | term
  | var
deriving DecidableEq, Repr, Inhabited

namespace Kind

/-- Every kind, in the order in which sets of kinds are listed. -/
def all : List Kind :=
  [assign, opening, closing, dyad, prefixOp, suffixOp, semicolon, term, var]

/-- The letter that opens the code form of a token of this kind. -/
def code : Kind → Char
  | assign => 'a'
  | opening => 'b'
  | closing => 'B'
  | dyad => 'd'
  | prefixOp => 'p'
  | suffixOp => 'q'
  | semicolon => 's'
  | term => 't'
  | var => 'v'

/-- The kind whose code is the given letter, if there is one. -/
def ofCode? (letter : Char) : Option Kind :=
  all.find? (·.code == letter)

/-- The name by which diagnostics cite a kind. -/
def name : Kind → String
  | assign => "assignment operator"
  | opening => "opening parenthesis"
  | closing => "closing parenthesis"
  | dyad => "dyadic operator"
  | prefixOp => "prefix operator"
  | suffixOp => "suffix operator"
  | semicolon => "semi-colon"
  | term => "term"
  | var => "variable"

/-- A one-word title, for listings of the grammar. -/
def title : Kind → String
  | assign => "Assign"
  | opening => "Open"
  | closing => "Close"
  | dyad => "Dyad"
  | prefixOp => "Prefix"
  | suffixOp => "Suffix"
  | semicolon => "Semicolon"
  | term => "Term"
  | var => "Variable"

/-- Kinds that stand for a complete operand. -/
def isTermLike : Kind → Bool
  | term | var => true
  | _ => false

/-- Kinds that combine a left and a right operand. -/
def isInfix : Kind → Bool
  | assign | dyad | semicolon => true
  | _ => false

/-- Kinds that take a single operand, from either side. -/
def isUnary : Kind → Bool
  | prefixOp | suffixOp => true
  | _ => false

/-- Kinds that open or close a group. -/
def isBracket : Kind → Bool
  | opening | closing => true
  | _ => false

/-- Every kind is listed. -/
theorem mem_all (k : Kind) : k ∈ all := by
  cases k <;> decide

/-- A code letter belongs to one kind only. -/
theorem ofCode?_code (k : Kind) : ofCode? k.code = some k := by
  cases k <;> decide

/-- An operator with a left and a right operand is not one with a single operand. -/
theorem isUnary_of_isInfix {k : Kind} (h : k.isInfix = true) : k.isUnary = false := by
  revert h
  cases k <;> decide

/-- An operator with a single operand is not one with a left and a right operand. -/
theorem isInfix_of_isUnary {k : Kind} (h : k.isUnary = true) : k.isInfix = false := by
  revert h
  cases k <;> decide

/-- A kind that neither opens nor closes a group is no bracket. -/
theorem bracket_or_plain (k : Kind) : k = opening ∨ k = closing ∨ k.isBracket = false := by
  cases k <;> decide

end Kind

end OperatorTerms
