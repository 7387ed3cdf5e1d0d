/-
Module: OperatorTerms.Term
Layer: Terms
Purpose: Terms as plain values: an operator or atom with its operands. This is what a parse means,
  apart from how its nodes are stored. The compact form writes a term as `label(operand,
  operand)`.
Imports: OperatorTerms.Kind
Main exports: Term, Term.emptyStatement, Term.emptyGroup, Term.display, Term.height
-/
import OperatorTerms.Kind

namespace OperatorTerms

/-- A term: the kind and label of what produced it, and its operands from left to right. A leaf
    has none. -/
inductive Term where
  | node (kind : Kind) (label : String) (operands : List Term)
deriving Repr

namespace Term

/-- A term without operands. -/
def leaf (kind : Kind) (label : String) : Term := node kind label []

instance : Inhabited Term := ⟨leaf default ""⟩

/-!
### Placeholders

Where the grammar lets something be missing, a leaf of kind `Kind.term` stands in for it.
-/

/-- The label of the placeholder for a statement that is missing before a semi-colon. -/
def emptyStatementLabel : String := "empty1"

/-- The label of the placeholder for parentheses with nothing between them. -/
def emptyGroupLabel : String := "empty2"

/-- The placeholder for a missing statement. -/
def emptyStatement : Term := leaf .term emptyStatementLabel

/-- The placeholder for an empty group. -/
def emptyGroup : Term := leaf .term emptyGroupLabel

/-!
### Parts and measures
-/

/-- The kind of the outermost operator. -/
def kind : Term → Kind
  | node kind _ _ => kind

/-- The label of the outermost operator. -/
def label : Term → String
  | node _ label _ => label

mutual

/-- The compact form: the label, then the operands in parentheses if there are any. -/
def display : Term → String
  | node _ label [] => label
  | node _ label (first :: rest) => label ++ "(" ++ first.display ++ displayRest rest ++ ")"

/-- The compact forms of the operands after the first, each set off by a comma. -/
def displayRest : List Term → String
  | [] => ""
  | operand :: rest => ", " ++ operand.display ++ displayRest rest

end

mutual

/-- The number of operators and atoms on the longest path from the outermost operator down to an
    atom. -/
def height : Term → Nat
  | node _ _ operands => 1 + heightAll operands

/-- The greatest height in a list of terms. -/
def heightAll : List Term → Nat
  | [] => 0
  | operand :: rest => max operand.height (heightAll rest)

end

end Term

end OperatorTerms
