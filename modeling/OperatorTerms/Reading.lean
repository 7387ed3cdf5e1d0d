/-
Module: OperatorTerms.Reading
Layer: Meaning
Purpose: What an expression means, by recursion on its parentheses. The tokens are first arranged
  into pieces, a piece being a token or a group with its own pieces. Each level is then read from
  left to right with a chain of operands that wait for the right side of their infix operator, the
  prefix operators that wait for their operand, and the operand read last. A group ends the chain
  of the level it stands in: what follows applies to the whole of what was read so far.
Imports: OperatorTerms.Term, OperatorTerms.Token
Main exports: Piece, Piece.arrange, Reading, Reading.value?, Piece.read, meaning?
-/
import OperatorTerms.Term
import OperatorTerms.Token

namespace OperatorTerms

/-- A token that is no parenthesis, or a group with what stands between its parentheses. -/
inductive Piece where
  | plain (token : Token)
  | group (opened closed : Token) (inner : List Piece)
deriving Repr

/-- A group that is still open: its opening parenthesis, and the pieces before it on the level
    around it, newest first. -/
structure OpenGroup where
  opened : Token
  before : List Piece

namespace Piece

/-- Arranges tokens into pieces, given the groups still open, innermost first, and the pieces of
    the current level, newest first. There is no arrangement unless the parentheses match. -/
def arrangeFrom (around : List OpenGroup) (level : List Piece) :
    List Token → Option (List Piece)
  | [] => if around.isEmpty then some level.reverse else none
  | token :: rest =>
      match token.kind with
      | .opening => arrangeFrom (⟨token, level⟩ :: around) [] rest
      | .closing =>
          match around with
          | [] => none
          | innermost :: outer =>
              if innermost.opened.pairsWith token then
                arrangeFrom outer
                  (Piece.group innermost.opened token level.reverse :: innermost.before) rest
              else
                none
      | _ => arrangeFrom around (Piece.plain token :: level) rest

/-- The pieces of a sequence. -/
def arrange (tokens : List Token) : Option (List Piece) := arrangeFrom [] [] tokens

end Piece

/-- A level as far as it has been read. -/
structure Reading where
  /-- Operands with the infix operators after them, newest first. -/
  chain : List (Term × Token) := []
  /-- Prefix operators without operand, nearest first. -/
  prefixes : List Token := []
  /-- The operand read last, unless an operator followed it. -/
  current : Option Term := none
deriving Repr, Inhabited

namespace Reading

/-- The term of a token over the given operands. -/
def node (token : Token) (operands : List Term) : Term := .node token.kind token.label operands

/-- Closes the chain with a last operand. The newest operator is applied first, so the chain nests
    to the right. -/
def closeChain (reading : Reading) (last : Term) : Term :=
  reading.chain.foldl (fun right link => node link.2 [link.1, right]) last

/-- Applies the waiting prefix operators to an operand, the nearest first. -/
def applyPrefixes (reading : Reading) (operand : Term) : Term :=
  reading.prefixes.foldl (fun operand operator => node operator [operand]) operand

/-- Reads a token that is no parenthesis. -/
def take (reading : Reading) (token : Token) : Reading :=
  match token.kind with
  | .var =>
      { reading with
        prefixes := []
        current := some (reading.applyPrefixes (node token [])) }
  | .prefixOp => { reading with prefixes := token :: reading.prefixes }
  | .suffixOp =>
      { reading with current := reading.current.map fun operand => node token [operand] }
  | .assign | .dyad =>
      match reading.current with
      | some operand =>
          { reading with chain := (operand, token) :: reading.chain, current := none }
      | none => reading
  | .semicolon =>
      let last := reading.current.getD .emptyStatement
      { reading with chain := [(reading.closeChain last, token)], current := none }
  | .opening | .closing | .term => reading

/-- Reads a group whose inside has the given value. -/
def takeGroup (reading : Reading) (inner : Term) : Reading :=
  { current := some (reading.closeChain (reading.applyPrefixes inner)) }

/-- The value of a level at its end. A semi-colon that nothing follows separates nothing. -/
def value? (reading : Reading) : Option Term :=
  match reading.current, reading.chain with
  | some last, _ => some (reading.closeChain last)
  | none, [(operand, _)] => some operand
  | none, _ => none

end Reading

namespace Piece

mutual

/-- Reads a piece. The inside of a group is read as a level of its own; a group with nothing
    inside is a placeholder. -/
def read (reading : Reading) : Piece → Reading
  | .plain token => reading.take token
  | .group _ _ inner =>
      reading.takeGroup ((readAll {} inner).value?.getD .emptyGroup)

/-- Reads pieces from left to right. -/
def readAll (reading : Reading) : List Piece → Reading
  | [] => reading
  | piece :: rest => readAll (piece.read reading) rest

end

end Piece

/-- The meaning of a sequence: the value of its outermost level. -/
def meaning? (tokens : List Token) : Option Term := do
  (Piece.readAll {} (← Piece.arrange tokens)).value?

end OperatorTerms
