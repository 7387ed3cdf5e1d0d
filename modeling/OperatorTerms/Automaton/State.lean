/-
Module: OperatorTerms.Automaton.State
Layer: Parsing
Purpose: What the parser holds between two tokens: a stack that mixes tokens not yet reduced with
  the nodes of terms already built, the forest those nodes live in, and the records made so far.
  The stack is written top first.
Imports: OperatorTerms.Tree, OperatorTerms.Log
Main exports: Item, Item.kind, State, State.push, State.topKind?, Failure
-/
import OperatorTerms.Log
import OperatorTerms.Tree

namespace OperatorTerms

/-- An item of the stack: a token waiting to be reduced, or the node of a term. -/
inductive Item where
  | token (placed : Placed)
  | term (id : NodeId)
deriving DecidableEq, Repr, Inhabited

namespace Item

/-- The kind that decides what may follow an item. Every term counts as `Kind.term`, whatever
    produced it. -/
def kind : Item → Kind
  | token placed => placed.token.kind
  | term _ => .term

/-- Whether the item is a term. -/
def isTerm : Item → Bool
  | token _ => false
  | term _ => true

/-- The item as a diagnostic cites it: a term goes by the label of its node. -/
def element (forest : Forest) : Item → Element
  | token placed => placed.token.element
  | term id => ⟨.term, (forest.node id).label⟩

end Item

/-- The parser between two tokens. -/
structure State where
  /-- The items, top first. -/
  stack : List Item
  forest : Forest
  /-- The records made so far, newest first. -/
  log : List Record
deriving DecidableEq, Repr

/-- A parse that cannot go on: the diagnostic, and the records made so far, newest first. -/
structure Failure where
  error : SyntaxError
  log : List Record
deriving DecidableEq, Repr

namespace State

/-- Nothing on the stack and no terms, at the start of a sequence of the given length. -/
def initial (tokens : Nat) : State := ⟨[], {}, [.parsing tokens]⟩

/-- Puts an item on top of the stack. -/
def push (state : State) (item : Item) : State := { state with stack := item :: state.stack }

/-- Adds a record to the log. -/
def note (state : State) (record : Record) : State := { state with log := record :: state.log }

/-- Builds the term of an operator over the given nodes and puts it on the given stack. -/
def build (state : State) (operator : Token) (operands : List NodeId) (below : List Item) : State :=
  { state with
    stack := .term state.forest.size :: below
    forest := state.forest.apply operator.kind operator.label operands }

/-- Builds a term without operands and puts it on the given stack. -/
def buildLeaf (state : State) (kind : Kind) (label : String) (below : List Item) : State :=
  { state with
    stack := .term state.forest.size :: below
    forest := state.forest.leaf kind label }

/-- The kind of the item on top, if there is one. -/
def topKind? (state : State) : Option Kind := state.stack.head?.map Item.kind

/-- Whether there is a term on top. -/
def topIsTerm (state : State) : Bool := state.stack.head?.any Item.isTerm

/-- Gives up with a diagnostic. -/
def fail {α : Type} (state : State) (position : Position) (reason : Reason) : Except Failure α :=
  .error ⟨⟨position, reason⟩, state.log⟩

end State

end OperatorTerms
