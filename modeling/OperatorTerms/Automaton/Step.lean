/-
Module: OperatorTerms.Automaton.Step
Layer: Parsing
Purpose: How the parser takes one more token. The token must be able to follow the item on top of
  the stack; then its kind decides. Operators and opening parentheses wait on the stack, a
  variable becomes a term under the prefixes before it, a suffix is applied at once, a closing
  parenthesis or a semi-colon first completes what stands to its left.
Imports: OperatorTerms.Automaton.Rule
Main exports: State.accept, State.acceptAll
-/
import OperatorTerms.Automaton.Rule

namespace OperatorTerms

namespace State

/-- Rejects a token that cannot follow the item on top of the stack or, with nothing on it, cannot
    be the first. -/
def reject {α : Type} (state : State) (next : Placed) : Except Failure α :=
  match state.stack with
  | [] => state.fail next.position (.unexpectedStart next.token.element Grammar.first)
  | top :: _ =>
      state.fail next.position
        (.unexpectedElement next.token.element (top.element state.forest) next.position
          (Grammar.next top.kind))

/-- A closing parenthesis that no rule removed has met an opening one that does not pair with it,
    or none at all. -/
def rejectClosing {α : Type} (state : State) (closed : Placed) (below : List Item) :
    Except Failure α :=
  let mismatch (opened : Placed) : Except Failure α :=
    state.fail closed.position
      (.parenthesisMismatch opened.token.label opened.position closed.token.label closed.position)
  let unexpected : Except Failure α :=
    state.fail closed.position
      (.unexpectedClosing closed.token.label closed.position
        (Grammar.expectedAfter (below.head?.map Item.kind)))
  match below with
  | .term _ :: .token opened :: _ =>
      if opened.token.kind == .opening then mismatch opened else unexpected
  | .token opened :: _ => if opened.token.kind == .opening then mismatch opened else unexpected
  | _ => unexpected

/-- Completes the group on top and closes it. -/
def acceptClosing (state : State) (closed : Placed) : Except Failure State :=
  let state := (state.reduceAll.push (.token closed)).reduceAll
  match state.stack with
  | .token top :: below =>
      if top = closed then state.rejectClosing closed below else .ok state
  | _ => .ok state

/-- Applies a suffix operator to the term on top. -/
def acceptSuffix (state : State) (suffix : Placed) : Except Failure State :=
  match state.stack with
  | .term operand :: below =>
      let state := { state with stack := .term operand :: .token suffix :: below }
      .ok ((Rule.unaryOperator.reduct? state).getD state)
  | _ => state.reject suffix

/-- Completes the statement on top, which is a placeholder when there is none, and puts the
    semi-colon after it. -/
def acceptSemicolon (state : State) (semicolon : Placed) : State :=
  let state :=
    if state.topIsTerm then state else state.buildLeaf .term Term.emptyStatementLabel state.stack
  state.reduceAll.push (.token semicolon)

/-- Turns a variable into a term and applies the prefix operators before it. -/
def acceptVariable (state : State) (name : Placed) : State :=
  (state.buildLeaf name.token.kind name.token.label state.stack).reducePrefixes

/-- Takes the next token. -/
def accept (state : State) (next : Placed) : Except Failure State :=
  if (Grammar.expectedAfter state.topKind?).contains next.token.kind then
    let state := state.note (.shift next.token.label state.stack.length)
    match next.token.kind with
    | .assign | .dyad | .opening | .prefixOp => .ok (state.push (.token next))
    | .closing => state.acceptClosing next
    | .suffixOp => state.acceptSuffix next
    | .semicolon => .ok (state.acceptSemicolon next)
    | .var => .ok (state.acceptVariable next)
    | .term => state.reject next
  else
    state.reject next

/-- Takes a sequence of tokens, up to the first that is rejected. -/
def acceptAll (state : State) (tokens : List Placed) : Except Failure State :=
  tokens.foldlM accept state

end State

end OperatorTerms
