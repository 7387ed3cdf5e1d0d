/-
Module: OperatorTerms.Parse
Layer: Parsing
Purpose: Parsing a whole sequence: take every token, complete what is left on the stack, and
  return the one term that remains as a tree. The first violation ends the parse with a
  diagnostic, and a sequence without tokens is incomplete.
Imports: OperatorTerms.Automaton.Step, OperatorTerms.Validation
Main exports: State.complete, State.finish, parseTraced, parse, validateTraced
-/
import OperatorTerms.Automaton.Step
import OperatorTerms.Validation

namespace OperatorTerms

namespace State

/-- Completes what is on the stack when there are no more tokens. A semi-colon at the very end is
    removed first, for it separates nothing. -/
def complete (state : State) : State :=
  match state.stack with
  | .token top :: below =>
      if top.token.kind == .semicolon then { state with stack := below }.reduceAll
      else state.reduceAll
  | _ => state.reduceAll

/-- The outcome once the given token, the last one, has been taken. -/
def finish (state : State) (last : Placed) : Outcome Tree :=
  let state := state.complete
  match state.stack with
  | [.term root] =>
      let tree : Tree := ⟨state.forest, root⟩
      if Grammar.last.contains last.token.kind then
        ⟨(state.note (.parsed tree.display)).log.reverse, .ok tree⟩
      else
        ⟨state.log.reverse,
          .error ⟨last.position,
            .unexpectedEnd last.token.element (Grammar.next last.token.kind)⟩⟩
  | stack =>
      ⟨(state.note (.unreduced stack.length)).log.reverse,
        .error ⟨last.position, .incomplete last.token.element (Grammar.next last.token.kind)⟩⟩

end State

/-- Parses a sequence, with a record of every step. -/
def parseTraced (tokens : List Token) : Outcome Tree :=
  let start := State.initial tokens.length
  match (Placed.all tokens).getLast? with
  | none => ⟨start.log, .error ⟨1, .empty Grammar.first⟩⟩
  | some last =>
      match start.acceptAll (Placed.all tokens) with
      | .error failure => ⟨failure.log.reverse, .error failure.error⟩
      | .ok state => state.finish last

/-- Parses a sequence into a tree, or says why it is no expression. -/
def parse (tokens : List Token) : Except SyntaxError Tree := (parseTraced tokens).result

/-- Validates a sequence, with a record of it. -/
def validateTraced (tokens : List Token) : Outcome Unit :=
  ⟨[.validating tokens.length], validate tokens⟩

end OperatorTerms
