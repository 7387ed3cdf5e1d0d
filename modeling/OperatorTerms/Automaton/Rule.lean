/-
Module: OperatorTerms.Automaton.Rule
Layer: Parsing
Purpose: The five rules that reduce the top of the stack, and their use until none applies. Every
  rule replaces the topmost two or three items by one, so the stack gets shorter each time and
  reduction ends. Because only the top is ever reduced, a chain of infix operators groups to the
  right.
Imports: OperatorTerms.Automaton.State
Main exports: Rule, Rule.reduct?, State.reduce?, State.reduceAll, State.reducePrefixes
-/
import OperatorTerms.Automaton.State

namespace OperatorTerms

/-- A way to reduce the top of the stack. -/
inductive Rule where
  /-- A term, an infix operator and a term become the operator's term. -/
  | infixOperator
  /-- A term between matching parentheses loses them. -/
  | group
  /-- Matching parentheses with nothing between them become a placeholder. -/
  | emptyGroup
  /-- A semi-colon just below a closing parenthesis is removed. -/
  | redundantSemicolon
  /-- A prefix or suffix operator just below a term is applied to it. -/
  | unaryOperator
deriving DecidableEq, Repr, Inhabited

namespace Rule

/-- The rules, in the order in which they are tried. -/
def all : List Rule := [infixOperator, group, emptyGroup, redundantSemicolon, unaryOperator]

/-- The state after the rule, if the top of the stack has the form that the rule reduces. -/
def reduct? (rule : Rule) (state : State) : Option State :=
  match rule, state.stack with
  | infixOperator, .term right :: .token operator :: .term left :: below =>
      if operator.token.kind.isInfix then
        some ((state.note (.reduceInfix operator.token.label)).build
          operator.token [left, right] below)
      else
        none
  | group, .token closed :: .term inner :: .token opened :: below =>
      if opened.token.pairsWith closed.token then
        some { state.note (.reduceGroup opened.token.label closed.token.label) with
          stack := .term inner :: below }
      else
        none
  | emptyGroup, .token closed :: .token opened :: below =>
      if opened.token.pairsWith closed.token then
        some ((state.note (.reduceEmptyGroup opened.token.label closed.token.label)).buildLeaf
          .term Term.emptyGroupLabel below)
      else
        none
  | redundantSemicolon, .token closed :: .token semicolon :: below =>
      if semicolon.token.kind == .semicolon && closed.token.kind == .closing then
        some { state.note (.dropSemicolon semicolon.token.label closed.token.label) with
          stack := .token closed :: below }
      else
        none
  | unaryOperator, .term operand :: .token operator :: below =>
      if operator.token.kind.isUnary then
        some ((state.note (.reduceUnary operator.token.label)).build
          operator.token [operand] below)
      else
        none
  | _, _ => none

/-- Every rule leaves fewer items than it found. -/
theorem length_lt_of_reduct? {rule : Rule} {state state' : State}
    (h : rule.reduct? state = some state') : state'.stack.length < state.stack.length := by
  rcases state with ⟨stack, forest, log⟩
  unfold reduct? at h
  split at h
  all_goals first
    | contradiction
    | (split at h
       · cases h
         rename_i hstack _
         simp_all [State.note, State.build, State.buildLeaf]
       · contradiction)

end Rule

namespace State

/-- Applies the first of the given rules that fits the top of the stack. -/
def reduceWith? (rules : List Rule) (state : State) : Option State :=
  rules.findSome? (·.reduct? state)

/-- Applies the first rule that fits the top of the stack. -/
def reduce? (state : State) : Option State := state.reduceWith? Rule.all

/-- Whichever rule is applied, fewer items are left. -/
theorem length_lt_of_reduceWith? {rules : List Rule} {state state' : State}
    (h : state.reduceWith? rules = some state') : state'.stack.length < state.stack.length := by
  obtain ⟨rule, _, hrule⟩ := List.exists_of_findSome?_eq_some h
  exact Rule.length_lt_of_reduct? hrule

/-- Applies rules to the top of the stack until none fits, trying them in the given order. -/
def reduceAllWith (rules : List Rule) (state : State) : State :=
  match _ : state.reduceWith? rules with
  | none => state
  | some reduced => reduced.reduceAllWith rules
termination_by state.stack.length
decreasing_by exact length_lt_of_reduceWith? ‹_›

/-- Applies rules to the top of the stack until none fits. -/
def reduceAll (state : State) : State := state.reduceAllWith Rule.all

/-- Applies the prefix operator directly below the term on top, if there is one. -/
def prefixReduct? (state : State) : Option State :=
  match state.stack with
  | .term _ :: .token operator :: _ =>
      if operator.token.kind == .prefixOp then Rule.unaryOperator.reduct? state else none
  | _ => none

/-- Applying a prefix operator leaves fewer items. -/
theorem length_lt_of_prefixReduct? {state state' : State}
    (h : state.prefixReduct? = some state') : state'.stack.length < state.stack.length := by
  unfold prefixReduct? at h
  split at h
  · split at h
    · exact Rule.length_lt_of_reduct? h
    · contradiction
  · contradiction

/-- Applies the prefix operators directly below the term on top, the nearest first. -/
def reducePrefixes (state : State) : State :=
  match _ : state.prefixReduct? with
  | none => state
  | some reduced => reduced.reducePrefixes
termination_by state.stack.length
decreasing_by exact length_lt_of_prefixReduct? ‹_›

end State

end OperatorTerms
