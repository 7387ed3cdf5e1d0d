/-
Module: OperatorTerms.Proofs.RuleOrder
Layer: Proofs
Purpose: Why the order of the rules does not matter. The two topmost items leave one rule open, so
  on any stack at most one rule fits and reduction never has a choice. Since every rule that is
  applied shortens the stack, reduction comes to an end, and all ways to get there apply the same
  rules in turn and leave the same state, whatever the order in which the rules are tried and
  whether or not this order stays the same from one time to the next.
Imports: OperatorTerms.Automaton.Rule
Main exports: Rule.candidate, Rule.eq_candidate_of_reduct?, Fires, State.Settled,
  Fires.length_add_length_le, Fires.determined, State.exists_fires_reduceAllWith,
  State.settled_reduceAllWith, State.exists_fires_iff, State.reduceAllWith_eq_reduceAll
-/
import OperatorTerms.Automaton.Rule

namespace OperatorTerms

/-- Rules applied one after the other, each of them any rule that fits at the time. -/
inductive Fires : List Rule → State → State → Prop where
  | none {state : State} : Fires [] state state
  | next {rule : Rule} {later : List Rule} {state between result : State} :
      rule.reduct? state = some between → Fires later between result →
        Fires (rule :: later) state result

/-- No rule fits the top of the stack. -/
def State.Settled (state : State) : Prop := ∀ rule : Rule, rule.reduct? state = none

variable {rule other : Rule} {rules fired fired' : List Rule}
  {state reduced reduced' result result' : State}

namespace Rule

theorem mem_all (rule : Rule) : rule ∈ all := by
  cases rule <;> decide

/-- The rule that the two topmost items leave open, whether or not it fits in the end. -/
def candidate : List Item → Rule
  | .term _ :: .token operator :: _ =>
      if operator.token.kind.isInfix then infixOperator else unaryOperator
  | .token _ :: .token below :: _ =>
      if below.token.kind == .opening then emptyGroup else redundantSemicolon
  | _ => group

/-- A rule that fits is the one that the two topmost items leave open. -/
theorem eq_candidate_of_reduct? (h : rule.reduct? state = some reduced) :
    rule = candidate state.stack := by
  unfold reduct? at h
  split at h
  case h_6 => contradiction
  all_goals
    rename_i hstack
    rw [hstack]
    split at h
    case isFalse => contradiction
  case h_1.isTrue hinfix => simp [candidate, hinfix]
  case h_2.isTrue => rfl
  case h_3.isTrue hpairs => simp [candidate, (Token.kind_of_pairsWith hpairs).1]
  case h_4.isTrue hkinds =>
    simp only [Bool.and_eq_true, beq_iff_eq] at hkinds
    simp [candidate, hkinds.1]
  case h_5.isTrue hunary => simp [candidate, Kind.isInfix_of_isUnary hunary]

/-- On any stack at most one rule fits. -/
theorem eq_of_reduct? (h : rule.reduct? state = some reduced)
    (h' : other.reduct? state = some reduced') : rule = other :=
  (eq_candidate_of_reduct? h).trans (eq_candidate_of_reduct? h').symm

end Rule

namespace Fires

/-- Each rule that is applied takes at least one item off the stack. -/
theorem length_add_length_le (h : Fires fired state result) :
    fired.length + result.stack.length ≤ state.stack.length := by
  induction h with
  | none => simp
  | next hreduct _ ih =>
      have hlt := Rule.length_lt_of_reduct? hreduct
      rw [List.length_cons]
      omega

/-- Rules are applied in one way only until none fits. -/
theorem determined (h : Fires fired state result) (hsettled : result.Settled)
    (h' : Fires fired' state result') (hsettled' : result'.Settled) :
    fired = fired' ∧ result = result' := by
  induction h generalizing fired' with
  | none =>
      cases h' with
      | none => exact ⟨rfl, rfl⟩
      | next hreduct _ =>
          rw [hsettled] at hreduct
          contradiction
  | next hreduct _ ih =>
      cases h' with
      | none =>
          rw [hsettled'] at hreduct
          contradiction
      | next hreduct' hlater =>
          obtain rfl := Rule.eq_of_reduct? hreduct hreduct'
          cases hreduct.symm.trans hreduct'
          obtain ⟨rfl, rfl⟩ := ih hsettled hlater
          exact ⟨rfl, rfl⟩

end Fires

namespace State

/-- Reduction applies rules that fit. -/
theorem exists_fires_reduceAllWith (rules : List Rule) (state : State) :
    ∃ fired, Fires fired state (state.reduceAllWith rules) := by
  fun_induction reduceAllWith rules state with
  | case1 state _ => exact ⟨[], .none⟩
  | case2 state reduced hreduced ih =>
      obtain ⟨rule, -, hreduct⟩ := List.exists_of_findSome?_eq_some hreduced
      obtain ⟨fired, hfired⟩ := ih
      exact ⟨rule :: fired, .next hreduct hfired⟩

/-- Reduction with every rule goes on until no rule fits. -/
theorem settled_reduceAllWith (hall : ∀ rule, rule ∈ rules) (state : State) :
    (state.reduceAllWith rules).Settled := by
  fun_induction reduceAllWith rules state with
  | case1 state hnone => exact fun rule => List.findSome?_eq_none_iff.1 hnone rule (hall rule)
  | case2 state reduced _ ih => exact ih

/-- There is one way to apply rules until none fits, and it leads where reduction leads. -/
theorem exists_fires_iff (state : State) :
    ∃ fired, ∀ fired' result, Fires fired' state result ∧ result.Settled ↔
      fired' = fired ∧ result = state.reduceAll := by
  obtain ⟨fired, hfired⟩ := exists_fires_reduceAllWith Rule.all state
  have hsettled := settled_reduceAllWith Rule.mem_all state
  refine ⟨fired, fun fired' result => ⟨?_, ?_⟩⟩
  · rintro ⟨hfired', hsettled'⟩
    exact hfired'.determined hsettled' hfired hsettled
  · rintro ⟨rfl, rfl⟩
    exact ⟨hfired, hsettled⟩

/-- The rules may be tried in any order. -/
theorem reduceAllWith_eq_reduceAll (hall : ∀ rule, rule ∈ rules) (state : State) :
    state.reduceAllWith rules = state.reduceAll := by
  obtain ⟨fired, hfires⟩ := exists_fires_reduceAllWith rules state
  obtain ⟨fired', honly⟩ := exists_fires_iff state
  exact ((honly _ _).1 ⟨hfires, settled_reduceAllWith hall state⟩).2

end State

end OperatorTerms
