/-
Module: OperatorTerms.Proofs.UnreachedBranches
Layer: Proofs
Purpose: Branches of the parser that no sequence leads to. The tables and what the reductions before
  have left on the stack rule out some of what the parser is prepared for: a token of the kind that
  only terms have, a suffix operator without operand, a closing parenthesis that is left above
  anything but the innermost open one or a single term, and a complete term at the end of a sequence
  that may not end there. Some of the reasons for a rejection are therefore left to the validator.
Imports: OperatorTerms.Proofs.DiagnosticTruth, OperatorTerms.Proofs.ReachableStates
Main exports: Turns, Unresolved, SyntaxError.OfParser, State.Follows.exists_operand,
  State.Follows.unresolved, Turns.exists_follows, Turns.kind_ne_term, closes_of_complete,
  ofParser_of_parse_error, unreached_branches
-/
import OperatorTerms.Proofs.DiagnosticTruth
import OperatorTerms.Proofs.ReachableStates

namespace OperatorTerms

/-- The parser turns to what it does with a token of the kind that the token has: it has taken the
    tokens before, the token may follow the item on top, and the record of it is made. -/
inductive Turns (tokens : List Token) : Placed → State → Prop where
  | after {front back : List Placed} {next : Placed} {state : State} :
      Placed.all tokens = front ++ next :: back →
        (State.initial tokens.length).acceptAll front = .ok state →
          (Grammar.expectedAfter state.topKind?).contains next.token.kind = true →
            Turns tokens next (state.note (.shift next.token.label state.stack.length))

/-- What a closing parenthesis can be left above when no rule removes it, top first: the innermost
    open parenthesis, perhaps with a term in between, or a single term. -/
inductive Unresolved : List Item → Prop where
  | opening {opened : Placed} {below : List Item} : opened.token.kind = .opening →
      Unresolved (.token opened :: below)
  | group {opened : Placed} {inner : NodeId} {below : List Item} : opened.token.kind = .opening →
      Unresolved (.term inner :: .token opened :: below)
  | stray {id : NodeId} : Unresolved [.term id]

/-- The error is one that the parser may return. Groups that are never closed and ends that are not
    allowed are incomplete for the parser, and it always sees a term before a closing parenthesis
    that no group is open for. -/
def SyntaxError.OfParser : SyntaxError → Prop
  | ⟨_, .unclosed _ _⟩ | ⟨_, .unexpectedEnd _ _⟩ => False
  | ⟨position, .unexpectedStart _ _⟩ => position = 1
  | ⟨_, .unexpectedClosing _ _ expected⟩ => expected = Grammar.next .term
  | _ => True

variable {tokens : List Token} {next last : Placed} {state : State} {previous : Option Kind}
  {opened : List Placed} {reader : Reader} {error : SyntaxError}

namespace State.Follows

/-- Wherever the parser has come to from the beginning of a sequence, it follows the reader. -/
theorem exists_of_acceptAll {count : Nat} {placed : List Placed}
    (h : (State.initial count).acceptAll placed = .ok state) :
    ∃ opened reader,
      state.Follows (lastKind none (placed.map Placed.token)) opened reader := by
  obtain ⟨hlinked, opened, hscan⟩ := (initial count).of_acceptAll h
  obtain ⟨state', reader, haccept, -, hfollows⟩ := (initial count).acceptAll hlinked hscan
  cases h.symm.trans haccept
  exact ⟨opened, reader, hfollows⟩

theorem note (h : state.Follows previous opened reader) (record : Record) :
    (state.note record).Follows previous opened reader :=
  ⟨h.tracks.note record, h.sound⟩

/-- A suffix operator finds its operand on top, and is applied to it. -/
theorem exists_operand (h : state.Follows previous opened reader)
    (hallowed : Grammar.allows previous .suffixOp = true) (hkind : next.token.kind = .suffixOp) :
    ∃ operand below reduced, state.stack = .term operand :: below ∧
      Rule.unaryOperator.reduct? { state with stack := .term operand :: .token next :: below } =
        some reduced := by
  obtain ⟨chain, operand, hreading⟩ := h.sound.phase.operand_read hallowed (by simp)
  have htracks := h.tracks
  rcases reader with ⟨reading, around⟩
  cases hreading
  obtain ⟨draft, links, below, hstate, -⟩ := htracks.eq_atop
  simp only [Rule.reduct?, hkind, Kind.isUnary, if_true, Option.some.injEq, exists_and_left,
    exists_eq', and_true]
  exact ⟨draft.root, _, congrArg State.stack hstate⟩

/-- A closing parenthesis that stays on top has met no partner: the innermost open parenthesis is
    not its own, or none is open. -/
theorem unresolved {below : List Item} (h : state.Follows previous opened reader)
    (hallowed : Grammar.allows previous .closing = true) (hkind : next.token.kind = .closing)
    (hstays : ((state.reduceAll.push (.token next)).reduceAll).stack = .token next :: below) :
    Unresolved below := by
  cases opened with
  | nil =>
      obtain ⟨id, forest, log, hsettle⟩ := h.tracks.exists_stray h.sound hkind hallowed
      rw [hsettle] at hstays
      cases hstays
      exact .stray
  | cons innermost outer =>
      cases hpairs : innermost.token.pairsWith next.token with
      | true =>
          -- A partner takes the parenthesis off the stack, so it cannot be there to be rejected.
          obtain ⟨reading, around, haround⟩ := h.tracks.around_eq_cons
          rcases reader with ⟨level, _⟩
          cases haround
          obtain ⟨state', haccept, -⟩ := h.tracks.acceptClosing h.sound hallowed hpairs
          simp only [State.acceptClosing, hstays, if_true] at haccept
          exact absurd haccept (rejectClosing_ne_ok _ _ _ _)
      | false =>
          obtain ⟨hopening, between, rest, forest, log, hsettle⟩ :=
            h.tracks.exists_mismatch h.sound hkind hallowed hpairs
          rw [hsettle] at hstays
          cases hstays
          cases between with
          | none => exact .opening hopening
          | some inner => exact .group hopening

end State.Follows

namespace Turns

/-- When the parser turns to a token, it follows the reader, and the token may come next. -/
theorem exists_follows (h : Turns tokens next state) :
    ∃ previous opened reader, state.Follows previous opened reader ∧
      Grammar.allows previous next.token.kind = true := by
  cases h with
  | after hall haccept hexpected =>
      obtain ⟨opened, reader, hfollows⟩ := State.Follows.exists_of_acceptAll haccept
      rw [hfollows.expects_eq_allows] at hexpected
      exact ⟨_, opened, reader, hfollows.note _, hexpected⟩

theorem kind_ne_term (h : Turns tokens next state) : next.token.kind ≠ .term := by
  obtain ⟨previous, -, -, -, hallowed⟩ := h.exists_follows
  intro hkind
  rw [hkind, Grammar.allows_term] at hallowed
  contradiction

end Turns

/-! ### Ends and errors -/

/-- A sequence that leaves one term on the stack may end where it does. -/
theorem closes_of_complete {root : NodeId} (hlast : (Placed.all tokens).getLast? = some last)
    (haccept : (State.initial tokens.length).acceptAll (Placed.all tokens) = .ok state)
    (hstack : state.complete.stack = [.term root]) :
    Grammar.last.contains last.token.kind = true := by
  obtain ⟨opened, reader, hfollows⟩ := State.Follows.exists_of_acceptAll haccept
  rw [lastKind_of_getLast? (by rw [List.getLast?_map, hlast]; rfl)] at hfollows
  by_contra hcloses
  obtain ⟨top, below, htop⟩ := hfollows.complete_of_not_closes (Bool.eq_false_iff.2 hcloses)
  rw [hstack] at htop
  cases htop

theorem ofParser_of_parse_error (h : parse tokens = .error error) : error.OfParser := by
  rcases parse_error_cases h with ⟨-, rfl⟩ | hrejected | ⟨last, opened, -, -, -, rfl⟩
  · trivial
  · have htruthful := truthful_of_rejected hrejected
    generalize Placed.all tokens = placed at hrejected
    cases hrejected with
    | @after front back opened next reader _ _ _ _ hobjection =>
        cases hobjection with
        | bracket _ hstep =>
            -- The scan that the parser stands for sees a term before the parenthesis.
            obtain ⟨-, ⟨-, rfl⟩ | ⟨_, _, -, -, rfl⟩⟩ := Nesting.step_error_cases hstep
            · rfl
            · trivial
        | table _ =>
            rw [Reader.rejection] at htruthful ⊢
            cases hshown : reader.shown? with
            | none =>
                rw [hshown] at htruthful
                exact htruthful.1
            | some shown => trivial
  · trivial

/-- On no sequence does the parser meet a token of the kind of terms that may come next, a suffix
    operator without operand, a closing parenthesis left above anything but the innermost open one
    or a single term, or a complete term that may not end the sequence. So the errors for which it
    would need that are not among those it returns. -/
theorem unreached_branches (tokens : List Token) :
    (∀ next state, Turns tokens next state →
      next.token.kind ≠ .term ∧
      (next.token.kind = .suffixOp → ∃ operand below reduced,
        state.stack = .term operand :: below ∧
          Rule.unaryOperator.reduct?
            { state with stack := .term operand :: .token next :: below } = some reduced) ∧
      (next.token.kind = .closing → ∀ below,
        ((state.reduceAll.push (.token next)).reduceAll).stack = .token next :: below →
          Unresolved below)) ∧
    (∀ last state root, (Placed.all tokens).getLast? = some last →
      (State.initial tokens.length).acceptAll (Placed.all tokens) = .ok state →
        state.complete.stack = [.term root] → Grammar.last.contains last.token.kind = true) ∧
    ∀ error, parse tokens = .error error → error.OfParser := by
  refine ⟨?_, fun _ _ _ => closes_of_complete, fun _ => ofParser_of_parse_error⟩
  intro next state hturns
  obtain ⟨previous, opened, reader, hfollows, hallowed⟩ := hturns.exists_follows
  refine ⟨hturns.kind_ne_term, ?_, ?_⟩
  · intro hkind
    exact hfollows.exists_operand (hkind ▸ hallowed) hkind
  · intro hkind below hstays
    exact hfollows.unresolved (hkind ▸ hallowed) hkind hstays

/-- Behind a term a suffix operator and a closing parenthesis may come next. The operator is applied
    to the term, above which the parenthesis is left, and this is what the parser says of it. -/
theorem unreached_before_stray_closing :
    (∃ state, Turns [⟨.var, "x", ""⟩, ⟨.suffixOp, "!", ""⟩, ⟨.closing, ")", ""⟩]
        ⟨2, ⟨.suffixOp, "!", ""⟩⟩ state ∧
      ∃ operand below reduced, state.stack = .term operand :: below ∧
        Rule.unaryOperator.reduct?
            { state with stack := .term operand :: .token ⟨2, ⟨.suffixOp, "!", ""⟩⟩ :: below } =
          some reduced) ∧
    (∃ state below, Turns [⟨.var, "x", ""⟩, ⟨.suffixOp, "!", ""⟩, ⟨.closing, ")", ""⟩]
        ⟨3, ⟨.closing, ")", ""⟩⟩ state ∧
      ((state.reduceAll.push (.token ⟨3, ⟨.closing, ")", ""⟩⟩)).reduceAll).stack =
        .token ⟨3, ⟨.closing, ")", ""⟩⟩ :: below ∧ Unresolved below) ∧
    SyntaxError.OfParser ⟨3, .unexpectedClosing ")" 3 (Grammar.next .term)⟩ := by
  obtain ⟨hturns, -, herrors⟩ :=
    unreached_branches [⟨.var, "x", ""⟩, ⟨.suffixOp, "!", ""⟩, ⟨.closing, ")", ""⟩]
  have hsuffix := @Turns.after [⟨.var, "x", ""⟩, ⟨.suffixOp, "!", ""⟩, ⟨.closing, ")", ""⟩]
    [⟨1, ⟨.var, "x", ""⟩⟩] [⟨3, ⟨.closing, ")", ""⟩⟩] ⟨2, ⟨.suffixOp, "!", ""⟩⟩
    ⟨[.term 0], ⟨#[⟨.var, "x", [], none⟩]⟩, [.shift "x" 0, .parsing 3]⟩ rfl (by decide +kernel) rfl
  have hclosing := @Turns.after [⟨.var, "x", ""⟩, ⟨.suffixOp, "!", ""⟩, ⟨.closing, ")", ""⟩]
    [⟨1, ⟨.var, "x", ""⟩⟩, ⟨2, ⟨.suffixOp, "!", ""⟩⟩] [] ⟨3, ⟨.closing, ")", ""⟩⟩
    ⟨[.term 1], ⟨#[⟨.var, "x", [], some 1⟩, ⟨.suffixOp, "!", [0], none⟩]⟩,
      [.reduceUnary "!", .shift "!" 1, .shift "x" 0, .parsing 3]⟩ rfl (by decide +kernel) rfl
  refine ⟨⟨_, hsuffix, (hturns _ _ hsuffix).2.1 rfl⟩, ⟨_, [.term 1], hclosing, ?_, ?_⟩, ?_⟩
  · decide +kernel
  · exact (hturns _ _ hclosing).2.2 rfl _ (by decide +kernel)
  · exact herrors _ (by decide +kernel)

end OperatorTerms
