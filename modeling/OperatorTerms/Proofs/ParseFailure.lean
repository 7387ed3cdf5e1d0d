/-
Module: OperatorTerms.Proofs.ParseFailure
Layer: Proofs
Purpose: How a parse fails. A diagnostic cites the item on top of the stack, and that is what the
  reader holds last, so whatever the parser says of a token it does not take is determined by the
  tokens before it. A parse therefore fails in one of two ways: the tables or the bracket scan
  object to a token, whatever follows it, or no token is objected to and the sequence is
  incomplete.
Imports: OperatorTerms.Proofs.ParseOutcome
Main exports: Reader.shown?, Reader.rejection, Objection, State.Follows.accept_error_iff, Rejected,
  parse_eq_error_of_rejected, parse_incomplete, parse_error_cases
-/
import OperatorTerms.Proofs.ParseOutcome

namespace OperatorTerms

namespace Reader

/-- What a diagnostic cites as standing before the next token: the operand read last, which counts
    as a term, or else the token that waits for one. -/
def shown? (reader : Reader) : Option Element :=
  match reader.reading.current, reader.reading.prefixes, reader.reading.chain, reader.around with
  | some operand, _, _, _ => some ⟨.term, operand.label⟩
  | none, operator :: _, _, _ => some operator.element
  | none, [], (_, operator) :: _, _ => some operator.element
  | none, [], [], (opened, _) :: _ => some opened.element
  | none, [], [], [] => none

/-- How a token is rejected that cannot come next. -/
def rejection (reader : Reader) (next : Placed) : SyntaxError :=
  match reader.shown? with
  | none => ⟨next.position, .unexpectedStart next.token.element Grammar.first⟩
  | some shown =>
      ⟨next.position,
        .unexpectedElement next.token.element shown next.position (Grammar.next shown.kind)⟩

theorem errorClass_rejection_ne (reader : Reader) (next : Placed) :
    (reader.rejection next).errorClass ≠ .incomplete := by
  rw [rejection]
  split <;> simp [SyntaxError.errorClass, Reason.errorClass]

end Reader

/-- What stands in the way of a token: the tables do not let it come next, or they do and the
    bracket scan objects to it. The parser has reduced what comes before a closing parenthesis, so
    that its scan always sees a term there. -/
inductive Objection (previous : Option Kind) (opened : List Placed) (reader : Reader)
    (next : Placed) : SyntaxError → Prop where
  | table : Grammar.allows previous next.token.kind = false →
      Objection previous opened reader next (reader.rejection next)
  | bracket {error : SyntaxError} : Grammar.allows previous next.token.kind = true →
      Nesting.step (some .term) opened next = .error error →
        Objection previous opened reader next error

/-- A sequence can be cut before a token to which there is an objection, and there is none to the
    tokens before it. -/
inductive Rejected : List Placed → SyntaxError → Prop where
  | after {front back opened : List Placed} {next : Placed} {reader : Reader} {error : SyntaxError} :
      Linked none (front.map Placed.token) → Nesting.scan none [] front = .ok opened →
        ({} : Reader).takeAll? (front.map Placed.token) = some reader →
          Objection (lastKind none (front.map Placed.token)) opened reader next error →
            Rejected (front ++ next :: back) error

/-- No later token can mend a rejection. -/
theorem Rejected.append {placed : List Placed} {error : SyntaxError} (h : Rejected placed error)
    (others : List Placed) : Rejected (placed ++ others) error := by
  cases h with
  | after hlinked hscan htake hobjection =>
      rw [List.append_assoc, List.cons_append]
      exact .after hlinked hscan htake hobjection

theorem Objection.errorClass_ne {previous : Option Kind} {opened : List Placed} {reader : Reader}
    {next : Placed} {error : SyntaxError} (h : Objection previous opened reader next error) :
    error.errorClass ≠ .incomplete := by
  cases h with
  | table _ => exact reader.errorClass_rejection_ne next
  | bracket _ hstep =>
      rcases Nesting.step_error_cases hstep with ⟨-, ⟨-, rfl⟩ | ⟨_, _, -, -, rfl⟩⟩ <;>
        simp [SyntaxError.errorClass, Reason.errorClass]

theorem Rejected.errorClass_ne {placed : List Placed} {error : SyntaxError}
    (h : Rejected placed error) : error.errorClass ≠ .incomplete := by
  cases h with
  | after _ _ _ hobjection => exact hobjection.errorClass_ne

namespace State

variable {state : State} {previous : Option Kind} {opened : List Placed} {reader : Reader}
  {next : Placed} {placed : List Placed} {failure : Failure} {error : SyntaxError}

/-! ### Single tokens -/

/-- The item on top of the stack is what the reader holds last. -/
theorem Tracks.element_head? (h : state.Tracks opened reader) :
    state.stack.head?.map (Item.element state.forest) = reader.shown? := by
  obtain ⟨⟨⟨chain, prefixes, current⟩, around⟩, ⟨hstack, -⟩, -, rfl⟩ := h
  rw [hstack]
  cases current with
  | some id =>
      have hlabel : (state.forest.term id).label = (state.forest.node id).label := by
        rw [Forest.term_eq, Term.label]
      simp [Layers.items, Segment.items, Layers.reader, Segment.reading, Reader.shown?,
        Item.element, hlabel]
  | none =>
      cases prefixes with
      | cons operator prefixes => rfl
      | nil =>
          cases chain with
          | cons link chain => rfl
          | nil =>
              cases around with
              | cons entry around => rfl
              | nil => rfl

theorem Tracks.reject_eq {α : Type} (h : state.Tracks opened reader) (next : Placed) :
    (state.reject next : Except Failure α) = .error ⟨reader.rejection next, state.log⟩ := by
  have hshown := h.element_head?
  rw [reject, Reader.rejection, ← hshown]
  cases state.stack with
  | nil => rfl
  | cons top below =>
      have hkind : (top.element state.forest).kind = top.kind := by
        cases top <;> rfl
      simp [fail, hkind]

namespace Follows

/-- What the parser says of a token it does not take. -/
theorem accept_error_iff (h : state.Follows previous opened reader) :
    (∃ log, state.accept next = .error ⟨error, log⟩) ↔
      Objection previous opened reader next error := by
  constructor
  · rintro ⟨log, haccept⟩
    cases hallowed : Grammar.allows previous next.token.kind with
    | false =>
        rw [h.accept_of_not_allowed hallowed, h.tracks.reject_eq] at haccept
        cases haccept
        exact .table hallowed
    | true =>
        cases hstep : Nesting.step (some .term) opened next with
        | error other =>
            obtain ⟨log', haccept'⟩ := h.accept_error hallowed hstep
            cases haccept.symm.trans haccept'
            exact .bracket hallowed hstep
        | ok opened' =>
            obtain ⟨state', _, haccept', -⟩ :=
              h.accept hallowed (Nesting.step_eq_ok_of_step previous hstep)
            cases haccept.symm.trans haccept'
  · intro hobjection
    cases hobjection with
    | table hallowed =>
        exact ⟨state.log, (h.accept_of_not_allowed hallowed).trans (h.tracks.reject_eq next)⟩
    | bracket hallowed hstep => exact h.accept_error hallowed hstep

end Follows

/-! ### Sequences -/

theorem acceptAll_append (state : State) (front back : List Placed) :
    state.acceptAll (front ++ back) = state.acceptAll front >>= fun state => state.acceptAll back :=
  List.foldlM_append

/-- A run fails at a token that the parser does not take after those before it. -/
theorem exists_accept_error (h : state.acceptAll placed = .error failure) :
    ∃ front next back state', placed = front ++ next :: back ∧
      state.acceptAll front = .ok state' ∧ state'.accept next = .error failure := by
  induction placed generalizing state with
  | nil => contradiction
  | cons next placed ih =>
      have hcons : state.acceptAll (next :: placed) =
          state.accept next >>= fun state => state.acceptAll placed := rfl
      rw [hcons] at h
      cases haccept : state.accept next with
      | error other =>
          rw [haccept] at h
          cases h
          exact ⟨[], next, placed, state, rfl, rfl, haccept⟩
      | ok state' =>
          rw [haccept] at h
          obtain ⟨front, other, back, final, rfl, hfront, hother⟩ := ih h
          exact ⟨next :: front, other, back, final, rfl,
            bind_eq_ok_iff.2 ⟨state', haccept, hfront⟩, hother⟩

/-- A run from the beginning fails where a token is objected to, and with that objection. -/
theorem acceptAll_error_iff (tokens : Nat) :
    (∃ log, (initial tokens).acceptAll placed = .error ⟨error, log⟩) ↔ Rejected placed error := by
  constructor
  · rintro ⟨log, hacceptAll⟩
    obtain ⟨front, next, back, state, rfl, hfront, haccept⟩ := exists_accept_error hacceptAll
    obtain ⟨hlinked, opened, hscan⟩ := (Follows.initial tokens).of_acceptAll hfront
    obtain ⟨state', reader, hfront', htake, hfollows⟩ :=
      (Follows.initial tokens).acceptAll hlinked hscan
    cases hfront.symm.trans hfront'
    exact .after hlinked hscan htake (hfollows.accept_error_iff.1 ⟨log, haccept⟩)
  · rintro ⟨hlinked, hscan, htake, hobjection⟩
    obtain ⟨state, reader, hfront, htake', hfollows⟩ :=
      (Follows.initial tokens).acceptAll hlinked hscan
    cases htake.symm.trans htake'
    obtain ⟨log, haccept⟩ := hfollows.accept_error_iff.2 hobjection
    refine ⟨log, ?_⟩
    rw [acceptAll_append, hfront]
    change state.accept _ >>= _ = _
    rw [haccept]
    rfl

end State

/-! ### Whole sequences -/

variable {tokens : List Token} {last : Placed} {opened : List Placed} {error : SyntaxError}

/-- The parse of a sequence fails with the objection to one of its tokens. -/
theorem parse_eq_error_of_rejected (h : Rejected (Placed.all tokens) error) :
    parse tokens = .error error := by
  obtain ⟨log, hacceptAll⟩ := (State.acceptAll_error_iff tokens.length).2 h
  cases hlast : (Placed.all tokens).getLast? with
  | none =>
      rw [List.getLast?_eq_none_iff.1 hlast] at hacceptAll
      contradiction
  | some last => simp only [parse, parseTraced, hlast, hacceptAll]

/-- A sequence to which there is no objection is incomplete if a group is still open or if it may
    not end where it does. -/
theorem parse_incomplete (hlast : (Placed.all tokens).getLast? = some last)
    (hlinked : Linked none tokens) (hscan : Nesting.scan none [] (Placed.all tokens) = .ok opened)
    (hend : opened ≠ [] ∨ Grammar.closes (lastKind none tokens) = false) :
    parse tokens = .error ⟨last.position,
      .incomplete last.token.element (Grammar.next last.token.kind)⟩ := by
  rw [← map_token_all tokens] at hlinked
  obtain ⟨state, reader, haccept, -, hfollows⟩ :=
    (State.Follows.initial tokens.length).acceptAll hlinked hscan
  have hkind : lastKind none tokens = some last.token.kind := by
    apply lastKind_of_getLast?
    rw [← map_token_all tokens, List.getLast?_map, hlast]
    rfl
  rw [map_token_all, hkind] at hfollows
  rw [hkind] at hend
  rw [parse_of_acceptAll hlast haccept]
  exact hfollows.finish_incomplete hend

/-- The parse of a sequence fails because it is empty, because there is an objection to one of its
    tokens, or because it is incomplete. -/
theorem parse_error_cases (h : parse tokens = .error error) :
    (tokens = [] ∧ error = ⟨1, .empty Grammar.first⟩) ∨ Rejected (Placed.all tokens) error ∨
      ∃ last opened, (Placed.all tokens).getLast? = some last ∧ Linked none tokens ∧
        Nesting.scan none [] (Placed.all tokens) = .ok opened ∧
          error = ⟨last.position,
            .incomplete last.token.element (Grammar.next last.token.kind)⟩ := by
  by_cases hne : tokens = []
  · subst hne
    cases h
    exact .inl ⟨rfl, rfl⟩
  obtain ⟨last, hlast, -⟩ := exists_last hne
  cases hacceptAll : (State.initial tokens.length).acceptAll (Placed.all tokens) with
  | error failure =>
      rw [parse, parseTraced] at h
      simp only [hlast, hacceptAll, Except.error.injEq] at h
      subst h
      exact .inr (.inl ((State.acceptAll_error_iff tokens.length).1 ⟨failure.log, hacceptAll⟩))
  | ok state =>
      obtain ⟨hlinked, opened, hscan⟩ :=
        (State.Follows.initial tokens.length).of_acceptAll hacceptAll
      rw [map_token_all] at hlinked
      refine .inr (.inr ⟨last, opened, hlast, hlinked, hscan, ?_⟩)
      have hincomplete (hend : opened ≠ [] ∨ Grammar.closes (lastKind none tokens) = false) :
          error = ⟨last.position,
            .incomplete last.token.element (Grammar.next last.token.kind)⟩ :=
        Except.error.inj (h.symm.trans (parse_incomplete hlast hlinked hscan hend))
      cases hcloses : Grammar.closes (lastKind none tokens) with
      | false => exact hincomplete (.inr hcloses)
      | true =>
          cases opened with
          | cons innermost outer => exact hincomplete (.inl (List.cons_ne_nil _ _))
          | nil =>
              -- Nothing is open and the sequence may end here, so it is valid and has a tree.
              obtain ⟨tree, hparse⟩ := exists_parse_of_validate hne ((validate_eq_ok_iff tokens).2
                ⟨(Nesting.check_eq_ok_iff_scan tokens).2 hscan, hlinked, hcloses⟩)
              cases h.symm.trans hparse

end OperatorTerms
