/-
Module: OperatorTerms.Proofs.ParserRun
Layer: Proofs
Purpose: The parser follows the reader. It takes a token exactly when the tables let the token come
  next and the bracket scan has no objection, and then the stack stands for what the reader holds
  after the same token. A run over a sequence is therefore a run of the reader.
Imports: OperatorTerms.Proofs.AcceptSimulation
Main exports: State.Follows, State.Follows.accept, State.Follows.of_accept,
  State.Follows.acceptAll, State.Follows.of_acceptAll
-/
import OperatorTerms.Proofs.AcceptSimulation

namespace OperatorTerms.State

/-- The parser stands where the reader does: after a token of the given kind, with the given
    parentheses open. -/
structure Follows (previous : Option Kind) (opened : List Placed) (reader : Reader)
    (state : State) : Prop where
  tracks : state.Tracks opened reader
  sound : reader.Sound previous

namespace Follows

variable {state state' : State} {previous : Option Kind} {opened opened' : List Placed}
  {reader : Reader} {next : Placed}

/-- Before the first token nothing has been read. -/
theorem initial (tokens : Nat) : Follows none [] {} (State.initial tokens) :=
  ⟨⟨{}, ⟨rfl, ⟨⟨by simp, by simp⟩, by simp⟩⟩, rfl, rfl⟩, .initial⟩

theorem expects_eq_allows (h : state.Follows previous opened reader) (kind : Kind) :
    (Grammar.expectedAfter state.topKind?).contains kind = Grammar.allows previous kind := by
  obtain ⟨⟨layers, hshows, -, rfl⟩, hsound⟩ := h
  rw [hshows.expectedAfter_topKind? hsound, Grammar.allows]

/-! ### Single tokens -/

/-- Where a token that is no parenthesis may come next, the parser and the reader take it
    alike. -/
theorem accept_plain (h : state.Follows previous opened reader)
    (hallowed : Grammar.allows previous next.token.kind = true)
    (hplain : next.token.kind.isBracket = false) :
    ∃ state', state.accept next = .ok state' ∧
      state'.Tracks opened { reader with reading := reader.reading.take next.token } := by
  have htracks := h.tracks.note (.shift next.token.label state.stack.length)
  have htakes := h.sound.phase.takes hallowed hplain
  have hsound := h.sound
  rw [State.accept, h.expects_eq_allows, if_pos hallowed]
  rcases reader with ⟨reading, around⟩
  generalize state.note _ = noted at htracks ⊢
  generalize reading.take next.token = taken at htakes ⊢
  cases htakes with
  | infixOp hkind =>
      rcases hkind with hkind | hkind
      · rw [hkind]
        exact ⟨_, rfl, htracks.push_link next⟩
      · rw [hkind]
        exact ⟨_, rfl, htracks.push_link next⟩
  | suffixOp hkind =>
      rw [hkind]
      exact htracks.acceptSuffix hkind
  | prefixOp hkind =>
      rw [hkind]
      exact ⟨_, rfl, htracks.push_prefix next⟩
  | var hkind =>
      rw [hkind]
      exact ⟨_, rfl, htracks.acceptVariable hsound⟩
  | semicolon hkind _ =>
      rw [hkind] at hallowed ⊢
      exact ⟨_, rfl, htracks.acceptSemicolon hsound hallowed⟩

/-- Where a token may come next and the bracket scan has no objection, the parser and the reader
    take it alike. -/
theorem accept (h : state.Follows previous opened reader)
    (hallowed : Grammar.allows previous next.token.kind = true)
    (hstep : Nesting.step previous opened next = .ok opened') :
    ∃ state' reader', state.accept next = .ok state' ∧ reader.take? next.token = some reader' ∧
      state'.Follows (some next.token.kind) opened' reader' := by
  suffices hstep : ∃ state' reader', state.accept next = .ok state' ∧
      reader.take? next.token = some reader' ∧ state'.Tracks opened' reader' by
    obtain ⟨state', reader', haccept, htake, htracks⟩ := hstep
    exact ⟨state', reader', haccept, htake, htracks, h.sound.take? hallowed htake⟩
  have htracks := h.tracks.note (.shift next.token.label state.stack.length)
  rcases Nesting.step_cases hstep with ⟨hkind, rfl⟩ | ⟨innermost, hpairs, rfl⟩ | ⟨hkind, rfl⟩
  · refine ⟨_, _, ?_, Reader.take?_opening hkind, htracks.push_opening next⟩
    rw [State.accept, h.expects_eq_allows, if_pos hallowed, hkind]
  · have hkind := (Token.kind_of_pairsWith hpairs).2
    have hclosing := hkind ▸ hallowed
    obtain ⟨outer, around, haround⟩ := htracks.around_eq_cons
    rcases reader with ⟨reading, _⟩
    cases haround
    obtain ⟨state', haccept, htracks'⟩ := htracks.acceptClosing h.sound hclosing hpairs
    refine ⟨state', _, ?_, ?_, htracks'⟩
    · rw [State.accept, h.expects_eq_allows, if_pos hallowed, hkind]
      exact haccept
    · rw [Reader.take?_closing hkind, if_pos hpairs]
  · obtain ⟨state', haccept, htracks'⟩ := h.accept_plain hallowed hkind
    exact ⟨state', _, haccept, Reader.take?_plain hkind, htracks'⟩

/-- A token that may not come next is rejected. -/
theorem accept_of_not_allowed (h : state.Follows previous opened reader)
    (hallowed : Grammar.allows previous next.token.kind = false) :
    state.accept next = state.reject next := by
  rw [State.accept, h.expects_eq_allows, if_neg (by simp [hallowed])]

/-- A token that may come next is rejected if the bracket scan objects to it, and with the same
    failure, except that the parser always sees a term before an unmatched parenthesis. -/
theorem accept_error (h : state.Follows previous opened reader)
    (hallowed : Grammar.allows previous next.token.kind = true) {error : SyntaxError}
    (hstep : Nesting.step (some .term) opened next = .error error) :
    ∃ log, state.accept next = .error ⟨error, log⟩ := by
  have hkind := (Nesting.step_error_cases hstep).1
  have htracks := h.tracks.note (.shift next.token.label state.stack.length)
  obtain ⟨log, herror⟩ := htracks.acceptClosing_error h.sound (hkind ▸ hallowed) hstep
  refine ⟨log, ?_⟩
  rw [State.accept, h.expects_eq_allows, if_pos hallowed, hkind]
  exact herror

theorem of_accept (h : state.Follows previous opened reader)
    (haccept : state.accept next = .ok state') :
    Grammar.allows previous next.token.kind = true ∧
      ∃ opened', Nesting.step previous opened next = .ok opened' := by
  cases hallowed : Grammar.allows previous next.token.kind with
  | false =>
      rw [h.accept_of_not_allowed hallowed, State.reject] at haccept
      split at haccept <;> contradiction
  | true =>
      refine ⟨rfl, ?_⟩
      cases hstep : Nesting.step (some .term) opened next with
      | error error =>
          obtain ⟨log, herror⟩ := h.accept_error hallowed hstep
          rw [herror] at haccept
          contradiction
      | ok opened' => exact ⟨opened', Nesting.step_eq_ok_of_step previous hstep⟩

/-! ### Sequences -/

variable {placed : List Placed}

/-- A linked sequence to which the bracket scan has no objection is taken by the parser and the
    reader alike. -/
theorem acceptAll (h : state.Follows previous opened reader)
    (hlinked : Linked previous (placed.map Placed.token))
    (hscan : Nesting.scan previous opened placed = .ok opened') :
    ∃ state' reader', state.acceptAll placed = .ok state' ∧
      reader.takeAll? (placed.map Placed.token) = some reader' ∧
        state'.Follows (lastKind previous (placed.map Placed.token)) opened' reader' := by
  induction placed generalizing state previous opened reader with
  | nil =>
      cases hscan
      exact ⟨state, reader, rfl, rfl, h⟩
  | cons next placed ih =>
      obtain ⟨hallowed, hlinked⟩ := hlinked
      obtain ⟨between, hstep, hscan⟩ := bind_eq_ok_iff.1 hscan
      obtain ⟨state', reader', haccept, htake, hfollows⟩ := h.accept hallowed hstep
      obtain ⟨final, final', hacceptAll, htakeAll, hfollows⟩ := ih hfollows hlinked hscan
      refine ⟨final, final', bind_eq_ok_iff.2 ⟨state', haccept, hacceptAll⟩, ?_, hfollows⟩
      rw [List.map_cons, Reader.takeAll?_cons, htake]
      exact htakeAll

/-- The parser takes no other sequences. -/
theorem of_acceptAll (h : state.Follows previous opened reader)
    (hacceptAll : state.acceptAll placed = .ok state') :
    Linked previous (placed.map Placed.token) ∧
      ∃ opened', Nesting.scan previous opened placed = .ok opened' := by
  induction placed generalizing state previous opened reader with
  | nil => exact ⟨trivial, opened, rfl⟩
  | cons next placed ih =>
      obtain ⟨between, haccept, hacceptAll⟩ := bind_eq_ok_iff.1 hacceptAll
      obtain ⟨hallowed, opened', hstep⟩ := h.of_accept haccept
      obtain ⟨state', reader', haccept', -, hfollows⟩ := h.accept hallowed hstep
      cases haccept.symm.trans haccept'
      obtain ⟨hlinked, final, hscan⟩ := ih hfollows hacceptAll
      exact ⟨⟨hallowed, hlinked⟩, final, bind_eq_ok_iff.2 ⟨opened', hstep, hscan⟩⟩

end Follows

end OperatorTerms.State
