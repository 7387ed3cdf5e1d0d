/-
Module: OperatorTerms.Proofs.ValidationFailure
Layer: Proofs
Purpose: How validation fails. The first of the validator's four checks that fails decides the
  error, and each check reports the leftmost place that it objects to, so an error of the validator
  says where the sequence can be cut and what is true of the part before the cut.
Imports: OperatorTerms.Proofs.ParseOutcome
Main exports: position_of_all, last_of_all, exists_cut_of_not_linked, Validation.checkFirst_error,
  Validation.checkNeighbours_error, Validation.checkLast_error, Nesting.scan_error,
  Nesting.check_error, validate_error_cases
-/
import OperatorTerms.Proofs.ParseOutcome

namespace OperatorTerms

variable {tokens : List Token} {placed front back opened : List Placed} {next : Placed}
  {previous : Option Kind} {error : SyntaxError}

/-! ### Places in a sequence -/

theorem position_of_from {start : Position} (h : Placed.from start tokens = front ++ next :: back) :
    next.position = start + front.length := by
  induction front generalizing start tokens with
  | nil =>
      cases tokens with
      | nil => contradiction
      | cons token rest =>
          cases h
          rfl
  | cons first front ih =>
      cases tokens with
      | nil => contradiction
      | cons token rest =>
          have hrest := ih (List.cons.inj h).2
          rw [hrest, List.length_cons, Nat.add_right_comm]
          rfl

theorem position_of_all (h : Placed.all tokens = front ++ next :: back) :
    next.position = front.length + 1 := by
  rw [position_of_from h, Nat.add_comm]

theorem length_of_all (tokens : List Token) : (Placed.all tokens).length = tokens.length := by
  rw [← List.length_map Placed.token, map_token_all]

/-- The last token stands at the end. -/
theorem last_of_all {last : Placed} (h : (Placed.all tokens).getLast? = some last) :
    last.position = tokens.length ∧ tokens.getLast? = some last.token := by
  obtain ⟨front, hfront⟩ := List.getLast?_eq_some_iff.1 h
  constructor
  · rw [position_of_all hfront, ← length_of_all, hfront, List.length_append]
    rfl
  · rw [← map_token_all tokens, List.getLast?_map, h]
    rfl

/-! ### What the validator rejects -/

theorem check_bind_eq_error_iff {ε β : Type} {check : Except ε Unit} {rest : Unit → Except ε β}
    {failure : ε} : check >>= rest = .error failure ↔
      check = .error failure ∨ (check = .ok () ∧ rest () = .error failure) := by
  cases check with
  | error other => simp [bind, Except.bind]
  | ok value => simp [bind, Except.bind]

/-- A sequence that is not linked can be cut before the first token that may not come next. -/
theorem exists_cut_of_not_linked (h : ¬ Linked previous (placed.map Placed.token)) :
    ∃ front next back, placed = front ++ next :: back ∧
      Linked previous (front.map Placed.token) ∧
        Grammar.allows (lastKind previous (front.map Placed.token)) next.token.kind = false := by
  induction placed generalizing previous with
  | nil => exact absurd trivial h
  | cons first rest ih =>
      cases hallowed : Grammar.allows previous first.token.kind with
      | false => exact ⟨[], first, rest, rfl, trivial, hallowed⟩
      | true =>
          have hrest : ¬ Linked (some first.token.kind) (rest.map Placed.token) :=
            fun hlinked => h ⟨hallowed, hlinked⟩
          obtain ⟨front, next, back, rfl, hlinked, hnext⟩ := ih hrest
          exact ⟨first :: front, next, back, rfl, ⟨hallowed, hlinked⟩, hnext⟩

namespace Validation

theorem checkFirst_error {token : Token} (h : checkFirst token = .error error) :
    Grammar.allows none token.kind = false ∧
      error = ⟨1, .unexpectedStart token.element Grammar.first⟩ := by
  rw [checkFirst] at h
  split at h
  · contradiction
  · rename_i hfirst
    cases h
    exact ⟨Bool.eq_false_iff.2 hfirst, rfl⟩

/-- The leftmost token that may not follow the one before it is reported. -/
theorem checkNeighbours_error {token : Token} (h : checkNeighbours token placed = .error error) :
    ∃ front next back last, placed = front ++ next :: back ∧
      (token :: front.map Placed.token).getLast? = some last ∧
        Linked (some token.kind) (front.map Placed.token) ∧
          Grammar.allows (some last.kind) next.token.kind = false ∧
            error = ⟨next.position, .unexpectedElement next.token.element last.element
              next.position (Grammar.next last.kind)⟩ := by
  induction placed generalizing token with
  | nil => contradiction
  | cons first rest ih =>
      rw [checkNeighbours] at h
      split at h
      · rename_i hallowed
        obtain ⟨front, next, back, last, rfl, hlast, hlinked, hnext, herror⟩ := ih h
        refine ⟨first :: front, next, back, last, rfl, ?_, ⟨hallowed, hlinked⟩, hnext, herror⟩
        rw [List.map_cons, List.getLast?_cons_cons]
        exact hlast
      · rename_i hallowed
        cases h
        exact ⟨[], first, rest, token, rfl, rfl, trivial, Bool.eq_false_iff.2 hallowed, rfl⟩

theorem checkLast_error {last : Placed} (h : checkLast last = .error error) :
    Grammar.closes (some last.token.kind) = false ∧
      error = ⟨last.position,
        .unexpectedEnd last.token.element (Grammar.next last.token.kind)⟩ := by
  rw [checkLast] at h
  split at h
  · contradiction
  · rename_i hlast
    cases h
    exact ⟨Bool.eq_false_iff.2 hlast, rfl⟩

end Validation

namespace Nesting

/-- A scan fails at the first token to which it objects. -/
theorem scan_error (h : scan previous opened placed = .error error) :
    ∃ front next back opened', placed = front ++ next :: back ∧
      scan previous opened front = .ok opened' ∧
        step (lastKind previous (front.map Placed.token)) opened' next = .error error := by
  induction placed generalizing previous opened with
  | nil => contradiction
  | cons first rest ih =>
      rw [scan_cons] at h
      cases hstep : step previous opened first with
      | error other =>
          rw [hstep] at h
          cases h
          exact ⟨[], first, rest, opened, rfl, rfl, hstep⟩
      | ok between =>
          rw [hstep] at h
          obtain ⟨front, next, back, opened', rfl, hfront, hnext⟩ := ih h
          refine ⟨first :: front, next, back, opened', rfl, ?_, hnext⟩
          rw [scan_cons, hstep]
          exact hfront

theorem check_error (h : check tokens = .error error) :
    scan none [] (Placed.all tokens) = .error error ∨
      ∃ innermost outer, scan none [] (Placed.all tokens) = .ok (innermost :: outer) ∧
        error = ⟨innermost.position, .unclosed innermost.token.label innermost.position⟩ := by
  rw [check] at h
  cases hscan : scan none [] (Placed.all tokens) with
  | error other =>
      rw [hscan] at h
      cases h
      exact .inl rfl
  | ok opened =>
      rw [hscan] at h
      cases opened with
      | nil => contradiction
      | cons innermost outer =>
          cases h
          exact .inr ⟨innermost, outer, rfl, rfl⟩

/-- The beginning of a sequence without objection has none either. -/
theorem exists_scan_front {opened' : List Placed} (hfront : front <+: placed)
    (h : scan previous opened placed = .ok opened') :
    ∃ between, scan previous opened front = .ok between := by
  obtain ⟨back, rfl⟩ := hfront
  rw [scan_append, bind_eq_ok_iff] at h
  exact h.imp fun _ hfront => hfront.1

/-- An opening parenthesis at the end is left open. -/
theorem scan_ne_nil {last : Token} (hlast : (placed.map Placed.token).getLast? = some last)
    (hkind : last.kind = .opening) : scan previous opened placed ≠ .ok [] := by
  intro hscan
  rw [List.getLast?_map, Option.map_eq_some_iff] at hlast
  obtain ⟨next, hnext, rfl⟩ := hlast
  obtain ⟨front, rfl⟩ := List.getLast?_eq_some_iff.1 hnext
  rw [scan_append, bind_eq_ok_iff] at hscan
  obtain ⟨between, -, hlast⟩ := hscan
  rw [scan_cons, step_opening hkind] at hlast
  exact absurd (Except.ok.inj hlast) (List.cons_ne_nil _ _)

end Nesting

/-- The first of the four checks that fails decides the error of the validator. -/
theorem validate_error_cases (h : validate tokens = .error error) :
    Nesting.check tokens = .error error ∨
      Nesting.check tokens = .ok () ∧ ∃ first rest, Placed.all tokens = first :: rest ∧
        (Validation.checkFirst first.token = .error error ∨
          (Grammar.allows none first.token.kind = true ∧
            Validation.checkNeighbours first.token rest = .error error) ∨
          (Linked none tokens ∧ Validation.checkLast (rest.getLastD first) = .error error)) := by
  cases tokens with
  | nil => contradiction
  | cons token rest =>
      have hvalidate : validate (token :: rest) = (do
          Nesting.check (token :: rest)
          Validation.checkFirst token
          Validation.checkNeighbours token (Placed.from 2 rest)
          Validation.checkLast ((Placed.from 2 rest).getLastD ⟨1, token⟩)) := rfl
      rw [hvalidate] at h
      rcases check_bind_eq_error_iff.1 h with hcheck | ⟨hcheck, h⟩
      · exact .inl hcheck
      refine .inr ⟨hcheck, ⟨1, token⟩, Placed.from 2 rest, rfl, ?_⟩
      rcases check_bind_eq_error_iff.1 h with hfirst | ⟨hfirst, h⟩
      · exact .inl hfirst
      rw [Validation.checkFirst_eq_ok_iff] at hfirst
      rcases check_bind_eq_error_iff.1 h with hneighbours | ⟨hneighbours, hlast⟩
      · exact .inr (.inl ⟨hfirst, hneighbours⟩)
      · rw [Validation.checkNeighbours_eq_ok_iff, map_token_from] at hneighbours
        exact .inr (.inr ⟨⟨hfirst, hneighbours⟩, hlast⟩)

end OperatorTerms
