/-
Module: OperatorTerms.Proofs.BracketScan
Layer: Proofs
Purpose: What the bracket scan decides. A sequence closes a stack of open parentheses when it is
  made of well-nested parts with the partner of each of them in between, the innermost first. The
  scan ends with nothing open exactly on such sequences, so from an empty stack it accepts the
  well-nested ones.
Imports: OperatorTerms.Nesting, OperatorTerms.Nesting.WellNested, OperatorTerms.Proofs.Adjacency
Main exports: Nesting.step_opening, Nesting.step_closing, Nesting.step_plain, Closing,
  Nesting.scan_append, Nesting.scan_wellNested, Nesting.wellNested_iff_scan,
  Nesting.check_eq_ok_iff_wellNested
-/
import OperatorTerms.Nesting
import OperatorTerms.Nesting.WellNested
import OperatorTerms.Proofs.Adjacency

namespace OperatorTerms

/-- The tokens close all of the given parentheses, innermost first, and open nothing that they do
    not close themselves. -/
inductive Closing : List Token → List Token → Prop where
  | nil {tokens : List Token} : WellNested tokens → Closing [] tokens
  | cons {innermost closed : Token} {outer inner rest : List Token} :
      innermost.pairsWith closed = true → WellNested inner → Closing outer rest →
        Closing (innermost :: outer) (inner ++ closed :: rest)

namespace Closing

variable {opened tokens : List Token} {token : Token}

theorem plain (hkind : token.kind.isBracket = false) (h : Closing opened tokens) :
    Closing opened (token :: tokens) := by
  cases h with
  | nil hnested => exact .nil (.plain hkind hnested)
  | cons hpairs hinner hrest => exact .cons hpairs (.plain hkind hinner) hrest

/-- A parenthesis that is closed within the tokens may as well be one of them. -/
theorem opening (h : Closing (token :: opened) tokens) : Closing opened (token :: tokens) := by
  cases h with
  | cons hpairs hinner hrest =>
      cases hrest with
      | nil hnested => exact .nil (.paired hpairs hinner hnested)
      | @cons next closed outer between rest hnext hbetween hrest =>
          have hgroup := WellNested.paired hpairs hinner hbetween
          simpa using Closing.cons hnext hgroup hrest

end Closing

namespace Nesting

variable {previous : Option Kind} {opened opened' placed : List Placed} {next innermost : Placed}

/-! ### Single steps -/

theorem step_opening (h : next.token.kind = .opening) :
    step previous opened next = .ok (next :: opened) := by
  simp only [step, h]

theorem step_closing (h : next.token.kind = .closing) :
    step previous (innermost :: opened) next =
      if innermost.token.pairsWith next.token then
        .ok opened
      else
        .error ⟨next.position,
          .parenthesisMismatch innermost.token.label innermost.position
            next.token.label next.position⟩ := by
  simp only [step, h]

theorem step_closing_nil (h : next.token.kind = .closing) :
    step previous [] next = .error ⟨next.position,
      .unexpectedClosing next.token.label next.position (Grammar.expectedAfter previous)⟩ := by
  simp only [step, h]

theorem step_plain (h : next.token.kind.isBracket = false) :
    step previous opened next = .ok opened := by
  unfold step
  split
  · simp_all [Kind.isBracket]
  · simp_all [Kind.isBracket]
  · rfl

/-- A step succeeds in three ways: a parenthesis is opened, the innermost one is closed, or the
    token is no parenthesis. -/
theorem step_cases (h : step previous opened next = .ok opened') :
    (next.token.kind = .opening ∧ opened' = next :: opened) ∨
      (∃ innermost, innermost.token.pairsWith next.token = true ∧
        opened = innermost :: opened') ∨
      (next.token.kind.isBracket = false ∧ opened' = opened) := by
  rcases next.token.kind.bracket_or_plain with hkind | hkind | hkind
  · rw [step_opening hkind] at h
    cases h
    exact .inl ⟨hkind, rfl⟩
  · cases opened with
    | nil =>
        rw [step_closing_nil hkind] at h
        contradiction
    | cons innermost outer =>
        rw [step_closing hkind] at h
        split at h
        · rename_i hpairs
          cases h
          exact .inr (.inl ⟨innermost, hpairs, rfl⟩)
        · contradiction
  · rw [step_plain hkind] at h
    cases h
    exact .inr (.inr ⟨hkind, rfl⟩)

/-- A step fails in two ways: a closing parenthesis meets none that waits for it, or one that it
    does not pair with. -/
theorem step_error_cases {error : SyntaxError} (h : step previous opened next = .error error) :
    next.token.kind = .closing ∧
      ((opened = [] ∧ error = ⟨next.position,
          .unexpectedClosing next.token.label next.position (Grammar.expectedAfter previous)⟩) ∨
        (∃ innermost outer, opened = innermost :: outer ∧
          innermost.token.pairsWith next.token = false ∧ error = ⟨next.position,
            .parenthesisMismatch innermost.token.label innermost.position
              next.token.label next.position⟩)) := by
  rcases next.token.kind.bracket_or_plain with hkind | hkind | hkind
  · rw [step_opening hkind] at h
    contradiction
  · refine ⟨hkind, ?_⟩
    cases opened with
    | nil =>
        rw [step_closing_nil hkind] at h
        cases h
        exact .inl ⟨rfl, rfl⟩
    | cons innermost outer =>
        rw [step_closing hkind] at h
        split at h
        · contradiction
        · rename_i hpairs
          cases h
          exact .inr ⟨innermost, outer, rfl, Bool.eq_false_iff.2 hpairs, rfl⟩
  · rw [step_plain hkind] at h
    contradiction

/-- Only the wording of a failure depends on the token before. -/
theorem step_eq_ok_of_step (other : Option Kind) (h : step previous opened next = .ok opened') :
    step other opened next = .ok opened' := by
  rcases step_cases h with ⟨hkind, rfl⟩ | ⟨innermost, hpairs, rfl⟩ | ⟨hkind, rfl⟩
  · exact step_opening hkind
  · rw [step_closing (Token.kind_of_pairsWith hpairs).2, if_pos hpairs]
  · exact step_plain hkind

/-! ### Whole scans -/

theorem scan_cons (previous : Option Kind) (opened : List Placed) (next : Placed)
    (rest : List Placed) :
    scan previous opened (next :: rest) =
      (step previous opened next >>= fun opened => scan (some next.token.kind) opened rest) := rfl

/-- Scanning a sequence after another one continues with what the first has left open. -/
theorem scan_append (previous : Option Kind) (opened placed others : List Placed) :
    scan previous opened (placed ++ others) =
      (scan previous opened placed >>= fun opened =>
        scan (lastKind previous (placed.map Placed.token)) opened others) := by
  induction placed generalizing previous opened with
  | nil => rfl
  | cons next placed ih =>
      rw [List.cons_append, scan_cons, scan_cons]
      cases step previous opened next with
      | error error => rfl
      | ok opened => exact ih (some next.token.kind) opened

/-- Whether a scan gets to the end does not depend on the token before. -/
theorem scan_eq_ok_of_scan (other : Option Kind) (h : scan previous opened placed = .ok opened') :
    scan other opened placed = .ok opened' := by
  cases placed with
  | nil => exact h
  | cons next placed =>
      rw [scan_cons, bind_eq_ok_iff] at h ⊢
      obtain ⟨between, hstep, hscan⟩ := h
      exact ⟨between, step_eq_ok_of_step other hstep, hscan⟩

/-- A well-nested sequence leaves open what was open before. -/
theorem scan_wellNested {tokens : List Token} (h : WellNested tokens)
    (hplaced : placed.map Placed.token = tokens) :
    scan previous opened placed = .ok opened := by
  induction h generalizing previous opened placed with
  | nil =>
      rw [List.map_eq_nil_iff.1 hplaced]
      rfl
  | plain hkind _ ih =>
      obtain ⟨next, rest, rfl, rfl, hrest⟩ := List.map_eq_cons_iff.1 hplaced
      rw [scan_cons, step_plain hkind]
      exact ih hrest
  | group hopened hclosed hsame _ _ ihinner ihrest =>
      obtain ⟨front, back, rfl, hfront, hback⟩ := List.map_eq_append_iff.1 hplaced
      obtain ⟨first, inner, rfl, rfl, hinner⟩ := List.map_eq_cons_iff.1 hfront
      obtain ⟨last, rest, rfl, rfl, hrest⟩ := List.map_eq_cons_iff.1 hback
      have hpairs := Token.pairsWith_iff.2 ⟨hopened, hclosed, hsame⟩
      rw [List.cons_append, scan_cons, step_opening hopened]
      change scan _ _ (inner ++ last :: rest) = _
      rw [scan_append, ihinner hinner]
      change scan _ (first :: opened) (last :: rest) = _
      rw [scan_cons, step_closing hclosed, if_pos hpairs]
      exact ihrest hrest

/-- When a scan ends with nothing open, the sequence has closed what was open before. -/
theorem closing_of_scan (h : scan previous opened placed = .ok []) :
    Closing (opened.map Placed.token) (placed.map Placed.token) := by
  induction placed generalizing previous opened with
  | nil =>
      cases h
      exact .nil .nil
  | cons next placed ih =>
      rw [scan_cons, bind_eq_ok_iff] at h
      obtain ⟨opened', hstep, hscan⟩ := h
      have hclosing := ih hscan
      rcases step_cases hstep with ⟨-, rfl⟩ | ⟨innermost, hpairs, rfl⟩ | ⟨hkind, rfl⟩
      · exact hclosing.opening
      · exact .cons hpairs .nil hclosing
      · exact hclosing.plain hkind

/-- The scan finds out whether a sequence is well nested, however its tokens are numbered. -/
theorem wellNested_iff_scan {tokens : List Token} (hplaced : placed.map Placed.token = tokens) :
    WellNested tokens ↔ scan none [] placed = .ok [] := by
  refine ⟨fun hnested => scan_wellNested hnested hplaced, fun hscan => ?_⟩
  have hclosing := closing_of_scan hscan
  rw [hplaced] at hclosing
  cases hclosing with
  | nil hnested => exact hnested

theorem check_eq_ok_iff_scan (tokens : List Token) :
    check tokens = .ok () ↔ scan none [] (Placed.all tokens) = .ok [] := by
  rw [check, bind_eq_ok_iff]
  constructor
  · rintro ⟨opened, hscan, hopened⟩
    cases opened with
    | nil => exact hscan
    | cons innermost outer => contradiction
  · intro hscan
    exact ⟨[], hscan, rfl⟩

/-- The bracket scan accepts the well-nested sequences. -/
theorem check_eq_ok_iff_wellNested (tokens : List Token) :
    check tokens = .ok () ↔ WellNested tokens := by
  rw [check_eq_ok_iff_scan, wellNested_iff_scan (map_token_from 1 tokens), Placed.all]

end Nesting

end OperatorTerms
