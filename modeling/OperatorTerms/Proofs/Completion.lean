/-
Module: OperatorTerms.Proofs.Completion
Layer: Proofs
Purpose: A sequence to which there is no objection is never a dead end. Where an operand is wanted
  a variable can follow, and then the open parentheses can be closed, the innermost first. So an
  incomplete sequence is the beginning of an expression. Together with rejections, which no later
  token can mend, this says that the parser reports an error as soon as there is one.
Imports: Mathlib.Data.List.Basic (decidable equality of results), OperatorTerms.Proofs.ParseFailure
Main exports: Placed.closer, completion, exists_tree_of_completion, parse_append_of_error
-/
import Mathlib.Data.List.Basic
import OperatorTerms.Proofs.ParseFailure

namespace OperatorTerms

/-- A closing parenthesis for one that is open. -/
def Placed.closer (opened : Placed) : Token := ⟨.closing, "", opened.token.discriminator⟩

/-- An operand, unless the expression may end after a token of the given kind. -/
def missingOperand (previous : Option Kind) : List Token :=
  if previous.any Grammar.last.contains then [] else [⟨.var, "", ""⟩]

/-- Tokens after which a sequence is complete that ends with the given kind and leaves the given
    parentheses open. -/
def completion (previous : Option Kind) (opened : List Placed) : List Token :=
  missingOperand previous ++ opened.map Placed.closer

variable {previous : Option Kind} {kind : Kind} {tokens others : List Token}
  {opened placed : List Placed}

/-! ### Neighbours in a completion -/

theorem Grammar.allows_closing_of_last (h : Grammar.last.contains kind = true) :
    Grammar.allows (some kind) .closing = true := by
  revert h
  cases kind <;> decide

theorem Grammar.allows_var_of_not_last (h : previous.any Grammar.last.contains = false)
    (hterm : previous ≠ some .term) : Grammar.allows previous .var = true := by
  cases previous with
  | none => decide
  | some kind =>
      revert h hterm
      cases kind <;> decide

theorem Linked.lastKind_ne_term (h : Linked previous tokens) (hterm : previous ≠ some .term) :
    lastKind previous tokens ≠ some .term := by
  induction tokens generalizing previous with
  | nil => exact hterm
  | cons token rest ih =>
      refine ih h.2 ?_
      intro hkind
      exact h.kind_ne_term List.mem_cons_self (Option.some.inj hkind)

/-- The missing operand may come next, and after it the expression may end. -/
theorem linked_missingOperand (hterm : previous ≠ some .term) :
    Linked previous (missingOperand previous) ∧
      ∃ kind, lastKind previous (missingOperand previous) = some kind ∧
        Grammar.last.contains kind = true := by
  cases hlast : previous.any Grammar.last.contains with
  | true =>
      rw [missingOperand, if_pos hlast]
      cases previous with
      | none => contradiction
      | some kind => exact ⟨trivial, kind, rfl, hlast⟩
  | false =>
      rw [missingOperand, if_neg (by simp [hlast])]
      exact ⟨⟨Grammar.allows_var_of_not_last hlast hterm, trivial⟩, .var, rfl, by decide⟩

/-- Closing parentheses may follow where the expression may end, and it may end after them. -/
theorem linked_closers (hkind : Grammar.last.contains kind = true) (opened : List Placed) :
    Linked (some kind) (opened.map Placed.closer) ∧
      Grammar.closes (lastKind (some kind) (opened.map Placed.closer)) = true := by
  induction opened generalizing kind with
  | nil => exact ⟨trivial, hkind⟩
  | cons innermost outer ih =>
      have hclosing : Grammar.last.contains .closing = true := by decide
      obtain ⟨hlinked, hcloses⟩ := ih hclosing
      exact ⟨⟨Grammar.allows_closing_of_last hkind, hlinked⟩, hcloses⟩

/-! ### The bracket scan of a completion -/

namespace Nesting

/-- Only opening parentheses are left open. -/
theorem kind_of_scan {opened' : List Placed} (h : scan previous opened placed = .ok opened')
    (hopened : ∀ innermost ∈ opened, innermost.token.kind = .opening) :
    ∀ innermost ∈ opened', innermost.token.kind = .opening := by
  induction placed generalizing previous opened with
  | nil =>
      cases h
      exact hopened
  | cons next placed ih =>
      rw [scan_cons, bind_eq_ok_iff] at h
      obtain ⟨between, hstep, hscan⟩ := h
      refine ih hscan ?_
      rcases step_cases hstep with ⟨hkind, rfl⟩ | ⟨innermost, -, rfl⟩ | ⟨-, rfl⟩
      · exact List.forall_mem_cons.2 ⟨hkind, hopened⟩
      · exact fun other hother => hopened other (List.mem_cons_of_mem _ hother)
      · exact hopened

/-- The closing parentheses of those that are open leave none open. -/
theorem scan_closers (hplaced : placed.map Placed.token = opened.map Placed.closer)
    (hopened : ∀ innermost ∈ opened, innermost.token.kind = .opening) :
    scan previous opened placed = .ok [] := by
  induction opened generalizing previous placed with
  | nil =>
      rw [List.map_eq_nil_iff.1 hplaced]
      rfl
  | cons innermost outer ih =>
      obtain ⟨next, rest, rfl, hnext, hrest⟩ := List.map_eq_cons_iff.1 hplaced
      obtain ⟨hkind, houter⟩ := List.forall_mem_cons.1 hopened
      have hpairs : innermost.token.pairsWith next.token = true := by
        simp [hnext, Token.pairsWith, Placed.closer, hkind]
      rw [scan_cons, step_closing (Token.kind_of_pairsWith hpairs).2, if_pos hpairs]
      exact ih hrest houter

theorem scan_missingOperand
    (hplaced : placed.map Placed.token = missingOperand previous) :
    scan previous opened placed = .ok opened := by
  have hnested : WellNested (missingOperand previous) := by
    rw [missingOperand]
    split
    · exact .nil
    · exact .plain rfl .nil
  exact scan_wellNested hnested hplaced

end Nesting

theorem placed_from_append (start : Position) (tokens others : List Token) :
    Placed.from start (tokens ++ others) =
      Placed.from start tokens ++ Placed.from (start + tokens.length) others := by
  induction tokens generalizing start with
  | nil => rfl
  | cons token tokens ih =>
      simp only [List.cons_append, Placed.from, ih, List.length_cons]
      rw [Nat.add_right_comm, Nat.add_assoc]

/-! ### Completed sequences -/

/-- Whatever has been read without objection, its completion makes it an expression. -/
theorem exists_tree_of_completion (hlinked : Linked none tokens)
    (hscan : Nesting.scan none [] (Placed.all tokens) = .ok opened) :
    ∃ tree, parse (tokens ++ completion (lastKind none tokens) opened) = .ok tree := by
  obtain ⟨hoperand, kind, hkind, hlast⟩ :=
    linked_missingOperand (hlinked.lastKind_ne_term (by simp))
  obtain ⟨hclosers, hcloses⟩ := linked_closers hlast opened
  rw [← hkind] at hclosers hcloses
  have hne : tokens ++ completion (lastKind none tokens) opened ≠ [] := by
    intro hnil
    rw [completion, ← List.append_assoc, List.append_eq_nil_iff, List.append_eq_nil_iff] at hnil
    obtain ⟨⟨rfl, hmissing⟩, -⟩ := hnil
    rw [hmissing] at hkind
    contradiction
  have hkinds := Nesting.kind_of_scan hscan (by simp)
  have hmissing := map_token_from (1 + tokens.length) (missingOperand (lastKind none tokens))
  have hscanAll : Nesting.scan none []
      (Placed.all (tokens ++ completion (lastKind none tokens) opened)) = .ok [] := by
    have hall := map_token_all tokens
    rw [Placed.all] at hscan hall ⊢
    rw [completion, placed_from_append, placed_from_append, Nesting.scan_append, hscan]
    change Nesting.scan _ _ _ = _
    rw [hall, Nesting.scan_append, Nesting.scan_missingOperand hmissing]
    exact Nesting.scan_closers (map_token_from _ _) hkinds
  refine exists_parse_of_validate hne ((validate_eq_ok_iff _).2
    ⟨(Nesting.check_eq_ok_iff_scan _).2 hscanAll, ?_, ?_⟩)
  · exact linked_append.2 ⟨hlinked, linked_append.2 ⟨hoperand, hclosers⟩⟩
  · rw [completion, lastKind_append, lastKind_append]
    exact hcloses

/-- An error that is not incompleteness stays whatever follows, and an incomplete sequence is the
    beginning of an expression. -/
theorem parse_append_of_error {error : SyntaxError} (h : parse tokens = .error error) :
    (error.errorClass ≠ .incomplete → ∀ others, parse (tokens ++ others) = .error error) ∧
      (error.errorClass = .incomplete → ∃ others tree, parse (tokens ++ others) = .ok tree) := by
  constructor
  · intro hclass others
    rcases parse_error_cases h with ⟨-, rfl⟩ | hrejected | ⟨_, _, -, -, -, rfl⟩
    · contradiction
    · apply parse_eq_error_of_rejected
      rw [Placed.all, placed_from_append]
      exact hrejected.append _
    · contradiction
  · intro hclass
    rcases parse_error_cases h with ⟨rfl, -⟩ | hrejected | ⟨last, opened, -, hlinked, hscan, -⟩
    · exact ⟨_, @exists_tree_of_completion [] [] trivial rfl⟩
    · exact absurd hclass hrejected.errorClass_ne
    · exact ⟨_, exists_tree_of_completion hlinked hscan⟩

/-- After an operator and an opening parenthesis much can follow, but after two variables in a row
    nothing helps. -/
theorem parse_append_of_open_and_adjacent :
    (∃ others tree, parse ([⟨.prefixOp, "-", ""⟩, ⟨.opening, "(", "round"⟩] ++ others) =
        .ok tree) ∧
      ∀ others, parse ([⟨.var, "x", ""⟩, ⟨.var, "y", ""⟩] ++ others) =
        .error ⟨2, .unexpectedElement ⟨.var, "y"⟩ ⟨.term, "x"⟩ 2 (Grammar.next .term)⟩ := by
  have hopen : parse [⟨.prefixOp, "-", ""⟩, ⟨.opening, "(", "round"⟩] =
      .error ⟨2, .incomplete ⟨.opening, "("⟩ (Grammar.next .opening)⟩ := by
    decide +kernel
  have hadjacent : parse [⟨.var, "x", ""⟩, ⟨.var, "y", ""⟩] =
      .error ⟨2, .unexpectedElement ⟨.var, "y"⟩ ⟨.term, "x"⟩ 2 (Grammar.next .term)⟩ := by
    decide +kernel
  exact ⟨(parse_append_of_error hopen).2 rfl, (parse_append_of_error hadjacent).1 (by decide)⟩

end OperatorTerms
