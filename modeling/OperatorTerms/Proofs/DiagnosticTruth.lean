/-
Module: OperatorTerms.Proofs.DiagnosticTruth
Layer: Proofs
Purpose: Diagnostics say what is so. Whatever the validator or the parser rejects a sequence for, the
  tokens that the error cites stand at the positions it cites them for, and an element that is said
  to be unexpected is not of a kind that was expected. Both errors are put together from the token
  that is rejected and from what was read before it: for a parenthesis that is one of the opening
  ones before, and in every other case the place is the first or the last one or has an illegal
  neighbour to its left.
Imports: OperatorTerms.Proofs.BracketBlame, OperatorTerms.Proofs.DiagnosticAgreement
Main exports: StandsAt, Cites, SyntaxError.Truthful, Clashes, SyntaxError.Truthful.position_bounds,
  truthful_of_step_error, isLeast_clashes, truthful_of_validate_error, truthful_of_rejected,
  truthful_of_parse_error, truthful_of_rejection
-/
import OperatorTerms.Proofs.BracketBlame
import OperatorTerms.Proofs.DiagnosticAgreement

namespace OperatorTerms

/-- The token has the position in the sequence, where positions count from one. -/
def StandsAt (tokens : List Token) (position : Position) (token : Token) : Prop :=
  1 ≤ position ∧ tokens[position - 1]? = some token

/-- The element is the token at the position, as a diagnostic cites it. -/
def Cites (tokens : List Token) (position : Position) (element : Element) : Prop :=
  ∃ token, StandsAt tokens position token ∧ token.element = element

/-- What the error says of the sequence is so. -/
def SyntaxError.Truthful (tokens : List Token) : SyntaxError → Prop
  | ⟨position, .parenthesisMismatch opened openedAt closed closedAt⟩ =>
      position = closedAt ∧ openedAt < closedAt ∧
        ∃ first second, StandsAt tokens openedAt first ∧ first.element = ⟨.opening, opened⟩ ∧
          StandsAt tokens closedAt second ∧ second.element = ⟨.closing, closed⟩ ∧
            first.discriminator ≠ second.discriminator
  | ⟨position, .unexpectedClosing closed place _⟩ =>
      position = place ∧ Cites tokens place ⟨.closing, closed⟩
  | ⟨position, .unclosed opened place⟩ => position = place ∧ Cites tokens place ⟨.opening, opened⟩
  | ⟨position, .unexpectedStart element expected⟩ =>
      position = 1 ∧ Cites tokens position element ∧ expected.contains element.kind = false
  | ⟨position, .unexpectedElement element _ place expected⟩ =>
      position = place ∧ Cites tokens place element ∧ expected.contains element.kind = false
  | ⟨position, .unexpectedEnd last _⟩ | ⟨position, .incomplete last _⟩ =>
      position = tokens.length ∧ Cites tokens position last
  | ⟨_, .empty _⟩ => False

/-- The token at the position may not follow the one before it. -/
def Clashes (tokens : List Token) (position : Position) : Prop :=
  ∃ before token, StandsAt tokens (position - 1) before ∧ StandsAt tokens position token ∧
    Grammar.allows (some before.kind) token.kind = false

variable {tokens : List Token} {front back opened : List Placed} {next last : Placed}
  {previous : Option Kind} {token : Token} {element : Element} {position : Position}
  {error : SyntaxError}

/-! ### Places -/

theorem standsAt_of_mem (h : next ∈ Placed.all tokens) :
    StandsAt tokens next.position next.token := by
  obtain ⟨front, back, hall⟩ := List.append_of_mem h
  refine ⟨?_, ?_⟩
  · rw [position_of_all hall]
    exact Nat.le_add_left 1 _
  · have hplace := congrArg (Option.map Placed.token) (getElem?_of_mem_all h)
    rwa [← List.getElem?_map, map_token_all] at hplace

theorem cites_of_mem (h : next ∈ Placed.all tokens) :
    Cites tokens next.position next.token.element :=
  ⟨next.token, standsAt_of_mem h, rfl⟩

/-- The element of a token with a known kind. -/
theorem Token.element_of_kind {kind : Kind} (h : token.kind = kind) :
    token.element = ⟨kind, token.label⟩ := by
  rw [Token.element, h]

theorem StandsAt.position_le (h : StandsAt tokens position token) :
    position ≤ tokens.length := by
  obtain ⟨hpositive, hplace⟩ := h
  have hlt := (List.getElem?_eq_some_iff.1 hplace).1
  exact Nat.le_of_pred_lt hlt

theorem Cites.position_bounds (h : Cites tokens position element) :
    1 ≤ position ∧ position ≤ tokens.length := by
  obtain ⟨token, hstands, -⟩ := h
  exact ⟨hstands.1, hstands.position_le⟩

/-- The position of a truthful error is one of the sequence. -/
theorem SyntaxError.Truthful.position_bounds (h : error.Truthful tokens) :
    1 ≤ error.position ∧ error.position ≤ tokens.length := by
  rcases error with ⟨position, reason⟩
  cases reason with
  | parenthesisMismatch opened openedAt closed closedAt =>
      obtain ⟨rfl, -, first, second, -, -, hsecond, -, -⟩ := h
      exact ⟨hsecond.1, hsecond.position_le⟩
  | unexpectedClosing closed place expected =>
      obtain ⟨rfl, hcites⟩ := h
      exact hcites.position_bounds
  | unclosed opened place =>
      obtain ⟨rfl, hcites⟩ := h
      exact hcites.position_bounds
  | unexpectedStart element expected => exact h.2.1.position_bounds
  | unexpectedElement element previous place expected =>
      obtain ⟨rfl, hcites, -⟩ := h
      exact hcites.position_bounds
  | unexpectedEnd last expected => exact h.2.position_bounds
  | incomplete last expected => exact h.2.position_bounds
  | empty expected => exact h.elim

/-! ### Parentheses -/

/-- A parenthesis that is left open is an opening one that stands before what comes next. -/
theorem mem_of_scan (hall : Placed.all tokens = front ++ back)
    (hscan : Nesting.scan none [] front = .ok opened) :
    ∀ innermost ∈ opened, innermost ∈ Placed.all tokens ∧ innermost.token.kind = .opening ∧
      ∀ next ∈ back, innermost.position < next.position := by
  intro innermost hmem
  have hfront := ((leftOpen_of_scan hscan).unmatched hmem).mem
  have hsorted : (front ++ back).Pairwise (·.position < ·.position) :=
    hall ▸ pairwise_position 1 tokens
  refine ⟨hall ▸ List.mem_append_left back hfront, ?_, ?_⟩
  · exact Nesting.kind_of_scan hscan (by simp) innermost hmem
  · exact (List.pairwise_append.1 hsorted).2.2 innermost hfront

/-- What the bracket scan says of a token it objects to is so, whatever it takes to stand before
    the token. -/
theorem truthful_of_step_error (hall : Placed.all tokens = front ++ next :: back)
    (hscan : Nesting.scan none [] front = .ok opened)
    (hstep : Nesting.step previous opened next = .error error) : error.Truthful tokens := by
  have hnext : next ∈ Placed.all tokens := by simp [hall]
  obtain ⟨hkind, ⟨-, rfl⟩ | ⟨innermost, outer, rfl, hpairs, rfl⟩⟩ := Nesting.step_error_cases hstep
  · exact ⟨rfl, Token.element_of_kind hkind ▸ cites_of_mem hnext⟩
  · obtain ⟨hmem, hopening, hbefore⟩ := mem_of_scan hall hscan innermost List.mem_cons_self
    refine ⟨rfl, hbefore next List.mem_cons_self, innermost.token, next.token,
      standsAt_of_mem hmem, Token.element_of_kind hopening, standsAt_of_mem hnext,
      Token.element_of_kind hkind, ?_⟩
    -- The kinds pair, so it must be the discriminators that do not.
    simpa [Token.pairsWith, hopening, hkind] using hpairs

theorem truthful_of_check_error (h : Nesting.check tokens = .error error) :
    error.Truthful tokens := by
  rcases Nesting.check_error h with hscan | ⟨innermost, outer, hscan, rfl⟩
  · obtain ⟨front, next, back, opened, hall, hfront, hstep⟩ := Nesting.scan_error hscan
    exact truthful_of_step_error hall hfront hstep
  · have hall : Placed.all tokens = Placed.all tokens ++ [] := (List.append_nil _).symm
    obtain ⟨hmem, hopening, -⟩ := mem_of_scan hall hscan innermost List.mem_cons_self
    exact ⟨rfl, Token.element_of_kind hopening ▸ cites_of_mem hmem⟩

/-! ### Neighbours -/

/-- The last token of the sequence stands at its end. -/
theorem cites_of_getLast? (h : (Placed.all tokens).getLast? = some last) :
    last.position = tokens.length ∧ Cites tokens last.position last.token.element :=
  ⟨(last_of_all h).1, cites_of_mem (List.mem_of_getLast? h)⟩

/-- In a linked sequence every token may follow the one before it. -/
theorem Linked.allows_of_getElem? {index : Nat} {before : Token} (h : Linked previous tokens)
    (hbefore : tokens[index]? = some before) (htoken : tokens[index + 1]? = some token) :
    Grammar.allows (some before.kind) token.kind = true := by
  induction tokens generalizing previous index with
  | nil => simp at hbefore
  | cons first rest ih =>
      obtain ⟨-, hrest⟩ := h
      cases index with
      | succ index => exact ih hrest hbefore htoken
      | zero =>
          obtain rfl : first = before := Option.some.inj hbefore
          cases rest with
          | nil => simp at htoken
          | cons second rest =>
              obtain rfl : second = token := Option.some.inj htoken
              exact hrest.1

/-- There is no clash within a beginning that is linked. -/
theorem not_clashes_of_linked {place length : Nat} (hlinked : Linked none (tokens.take length))
    (hle : place ≤ length) : ¬ Clashes tokens place := by
  rintro ⟨before, token, ⟨hpositive, hbefore⟩, ⟨-, htoken⟩, hclash⟩
  have hpositive : 1 ≤ place - 1 := hpositive
  obtain ⟨index, rfl⟩ : ∃ index, place = index + 2 := ⟨place - 2, by omega⟩
  have hbefore : (tokens.take length)[index]? = some before := by
    rwa [List.getElem?_take_of_lt (by omega)]
  have htoken : (tokens.take length)[index + 1]? = some token := by
    rwa [List.getElem?_take_of_lt (by omega)]
  rw [hlinked.allows_of_getElem? hbefore htoken] at hclash
  contradiction

/-- The leftmost token that may not follow the one before it, which the validator cites. -/
theorem isLeast_clashes {before : Token} (hall : Placed.all tokens = front ++ next :: back)
    (hbefore : (front.map Placed.token).getLast? = some before)
    (hlinked : Linked none (front.map Placed.token))
    (hclash : Grammar.allows (some before.kind) next.token.kind = false) :
    Cites tokens (next.position - 1) before.element ∧
      IsLeast {position | Clashes tokens position} next.position := by
  obtain ⟨hfront, -⟩ := all_take_of_cut hall
  rw [← hfront, map_token_all] at hlinked
  have hstands : StandsAt tokens (next.position - 1) before := by
    rw [List.getLast?_map, Option.map_eq_some_iff] at hbefore
    obtain ⟨last, hlast, rfl⟩ := hbefore
    obtain ⟨init, rfl⟩ := List.getLast?_eq_some_iff.1 hlast
    have hnext := position_of_all hall
    rw [List.append_assoc] at hall
    have hlast := position_of_all hall
    rw [hnext, List.length_append, List.length_singleton, Nat.add_sub_cancel, ← hlast]
    exact standsAt_of_mem (by simp [hall])
  refine ⟨⟨before, hstands, rfl⟩, ⟨before, next.token, hstands, ?_, hclash⟩, ?_⟩
  · exact standsAt_of_mem (by simp [hall])
  · intro position hposition
    by_contra hlt
    exact not_clashes_of_linked hlinked (Nat.le_pred_of_lt (Nat.lt_of_not_le hlt)) hposition

/-! ### Verdicts -/

/-- What the validator says is so, and where it finds an illegal neighbour it is the first one. -/
theorem truthful_of_validate_error (h : validate tokens = .error error) :
    error.Truthful tokens ∧
      ∀ element previous place expected,
        error.reason = .unexpectedElement element previous place expected →
          Cites tokens (error.position - 1) previous ∧
            IsLeast {position | Clashes tokens position} error.position := by
  rcases validate_error_cases h with hcheck | ⟨-, first, rest, hall, hchecks⟩
  · refine ⟨truthful_of_check_error hcheck, ?_⟩
    rintro element previous place expected hreason
    have hbrackets := blames_of_check hcheck
    cases hbrackets <;> contradiction
  rcases hchecks with hfirst | ⟨hfirst, hneighbours⟩ | ⟨-, hlast⟩
  · obtain ⟨hclash, rfl⟩ := Validation.checkFirst_error hfirst
    have hall : Placed.all tokens = [] ++ first :: rest := hall
    have hfirst : first ∈ Placed.all tokens := by simp [hall]
    have hcites := cites_of_mem hfirst
    rw [position_of_all hall] at hcites
    exact ⟨⟨rfl, hcites, hclash⟩, by simp⟩
  · obtain ⟨front, next, back, before, rfl, hbefore, hlinked, hclash, rfl⟩ :=
      Validation.checkNeighbours_error hneighbours
    have hcut : Placed.all tokens = (first :: front) ++ next :: back := hall
    have hleast := isLeast_clashes hcut hbefore ⟨hfirst, hlinked⟩ hclash
    refine ⟨⟨rfl, cites_of_mem (by simp [hcut]), hclash⟩, ?_⟩
    rintro element previous place expected ⟨⟩
    exact hleast
  · obtain ⟨-, rfl⟩ := Validation.checkLast_error hlast
    refine ⟨cites_of_getLast? ?_, by simp⟩
    rw [hall, List.getLast?_cons, List.getLastD_eq_getLast?]

/-- What the parser says of a token it objects to is so. -/
theorem truthful_of_rejected (h : Rejected (Placed.all tokens) error) : error.Truthful tokens := by
  generalize hall : Placed.all tokens = placed at h
  cases h with
  | @after front back opened next reader _ hlinked hscan htake hobjection =>
      have hnext : next ∈ Placed.all tokens := by simp [hall]
      have hcites := cites_of_mem hnext
      cases hobjection with
      | bracket _ hstep => exact truthful_of_step_error hall hscan hstep
      | table hclash =>
          rw [Reader.rejection]
          rcases List.eq_nil_or_concat front with rfl | ⟨init, last, rfl⟩
          · -- Nothing was read, so the token is the first one.
            cases htake
            have hposition : next.position = 1 := position_of_all hall
            exact ⟨hposition, hcites, hclash⟩
          · -- What is cited decides what was expected, as the last token does.
            rw [List.concat_eq_append, List.map_append] at hlinked htake hclash
            obtain ⟨shown, hshown, hcited⟩ := Reader.Sound.initial.citedAs_takeAll? hlinked htake
            rw [lastKind_append] at hclash
            rw [hshown]
            refine ⟨rfl, hcites, ?_⟩
            rw [hcited.next_eq]
            exact hclash

theorem truthful_of_parse_error (hne : tokens ≠ []) (h : parse tokens = .error error) :
    error.Truthful tokens := by
  rcases parse_error_cases h with ⟨hnil, -⟩ | hrejected | ⟨last, opened, hlast, -, -, rfl⟩
  · exact absurd hnil hne
  · exact truthful_of_rejected hrejected
  · exact cites_of_getLast? hlast

/-- Whatever a sequence is rejected for, by the validator or by the parser, the error lies within
    the sequence and says what is so. -/
theorem truthful_of_rejection (hne : tokens ≠ []) :
    (∀ error, validate tokens = .error error →
      (1 ≤ error.position ∧ error.position ≤ tokens.length) ∧ error.Truthful tokens ∧
        ∀ element previous place expected,
          error.reason = .unexpectedElement element previous place expected →
            Cites tokens (error.position - 1) previous ∧
              IsLeast {position | Clashes tokens position} error.position) ∧
    ∀ error, parse tokens = .error error →
      (1 ≤ error.position ∧ error.position ≤ tokens.length) ∧ error.Truthful tokens := by
  constructor
  · intro error hvalidate
    obtain ⟨htruthful, hclash⟩ := truthful_of_validate_error hvalidate
    exact ⟨htruthful.position_bounds, htruthful, hclash⟩
  · intro error hparse
    have htruthful := truthful_of_parse_error hne hparse
    exact ⟨htruthful.position_bounds, htruthful⟩

/-- The validator finds that the parentheses do not pair, with a group between them, where the parser
    has stopped before at two neighbours, the first of which is a term by then. Without the
    parentheses the validator finds the neighbours as well. -/
theorem truthful_of_mismatch_behind_clash :
    validate [⟨.var, "x", ""⟩, ⟨.var, "y", ""⟩, ⟨.opening, "(", "round"⟩, ⟨.opening, "<", ""⟩,
        ⟨.closing, ">", ""⟩, ⟨.closing, "]", "square"⟩] =
      .error ⟨6, .parenthesisMismatch "(" 3 "]" 6⟩ ∧
    SyntaxError.Truthful [⟨.var, "x", ""⟩, ⟨.var, "y", ""⟩, ⟨.opening, "(", "round"⟩,
      ⟨.opening, "<", ""⟩, ⟨.closing, ">", ""⟩, ⟨.closing, "]", "square"⟩]
      ⟨6, .parenthesisMismatch "(" 3 "]" 6⟩ ∧
    SyntaxError.Truthful [⟨.var, "x", ""⟩, ⟨.var, "y", ""⟩, ⟨.opening, "(", "round"⟩,
      ⟨.opening, "<", ""⟩, ⟨.closing, ">", ""⟩, ⟨.closing, "]", "square"⟩]
      ⟨2, .unexpectedElement ⟨.var, "y"⟩ ⟨.term, "x"⟩ 2 (Grammar.next .term)⟩ ∧
    IsLeast {position | Clashes [⟨.var, "x", ""⟩, ⟨.var, "y", ""⟩] position} 2 := by
  have hvalidate : validate [⟨.var, "x", ""⟩, ⟨.var, "y", ""⟩, ⟨.opening, "(", "round"⟩,
      ⟨.opening, "<", ""⟩, ⟨.closing, ">", ""⟩, ⟨.closing, "]", "square"⟩] =
      .error ⟨6, .parenthesisMismatch "(" 3 "]" 6⟩ := by
    decide +kernel
  have hparse : parse [⟨.var, "x", ""⟩, ⟨.var, "y", ""⟩, ⟨.opening, "(", "round"⟩,
      ⟨.opening, "<", ""⟩, ⟨.closing, ">", ""⟩, ⟨.closing, "]", "square"⟩] =
      .error ⟨2, .unexpectedElement ⟨.var, "y"⟩ ⟨.term, "x"⟩ 2 (Grammar.next .term)⟩ := by
    decide +kernel
  have hneighbours : validate [⟨.var, "x", ""⟩, ⟨.var, "y", ""⟩] =
      .error ⟨2, .unexpectedElement ⟨.var, "y"⟩ ⟨.var, "x"⟩ 2 (Grammar.next .var)⟩ := by
    decide +kernel
  obtain ⟨hvalidator, hparser⟩ := @truthful_of_rejection
    [⟨.var, "x", ""⟩, ⟨.var, "y", ""⟩, ⟨.opening, "(", "round"⟩, ⟨.opening, "<", ""⟩,
      ⟨.closing, ">", ""⟩, ⟨.closing, "]", "square"⟩] (List.cons_ne_nil _ _)
  obtain ⟨hclashes, -⟩ := @truthful_of_rejection
    [⟨.var, "x", ""⟩, ⟨.var, "y", ""⟩] (List.cons_ne_nil _ _)
  exact ⟨hvalidate, (hvalidator _ hvalidate).2.1, (hparser _ hparse).2,
    ((hclashes _ hneighbours).2.2 _ _ _ _ rfl).2⟩

end OperatorTerms
