/-
Module: OperatorTerms.Proofs.DiagnosticAgreement
Layer: Proofs
Purpose: How the diagnostics of the parser answer to those of the validator. The validator looks at
  the parentheses of the whole sequence first and at the neighbours afterwards; the parser looks at
  both, token by token, and sees terms where the validator sees the tokens they were made of. Each
  of the validator's six reasons therefore has its own counterpart, at the same place unless the
  tables object to an earlier token.
Imports: OperatorTerms.Proofs.ParseFailure, OperatorTerms.Proofs.ValidationFailure
Main exports: Token.CitedAs, tokenBefore?, RejectsUpTo, Corresponds, parse_unexpectedElement,
  parse_of_not_linked, parse_error_of_validate_error
-/
import OperatorTerms.Proofs.ParseFailure
import OperatorTerms.Proofs.ValidationFailure

namespace OperatorTerms

/-- Kinds of tokens that stay on the stack as they are until what they wait for has been read. -/
def Kind.waits : Kind → Bool
  | assign | opening | dyad | prefixOp | semicolon => true
  | closing | suffixOp | term | var => false

/-- How the parser cites the token before the one it rejects: as it is while it waits, and otherwise
    as the term that it has become a part of. -/
def Token.CitedAs (token : Token) (element : Element) : Prop :=
  if token.kind.waits then element = token.element else element.kind = .term

/-- The token just before a position, if there is one. -/
def tokenBefore? (tokens : List Token) (position : Position) : Option Token :=
  (tokens.take (position - 1)).getLast?

/-- The error rejects a token because of the tables, at the given position or before it. -/
inductive RejectsUpTo (limit : Position) : SyntaxError → Prop where
  | start {position : Position} {element : Element} {expected : KindSet} : position ≤ limit →
      RejectsUpTo limit ⟨position, .unexpectedStart element expected⟩
  | element {position place : Position} {element previous : Element} {expected : KindSet} :
      position ≤ limit →
        RejectsUpTo limit ⟨position, .unexpectedElement element previous place expected⟩

/-- How an error of the parser answers to the error of the validator for the same sequence. -/
def Corresponds (tokens : List Token) (validated parsed : SyntaxError) : Prop :=
  match validated with
  | ⟨_, .unexpectedStart _ _⟩ => parsed = validated
  | ⟨position, .unexpectedElement element previous place expected⟩ =>
      ∃ before shown, tokenBefore? tokens position = some before ∧ previous = before.element ∧
        before.CitedAs shown ∧
          parsed = ⟨position, .unexpectedElement element shown place expected⟩
  | ⟨_, .unexpectedEnd last expected⟩ => parsed = ⟨tokens.length, .incomplete last expected⟩
  | ⟨position, .parenthesisMismatch _ _ _ _⟩ =>
      RejectsUpTo position parsed ∨ parsed = validated
  | ⟨position, .unexpectedClosing closed place expected⟩ =>
      RejectsUpTo position parsed ∨
        ∃ seen, parsed = ⟨position, .unexpectedClosing closed place seen⟩ ∧
          ((tokenBefore? tokens position).map Token.kind ≠ some .semicolon → seen = expected)
  | ⟨_, .unclosed _ _⟩ =>
      RejectsUpTo tokens.length parsed ∨
        ∃ last, tokens.getLast? = some last ∧
          parsed = ⟨tokens.length, .incomplete last.element (Grammar.next last.kind)⟩
  | ⟨_, .incomplete _ _⟩ | ⟨_, .empty _⟩ => False

variable {tokens : List Token} {placed front back opened : List Placed} {next : Placed}
  {previous : Option Kind} {error : SyntaxError}

theorem tokenBefore?_eq (h : Placed.all tokens = front ++ next :: back) :
    tokenBefore? tokens next.position = (front.map Placed.token).getLast? := by
  have htokens := map_token_all tokens
  rw [h, List.map_append] at htokens
  rw [tokenBefore?, position_of_all h, ← htokens, Nat.add_sub_cancel, List.take_left']
  exact List.length_map ..

/-! ### What the parser cites -/

namespace Reader

variable {reader final : Reader} {token : Token}

theorem Sound.takeAll? (h : Sound previous reader) (hlinked : Linked previous tokens)
    (htake : reader.takeAll? tokens = some final) : Sound (lastKind previous tokens) final := by
  induction tokens generalizing previous reader with
  | nil =>
      cases htake
      exact h
  | cons token rest ih =>
      rw [takeAll?_cons, Option.bind_eq_some_iff] at htake
      obtain ⟨next, hnext, htake⟩ := htake
      exact ih (h.take? hlinked.1 hnext) hlinked.2 htake

/-- Once a token has been read, a diagnostic cites it or the term that it has become a part of. -/
theorem Sound.citedAs_take? (h : Sound previous reader)
    (hallowed : Grammar.allows previous token.kind = true) (htake : reader.take? token = some final) :
    ∃ shown, final.shown? = some shown ∧ token.CitedAs shown := by
  rcases reader with ⟨reading, around⟩
  rcases take?_cases htake with
    ⟨hkind, rfl⟩ | ⟨opened, outer, around, rfl, hpairs, rfl⟩ | ⟨hkind, rfl⟩
  · exact ⟨_, rfl, by simp [Token.CitedAs, hkind, Kind.waits]⟩
  · have hkind := (Token.kind_of_pairsWith hpairs).2
    exact ⟨_, rfl, by simp [Token.CitedAs, hkind, Kind.waits]⟩
  · have htakes := h.phase.takes hallowed hkind
    generalize reading.take token = taken at htakes ⊢
    cases htakes with
    | infixOp hkind =>
        refine ⟨_, rfl, ?_⟩
        rcases hkind with hkind | hkind <;> simp [Token.CitedAs, hkind, Kind.waits]
    | suffixOp hkind | prefixOp hkind | var hkind | semicolon hkind _ =>
        exact ⟨_, rfl, by simp [Token.CitedAs, hkind, Kind.waits]⟩

theorem Sound.citedAs_takeAll? (h : Sound previous reader)
    (hlinked : Linked previous (tokens ++ [token]))
    (htake : reader.takeAll? (tokens ++ [token]) = some final) :
    ∃ shown, final.shown? = some shown ∧ token.CitedAs shown := by
  rw [takeAll?_append] at htake
  obtain ⟨between, htokens, htoken⟩ := Option.bind_eq_some_iff.1 htake
  obtain ⟨hlinked, hallowed, -⟩ := linked_append.1 hlinked
  obtain ⟨final', hfinal, hnil⟩ := Option.bind_eq_some_iff.1 htoken
  cases hnil
  exact (h.takeAll? hlinked htokens).citedAs_take? hallowed hfinal

end Reader

/-- The kind of a cited token decides what may follow it, however it is cited. -/
theorem Token.CitedAs.next_eq {token : Token} {shown : Element} (h : token.CitedAs shown) :
    Grammar.next shown.kind = Grammar.next token.kind := by
  rw [CitedAs] at h
  split at h
  · rw [h]
    rfl
  · rename_i hwaits
    rw [h]
    revert hwaits
    cases token.kind <;> simp [Kind.waits, Grammar.next]

/-! ### What the parser rejects -/

theorem exists_reader (hlinked : Linked none (front.map Placed.token))
    (hscan : Nesting.scan none [] front = .ok opened) :
    ∃ reader, ({} : Reader).takeAll? (front.map Placed.token) = some reader := by
  obtain ⟨-, reader, -, htake, -⟩ := (State.Follows.initial 0).acceptAll hlinked hscan
  exact ⟨reader, htake⟩

/-- If the tables object to the first token, the parser says so. -/
theorem parse_unexpectedStart (hall : Placed.all tokens = next :: back)
    (hallowed : Grammar.allows none next.token.kind = false) :
    parse tokens = .error ⟨1, .unexpectedStart next.token.element Grammar.first⟩ := by
  have hposition : next.position = 1 := @position_of_all tokens [] back next hall
  have hrejected : Rejected ([] ++ next :: back) (({} : Reader).rejection next) :=
    .after trivial rfl rfl (.table hallowed)
  rw [List.nil_append, ← hall] at hrejected
  rw [parse_eq_error_of_rejected hrejected, ← hposition]
  rfl

/-- If the tables object to a later token, the parser cites the one before it. -/
theorem parse_unexpectedElement {last : Token} (hall : Placed.all tokens = front ++ next :: back)
    (hlast : (front.map Placed.token).getLast? = some last)
    (hlinked : Linked none (front.map Placed.token))
    (hscan : Nesting.scan none [] front = .ok opened)
    (hallowed : Grammar.allows (some last.kind) next.token.kind = false) :
    ∃ shown, last.CitedAs shown ∧ parse tokens = .error ⟨next.position,
      .unexpectedElement next.token.element shown next.position (Grammar.next last.kind)⟩ := by
  obtain ⟨reader, htake⟩ := exists_reader hlinked hscan
  have hrejected : Rejected (Placed.all tokens) (reader.rejection next) := by
    rw [hall]
    exact .after hlinked hscan htake (.table (by rw [lastKind_of_getLast? hlast, hallowed]))
  obtain ⟨init, hinit⟩ := List.getLast?_eq_some_iff.1 hlast
  rw [hinit] at hlinked htake
  obtain ⟨shown, hshown, hcited⟩ := Reader.Sound.initial.citedAs_takeAll? hlinked htake
  refine ⟨shown, hcited, ?_⟩
  rw [parse_eq_error_of_rejected hrejected, Reader.rejection, hshown, ← hcited.next_eq]

/-- If a beginning of the sequence is not linked, the parser rejects one of its tokens because of
    the tables, as long as the bracket scan has no objection to the tokens before. -/
theorem parse_of_not_linked (hall : Placed.all tokens = front ++ back)
    (hlinked : ¬ Linked none (front.map Placed.token))
    (hscan : Nesting.scan none [] front.dropLast = .ok opened) :
    ∃ parsed, parse tokens = .error parsed ∧ RejectsUpTo front.length parsed := by
  obtain ⟨before, next, after, rfl, hbefore, hallowed⟩ := exists_cut_of_not_linked hlinked
  rw [List.dropLast_append_of_ne_nil (List.cons_ne_nil _ _)] at hscan
  obtain ⟨opened, hscan⟩ := Nesting.exists_scan_front (List.prefix_append _ _) hscan
  obtain ⟨reader, htake⟩ := exists_reader hbefore hscan
  rw [List.append_assoc, List.cons_append] at hall
  have hrejected : Rejected (Placed.all tokens) (reader.rejection next) := by
    rw [hall]
    exact .after hbefore hscan htake (.table hallowed)
  have hposition : next.position ≤ (before ++ next :: after).length := by
    rw [position_of_all hall, List.length_append]
    exact Nat.add_le_add_left (Nat.le_add_left 1 _) _
  refine ⟨_, parse_eq_error_of_rejected hrejected, ?_⟩
  rw [Reader.rejection]
  split
  · exact .start hposition
  · exact .element hposition

/-! ### The correspondence -/

/-- Before a closing parenthesis without partner, what the validator expects is what the parser
    expects after a term, unless a semi-colon stands there. -/
theorem expectedAfter_eq (hlinked : Linked none ((front ++ [next]).map Placed.token))
    (hscan : Nesting.scan none [] front = .ok []) (hkind : next.token.kind = .closing)
    (hsemicolon : (front.map Placed.token).getLast?.map Token.kind ≠ some .semicolon) :
    Grammar.expectedAfter (some .term) =
      Grammar.expectedAfter (lastKind none (front.map Placed.token)) := by
  rw [List.map_append] at hlinked
  obtain ⟨-, hallowed, -⟩ := linked_append.1 hlinked
  rw [hkind] at hallowed
  cases hlast : (front.map Placed.token).getLast? with
  | none =>
      rw [List.getLast?_eq_none_iff.1 hlast] at hallowed
      exact absurd hallowed (by decide)
  | some last =>
      have hopening : last.kind ≠ .opening := fun h => Nesting.scan_ne_nil hlast h hscan
      have hseparator : last.kind ≠ .semicolon := fun h => hsemicolon (by rw [hlast, ← h]; rfl)
      rw [lastKind_of_getLast? hlast] at hallowed ⊢
      revert hallowed hopening hseparator
      cases last.kind <;> simp [Grammar.expectedAfter, Grammar.next, Grammar.allows]

/-- When the bracket scan of the validator fails, so does the parser: at the same parenthesis, or
    at an earlier token because of the tables. -/
theorem corresponds_of_scan_error
    (h : Nesting.scan none [] (Placed.all tokens) = .error error) :
    ∃ parsed, parse tokens = .error parsed ∧ Corresponds tokens error parsed := by
  obtain ⟨front, next, back, opened, hall, hscan, hstep⟩ := Nesting.scan_error h
  obtain ⟨hkind, herror⟩ := Nesting.step_error_cases hstep
  by_cases hlinked : Linked none ((front ++ [next]).map Placed.token)
  · have hfront := hlinked
    rw [List.map_append] at hfront
    obtain ⟨hfront, hallowed, -⟩ := linked_append.1 hfront
    obtain ⟨reader, htake⟩ := exists_reader hfront hscan
    have hparse {parsed : SyntaxError}
        (hstep : Nesting.step (some .term) opened next = .error parsed) :
        parse tokens = .error parsed := by
      apply parse_eq_error_of_rejected
      rw [hall]
      exact .after hfront hscan htake (.bracket hallowed hstep)
    rcases herror with ⟨rfl, rfl⟩ | ⟨innermost, outer, rfl, hpairs, rfl⟩
    · refine ⟨_, hparse (Nesting.step_closing_nil hkind), .inr ⟨_, rfl, ?_⟩⟩
      intro hsemicolon
      rw [tokenBefore?_eq hall] at hsemicolon
      exact expectedAfter_eq hlinked hscan hkind hsemicolon
    · refine ⟨_, hparse ?_, .inr rfl⟩
      rw [Nesting.step_closing hkind, if_neg (by simp [hpairs])]
  · have hcut : Placed.all tokens = (front ++ [next]) ++ back := by simp [hall]
    have hfront : Nesting.scan none [] (front ++ [next]).dropLast = .ok opened := by
      simpa using hscan
    obtain ⟨parsed, hparse, hrejects⟩ := parse_of_not_linked hcut hlinked hfront
    have hposition : (front ++ [next]).length = next.position := by
      rw [position_of_all hall, List.length_append]
      rfl
    rw [hposition] at hrejects
    refine ⟨parsed, hparse, ?_⟩
    rcases herror with ⟨-, rfl⟩ | ⟨innermost, outer, -, -, rfl⟩
    · exact .inl hrejects
    · exact .inl hrejects

/-- When the validator finds a parenthesis that is never closed, the parser finds the sequence
    incomplete, unless the tables object to a token. -/
theorem corresponds_of_unclosed {innermost : Placed} {outer : List Placed}
    (h : Nesting.scan none [] (Placed.all tokens) = .ok (innermost :: outer)) :
    ∃ parsed, parse tokens = .error parsed ∧
      Corresponds tokens
        ⟨innermost.position, .unclosed innermost.token.label innermost.position⟩ parsed := by
  by_cases hlinked : Linked none tokens
  · have hne : tokens ≠ [] := by
      rintro rfl
      exact absurd (Except.ok.inj h).symm (List.cons_ne_nil _ _)
    obtain ⟨last, hlast, -⟩ := exists_last hne
    obtain ⟨hposition, hlastToken⟩ := last_of_all hlast
    have hparse := parse_incomplete hlast hlinked h (.inl (List.cons_ne_nil _ _))
    rw [hposition] at hparse
    exact ⟨_, hparse, .inr ⟨last.token, hlastToken, rfl⟩⟩
  · rw [← map_token_all tokens] at hlinked
    obtain ⟨opened, hscan⟩ := Nesting.exists_scan_front (List.dropLast_prefix _) h
    obtain ⟨parsed, hparse, hrejects⟩ :=
      parse_of_not_linked (List.append_nil _).symm hlinked hscan
    rw [length_of_all] at hrejects
    exact ⟨parsed, hparse, .inl hrejects⟩

/-- When the validator objects to a token because of the tables, so does the parser. -/
theorem corresponds_of_neighbours {first : Placed} {rest : List Placed}
    (hall : Placed.all tokens = first :: rest)
    (hscan : Nesting.scan none [] (Placed.all tokens) = .ok opened)
    (h : Validation.checkNeighbours first.token rest = .error error)
    (hfirst : Grammar.allows none first.token.kind = true) :
    ∃ parsed, parse tokens = .error parsed ∧ Corresponds tokens error parsed := by
  obtain ⟨front, next, back, last, rfl, hlast, hlinked, hallowed, rfl⟩ :=
    Validation.checkNeighbours_error h
  have hcut : Placed.all tokens = (first :: front) ++ next :: back := hall
  rw [hcut] at hscan
  obtain ⟨opened, hscan⟩ := Nesting.exists_scan_front (List.prefix_append _ _) hscan
  obtain ⟨shown, hcited, hparse⟩ :=
    parse_unexpectedElement hcut hlast ⟨hfirst, hlinked⟩ hscan hallowed
  exact ⟨_, hparse, last, shown, (tokenBefore?_eq hcut).trans hlast, rfl, hcited, rfl⟩

/-- Whatever the validator rejects the parser rejects, with the corresponding error. -/
theorem parse_error_of_validate_error (h : validate tokens = .error error) :
    ∃ parsed, parse tokens = .error parsed ∧ Corresponds tokens error parsed := by
  rcases validate_error_cases h with hcheck | ⟨hcheck, first, rest, hall, hchecks⟩
  · rcases Nesting.check_error hcheck with hscan | ⟨innermost, outer, hscan, rfl⟩
    · exact corresponds_of_scan_error hscan
    · exact corresponds_of_unclosed hscan
  have hscan := (Nesting.check_eq_ok_iff_scan tokens).1 hcheck
  rcases hchecks with hfirst | ⟨hfirst, hneighbours⟩ | ⟨hlinked, hlast⟩
  · obtain ⟨hallowed, rfl⟩ := Validation.checkFirst_error hfirst
    exact ⟨_, parse_unexpectedStart hall hallowed, rfl⟩
  · exact corresponds_of_neighbours hall hscan hneighbours hfirst
  · obtain ⟨hcloses, rfl⟩ := Validation.checkLast_error hlast
    have hgetLast : (Placed.all tokens).getLast? = some (rest.getLastD first) := by
      rw [hall, List.getLast?_cons, List.getLastD_eq_getLast?]
    obtain ⟨hposition, hlastToken⟩ := last_of_all hgetLast
    have hend : Grammar.closes (lastKind none tokens) = false := by
      rw [lastKind_of_getLast? hlastToken]
      exact hcloses
    have hparse := parse_incomplete hgetLast hlinked hscan (.inr hend)
    rw [hposition] at hparse
    exact ⟨_, hparse, rfl⟩

/-- A closing parenthesis without partner after a semi-colon: the parser no longer sees the
    semi-colon, so what it expects is not what the validator expects. -/
theorem parse_error_of_stray_closing :
    ∃ parsed, parse [⟨.var, "x", ""⟩, ⟨.semicolon, ";", ""⟩, ⟨.closing, ")", "round"⟩] =
        .error parsed ∧
      Corresponds [⟨.var, "x", ""⟩, ⟨.semicolon, ";", ""⟩, ⟨.closing, ")", "round"⟩]
        ⟨3, .unexpectedClosing ")" 3 (Grammar.next .semicolon)⟩ parsed :=
  parse_error_of_validate_error rfl

end OperatorTerms
