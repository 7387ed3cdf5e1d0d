/-
Module: OperatorTerms.Proofs.RedundantTokens
Layer: Proofs
Purpose: Tokens that a sequence can do without. A second pair of parentheses around a group reads
  like the group, and a pair around a whole sequence reads like the sequence, for a group has the
  value of what it encloses. A semi-colon before a closing parenthesis or at the end completes the
  statement before it, which would have been completed there anyway. In both cases the sequences
  with and without the tokens are well formed under the same conditions, whatever stands around
  them, so they have the same tree or no tree.
Imports: OperatorTerms.Proofs.Arrangement, OperatorTerms.Proofs.DiagnosticAgreement,
  OperatorTerms.Proofs.ValidationGrammar
Main exports: SameTerm, sameTerm_of_meaning, wellNested_insert_iff, Arranged.takeAll?_doubled,
  parse_parenthesized, sameTerm_of_redundant_semicolon
-/
import OperatorTerms.Proofs.Arrangement
import OperatorTerms.Proofs.DiagnosticAgreement
import OperatorTerms.Proofs.ValidationGrammar

namespace OperatorTerms

/-- Both sequences have a tree, of the same term, or neither has one. -/
inductive SameTerm (tokens others : List Token) : Prop where
  | trees {tree tree' : Tree} : parse tokens = .ok tree → parse others = .ok tree' →
      tree.term = tree'.term → SameTerm tokens others
  | neither {error error' : SyntaxError} : parse tokens = .error error →
      parse others = .error error' → SameTerm tokens others

variable {tokens others front inner back rest : List Token} {opened closed opened' closed' : Token}
  {semicolon last : Token} {previous : Option Kind} {pieces : List Piece}

/-- Sequences that are well formed under the same condition, and mean the same then, have the same
    tree or none. -/
theorem sameTerm_of_meaning (hne : tokens ≠ []) (hne' : others ≠ [])
    (hvalid : validate tokens = .ok () ↔ validate others = .ok ())
    (hmeaning : validate tokens = .ok () → meaning? tokens = meaning? others) :
    SameTerm tokens others := by
  cases hparse : parse tokens with
  | ok tree =>
      have hvalidate := validate_of_parse hparse
      obtain ⟨tree', hparse'⟩ := exists_parse_of_validate hne' (hvalid.1 hvalidate)
      obtain ⟨reader, htake, hvalue⟩ := exists_reader_of_parse hparse
      obtain ⟨reader', htake', hvalue'⟩ := exists_reader_of_parse hparse'
      have hterm := hmeaning hvalidate
      rw [meaning?_eq, meaning?_eq, htake, htake', Option.bind_some, Option.bind_some, hvalue,
        hvalue'] at hterm
      exact .trees hparse hparse' (Option.some.inj hterm)
  | error error =>
      cases hparse' : parse others with
      | ok tree' =>
          obtain ⟨tree, htree⟩ :=
            exists_parse_of_validate hne (hvalid.2 (validate_of_parse hparse'))
          rw [hparse] at htree
          contradiction
      | error error' => exact .neither hparse hparse'

/-! ### Parentheses of a sequence with a part left out -/

/-- A well-nested part makes no difference to whether the rest is well nested. -/
theorem wellNested_insert_iff (h : WellNested inner) :
    WellNested (front ++ inner ++ back) ↔ WellNested (front ++ back) := by
  -- Any numbering of the tokens will do, so that of the rest does not shift.
  have hwith : WellNested (front ++ inner ++ back) ↔ Nesting.scan none []
      (Placed.from 1 front ++ (Placed.from 1 inner ++ Placed.from 1 back)) = .ok [] :=
    Nesting.wellNested_iff_scan (by simp)
  have hwithout : WellNested (front ++ back) ↔
      Nesting.scan none [] (Placed.from 1 front ++ Placed.from 1 back) = .ok [] :=
    Nesting.wellNested_iff_scan (by simp)
  rw [hwith, hwithout, Nesting.scan_append, Nesting.scan_append]
  cases Nesting.scan none [] (Placed.from 1 front) with
  | error error => rfl
  | ok opens =>
      change Nesting.scan _ _ _ = _ ↔ Nesting.scan _ _ _ = _
      rw [Nesting.scan_append, Nesting.scan_wellNested h (map_token_from 1 inner)]
      exact ⟨Nesting.scan_eq_ok_of_scan _, Nesting.scan_eq_ok_of_scan _⟩

/-! ### Redundant parentheses -/

theorem wellNested_group (hpairs : opened.pairsWith closed = true) (h : WellNested inner) :
    WellNested (opened :: inner ++ [closed]) :=
  .paired hpairs h .nil

/-- What is asked of the neighbours in a group, apart from those around it. -/
theorem linked_group (hpairs : opened.pairsWith closed = true) :
    Linked previous (opened :: inner ++ [closed]) ↔
      Grammar.allows previous .opening = true ∧ Linked (some .opening) inner ∧
        Grammar.allows (lastKind (some .opening) inner) .closing = true := by
  obtain ⟨hopened, hclosed⟩ := Token.kind_of_pairsWith hpairs
  simp [Linked, linked_append, hopened, hclosed]

theorem lastKind_group (hpairs : opened.pairsWith closed = true) :
    lastKind previous (opened :: inner ++ [closed]) = some .closing := by
  rw [lastKind_append, lastKind, lastKind, (Token.kind_of_pairsWith hpairs).2]

/-- A group in parentheses asks of its neighbours what the group does. -/
theorem linked_doubled (hpairs : opened.pairsWith closed = true)
    (hpairs' : opened'.pairsWith closed' = true) :
    Linked previous (opened :: (opened' :: inner ++ [closed']) ++ [closed]) ↔
      Linked previous (opened' :: inner ++ [closed']) := by
  have hopening : Grammar.allows (some .opening) .opening = true := by decide
  have hclosing : Grammar.allows (some .closing) .closing = true := by decide
  rw [linked_group hpairs, linked_group hpairs', lastKind_group hpairs', linked_group hpairs']
  simp [hopening, hclosing]

/-- A level that consists of a group has the value of what the group encloses. -/
theorem Reading.value?_takeGroup (inner : Term) :
    (({} : Reading).takeGroup inner).value? = some inner := rfl

/-- A group in parentheses is read as the group. -/
theorem Arranged.takeAll?_doubled (h : Arranged inner pieces)
    (hpairs : opened.pairsWith closed = true) (hpairs' : opened'.pairsWith closed' = true)
    (reader : Reader) :
    reader.takeAll? (opened :: (opened' :: inner ++ [closed']) ++ [closed]) =
      reader.takeAll? (opened' :: inner ++ [closed']) := by
  have hgroup := Arranged.group hpairs' h .nil
  rw [(Arranged.group hpairs hgroup .nil).takeAll? reader.reading reader.around,
    hgroup.takeAll? reader.reading reader.around]
  simp only [Piece.readAll, Piece.read, Reading.value?_takeGroup, Option.getD_some]

/-- A well-nested part can be exchanged for another that asks the same of its neighbours, ends with
    the same kind, and is read alike. -/
theorem sameTerm_of_exchange {inner' : List Token} (hne : inner ≠ []) (hne' : inner' ≠ [])
    (hnested : WellNested inner) (hnested' : WellNested inner')
    (hlinked : ∀ previous, Linked previous inner ↔ Linked previous inner')
    (hlast : ∀ previous, lastKind previous inner = lastKind previous inner')
    (htake : ∀ reader : Reader, reader.takeAll? inner = reader.takeAll? inner')
    (front back : List Token) : SameTerm (front ++ inner ++ back) (front ++ inner' ++ back) := by
  apply sameTerm_of_meaning
  · simp [hne]
  · simp [hne']
  · simp only [validate_eq_ok_iff, Nesting.check_eq_ok_iff_wellNested, linked_append,
      lastKind_append, wellNested_insert_iff hnested, wellNested_insert_iff hnested', hlinked,
      hlast]
  · intro _
    simp only [meaning?_eq, Reader.takeAll?_append, htake]

/-- A sequence that has a tree may stand in parentheses. -/
theorem validate_parenthesized (hpairs : opened.pairsWith closed = true)
    (hvalid : validate tokens = .ok ()) :
    validate (opened :: tokens ++ [closed]) = .ok () := by
  rw [validate_eq_ok_iff, Nesting.check_eq_ok_iff_wellNested] at hvalid ⊢
  obtain ⟨hnested, hlinked, hcloses⟩ := hvalid
  have hclosing : Grammar.allows (lastKind (some .opening) tokens) .closing = true := by
    cases tokens with
    | nil => rfl
    | cons token rest =>
        obtain ⟨final, hfinal⟩ := exists_lastKind token.kind rest
        rw [lastKind, hfinal] at hcloses ⊢
        exact (Site.allows_closing_iff final).2 (Site.ne_operand_of_closes hcloses)
  refine ⟨wellNested_group hpairs hnested, ?_, ?_⟩
  · exact (linked_group hpairs).2 ⟨by decide, hlinked.at_statement rfl, hclosing⟩
  · rw [lastKind_group hpairs]
    decide

/-- A group has the meaning of what it encloses. -/
theorem meaning?_parenthesized (hpairs : opened.pairsWith closed = true) (hne : tokens ≠ [])
    (hvalid : validate tokens = .ok ()) :
    meaning? (opened :: tokens ++ [closed]) = meaning? tokens := by
  obtain ⟨tree, reader, -, htake, hvalue⟩ := exists_tree_of_validate hne hvalid
  have hmeaning : meaning? tokens = some tree.term := by
    rw [meaning?_eq, htake]
    exact hvalue
  have hnested := (Nesting.check_eq_ok_iff_wellNested tokens).1
    ((validate_eq_ok_iff tokens).1 hvalid).1
  obtain ⟨pieces, harranged⟩ := hnested.exists_arranged
  have hpieces : (Piece.readAll {} pieces).value? = some tree.term := by
    rw [meaning?, harranged.arrange_eq] at hmeaning
    exact hmeaning
  rw [hmeaning, meaning?, (Arranged.group hpairs harranged .nil).arrange_eq, Option.bind_eq_bind,
    Option.bind_some]
  simp only [Piece.readAll, Piece.read, Reading.value?_takeGroup, hpieces, Option.getD_some]

/-- Parentheses around a whole sequence, and a second pair around a part, change nothing. -/
theorem parse_parenthesized (hpairs : opened.pairsWith closed = true) :
    (∀ tokens tree, parse tokens = .ok tree →
      ∃ tree', parse ([opened] ++ tokens ++ [closed]) = .ok tree' ∧ tree'.term = tree.term) ∧
    (∀ front inner back opened' closed', WellNested inner →
      opened'.pairsWith closed' = true →
        SameTerm (front ++ [opened, opened'] ++ inner ++ [closed', closed] ++ back)
          (front ++ [opened'] ++ inner ++ [closed'] ++ back)) := by
  constructor
  · intro tokens tree hparse
    have hne := (acceptAll_of_parse hparse).1
    have hvalid := validate_of_parse hparse
    have hsame : SameTerm (opened :: tokens ++ [closed]) tokens :=
      sameTerm_of_meaning (List.cons_ne_nil _ _) hne
        (iff_of_true (validate_parenthesized hpairs hvalid) hvalid)
        fun _ => meaning?_parenthesized hpairs hne hvalid
    cases hsame with
    | @trees tree' other hparse' hother hterm =>
        cases hparse.symm.trans hother
        exact ⟨tree', hparse', hterm⟩
    | neither _ herror =>
        rw [hparse] at herror
        contradiction
  · intro front inner back opened' closed' hnested hpairs'
    obtain ⟨pieces, harranged⟩ := hnested.exists_arranged
    have hgroup := wellNested_group hpairs' hnested
    have hsame := sameTerm_of_exchange (List.cons_ne_nil _ _) (List.cons_ne_nil _ _)
      (wellNested_group hpairs hgroup) hgroup
      (fun _ => linked_doubled hpairs hpairs')
      (fun _ => (lastKind_group hpairs).trans (lastKind_group hpairs').symm)
      (harranged.takeAll?_doubled hpairs hpairs') front back
    simpa using hsame

/-- Parentheses around a sequence that ends with a semi-colon, and around a group within a chain of
    operators. -/
theorem parse_parenthesized_statement :
    (∃ tree tree',
      parse [⟨.var, "x", ""⟩, ⟨.assign, "=", ""⟩, ⟨.var, "y", ""⟩, ⟨.semicolon, ";", ""⟩] =
        .ok tree ∧
      parse [⟨.opening, "(", "round"⟩, ⟨.var, "x", ""⟩, ⟨.assign, "=", ""⟩, ⟨.var, "y", ""⟩,
        ⟨.semicolon, ";", ""⟩, ⟨.closing, ")", "round"⟩] = .ok tree' ∧
      tree'.term = tree.term) ∧
    SameTerm
      [⟨.var, "x", ""⟩, ⟨.dyad, "+", ""⟩, ⟨.opening, "(", "round"⟩, ⟨.opening, "[", "square"⟩,
        ⟨.var, "y", ""⟩, ⟨.semicolon, ";", ""⟩, ⟨.closing, "]", "square"⟩, ⟨.closing, ")", "round"⟩,
        ⟨.suffixOp, "!", ""⟩, ⟨.dyad, "*", ""⟩, ⟨.var, "z", ""⟩]
      [⟨.var, "x", ""⟩, ⟨.dyad, "+", ""⟩, ⟨.opening, "[", "square"⟩,
        ⟨.var, "y", ""⟩, ⟨.semicolon, ";", ""⟩, ⟨.closing, "]", "square"⟩,
        ⟨.suffixOp, "!", ""⟩, ⟨.dyad, "*", ""⟩, ⟨.var, "z", ""⟩] := by
  obtain ⟨hwhole, hdoubled⟩ := @parse_parenthesized ⟨.opening, "(", "round"⟩
    ⟨.closing, ")", "round"⟩ (by decide)
  obtain ⟨tree, hparse⟩ := @exists_parse_of_validate [⟨.var, "x", ""⟩, ⟨.assign, "=", ""⟩,
    ⟨.var, "y", ""⟩, ⟨.semicolon, ";", ""⟩] (List.cons_ne_nil _ _) rfl
  obtain ⟨tree', hparse', hterm⟩ := hwhole _ tree hparse
  have hnested : WellNested [⟨.var, "y", ""⟩, ⟨.semicolon, ";", ""⟩] :=
    .plain (by decide) (.plain (by decide) .nil)
  exact ⟨⟨tree, tree', hparse, hparse', hterm⟩,
    hdoubled [⟨.var, "x", ""⟩, ⟨.dyad, "+", ""⟩] _
      [⟨.suffixOp, "!", ""⟩, ⟨.dyad, "*", ""⟩, ⟨.var, "z", ""⟩] ⟨.opening, "[", "square"⟩
      ⟨.closing, "]", "square"⟩ hnested (by decide)⟩

/-! ### Redundant semi-colons -/

/-- A closing parenthesis may stand wherever no operand is wanted, and so may the end. -/
theorem linked_closing_iff {before after : Kind} (hrest : ∀ next ∈ rest.head?, next.kind = .closing)
    (hbefore : Site.after (some before) ≠ .operand) (hafter : Site.after (some after) ≠ .operand) :
    Linked (some before) rest ↔ Linked (some after) rest := by
  cases rest with
  | nil => rfl
  | cons next rest =>
      rw [Linked, Linked, hrest next rfl, Site.allows_closing_iff, Site.allows_closing_iff]
      simp [hbefore, hafter]

/-- A semi-colon after an operand, before a closing parenthesis or at the end, asks nothing of its
    neighbours. -/
theorem validate_redundant_semicolon_iff (hsemicolon : semicolon.kind = .semicolon)
    (hlast : tokens.getLast? = some last)
    (hkind : last.kind = .var ∨ last.kind = .suffixOp ∨ last.kind = .closing)
    (hrest : ∀ next ∈ rest.head?, next.kind = .closing) :
    validate (tokens ++ [semicolon] ++ rest) = .ok () ↔ validate (tokens ++ rest) = .ok () := by
  have hplain : WellNested [semicolon] := .plain (by rw [hsemicolon]; rfl) .nil
  have hsite : Site.after (some last.kind) ≠ .operand := by
    rcases hkind with hkind | hkind | hkind <;> rw [hkind] <;> decide
  have hsemicolonSite : Site.after (some .semicolon) ≠ .operand := by decide
  have hallowed : Grammar.allows (some last.kind) .semicolon = true :=
    (Site.allows_semicolon_iff _).2 hsite
  have hcloses : Grammar.closes (lastKind (some .semicolon) rest) =
      Grammar.closes (lastKind (some last.kind) rest) := by
    cases rest with
    | nil => rcases hkind with hkind | hkind | hkind <;> rw [hkind] <;> decide
    | cons next rest => rfl
  have hlinked : Linked none (tokens ++ [semicolon] ++ rest) ↔ Linked none (tokens ++ rest) := by
    simp only [linked_append, lastKind_append, lastKind_of_getLast? hlast, Linked, lastKind,
      hsemicolon, hallowed, and_true, linked_closing_iff hrest hsemicolonSite hsite]
  have hend : Grammar.closes (lastKind none (tokens ++ [semicolon] ++ rest)) =
      Grammar.closes (lastKind none (tokens ++ rest)) := by
    simp only [lastKind_append, lastKind_of_getLast? hlast, lastKind, hsemicolon, hcloses]
  rw [validate_eq_ok_iff, validate_eq_ok_iff, Nesting.check_eq_ok_iff_wellNested,
    Nesting.check_eq_ok_iff_wellNested, wellNested_insert_iff hplain, hlinked, hend]

namespace Reader

variable {reading reading' : Reading} {around : List (Token × Reading)}

/-- A closing parenthesis and the end ask for the value of the level, and for nothing else. -/
theorem bind_value?_congr (hrest : ∀ next ∈ rest.head?, next.kind = .closing)
    (hvalue : reading.value? = reading'.value?) :
    (takeAll? ⟨reading, around⟩ rest).bind value? =
      (takeAll? ⟨reading', around⟩ rest).bind value? := by
  cases rest with
  | nil =>
      cases around with
      | nil => exact hvalue
      | cons entry around => rfl
  | cons closed rest =>
      have hclosed := hrest closed rfl
      rw [takeAll?_cons, takeAll?_cons]
      cases around with
      | nil => simp only [take?, hclosed]
      | cons entry around => rw [take?_closing hclosed, take?_closing hclosed, hvalue]

/-- A semi-colon after an operand leaves the value of the level as it is. -/
theorem value?_take_semicolon (hsemicolon : semicolon.kind = .semicolon)
    (chain : List (Term × Token)) (operand : Term) :
    (Reading.take { chain, current := some operand } semicolon).value? =
      Reading.value? { chain, current := some operand } := by
  simp only [Reading.take, hsemicolon]
  rfl

end Reader

/-- A semi-colon after an operand, before a closing parenthesis or at the end, makes no
    difference. -/
theorem sameTerm_of_redundant_semicolon (hsemicolon : semicolon.kind = .semicolon)
    (hlast : tokens.getLast? = some last)
    (hkind : last.kind = .var ∨ last.kind = .suffixOp ∨ last.kind = .closing)
    (hrest : ∀ next ∈ rest.head?, next.kind = .closing) :
    SameTerm (tokens ++ [semicolon] ++ rest) (tokens ++ rest) := by
  have hne : tokens ≠ [] := by
    rintro rfl
    contradiction
  have hiff := validate_redundant_semicolon_iff hsemicolon hlast hkind hrest
  refine sameTerm_of_meaning (by simp) (by simp [hne]) hiff fun hvalid => ?_
  -- Where the semi-colon comes an operand has been read.
  have hlinked := ((validate_eq_ok_iff _).1 hvalid).2.1
  rw [List.append_assoc, linked_append] at hlinked
  obtain ⟨-, reader, -, htake, -⟩ := exists_tree_of_validate (by simp) hvalid
  rw [List.append_assoc, Reader.takeAll?_append, Option.bind_eq_some_iff] at htake
  obtain ⟨⟨reading, around⟩, htokens, -⟩ := htake
  have hphase := (Reader.Sound.initial.takeAll? hlinked.1 htokens).phase
  rw [lastKind_of_getLast? hlast] at hphase
  have hallowed : Grammar.allows (some last.kind) .suffixOp = true := by
    rcases hkind with hkind | hkind | hkind <;> rw [hkind] <;> decide
  obtain ⟨chain, operand, rfl⟩ := hphase.operand_read hallowed (by simp)
  have hplain : semicolon.kind.isBracket = false := by
    rw [hsemicolon]
    rfl
  rw [meaning?_eq, meaning?_eq, List.append_assoc, Reader.takeAll?_append,
    Reader.takeAll?_append, htokens, Option.bind_some, Option.bind_some, List.singleton_append,
    Reader.takeAll?_cons, Reader.take?_plain hplain, Option.bind_some]
  exact Reader.bind_value?_congr hrest (Reader.value?_take_semicolon hsemicolon chain operand)

/-- A semi-colon between an empty group and the end of the group around it. The semi-colon at the
    start of that group, which nothing comes before, has to stay. -/
theorem sameTerm_of_semicolon_in_group :
    (∃ tree, parse [⟨.prefixOp, "-", ""⟩, ⟨.opening, "(", "round"⟩, ⟨.semicolon, ";", ""⟩,
      ⟨.var, "x", ""⟩, ⟨.dyad, "+", ""⟩, ⟨.opening, "(", "round"⟩, ⟨.closing, ")", "round"⟩,
      ⟨.semicolon, ";", ""⟩, ⟨.closing, ")", "round"⟩, ⟨.suffixOp, "!", ""⟩] = .ok tree) ∧
    SameTerm
      [⟨.prefixOp, "-", ""⟩, ⟨.opening, "(", "round"⟩, ⟨.semicolon, ";", ""⟩, ⟨.var, "x", ""⟩,
        ⟨.dyad, "+", ""⟩, ⟨.opening, "(", "round"⟩, ⟨.closing, ")", "round"⟩,
        ⟨.semicolon, ";", ""⟩, ⟨.closing, ")", "round"⟩, ⟨.suffixOp, "!", ""⟩]
      [⟨.prefixOp, "-", ""⟩, ⟨.opening, "(", "round"⟩, ⟨.semicolon, ";", ""⟩, ⟨.var, "x", ""⟩,
        ⟨.dyad, "+", ""⟩, ⟨.opening, "(", "round"⟩, ⟨.closing, ")", "round"⟩,
        ⟨.closing, ")", "round"⟩, ⟨.suffixOp, "!", ""⟩] := by
  constructor
  · exact exists_parse_of_validate (List.cons_ne_nil _ _) rfl
  · exact @sameTerm_of_redundant_semicolon [⟨.prefixOp, "-", ""⟩, ⟨.opening, "(", "round"⟩,
      ⟨.semicolon, ";", ""⟩, ⟨.var, "x", ""⟩, ⟨.dyad, "+", ""⟩, ⟨.opening, "(", "round"⟩,
      ⟨.closing, ")", "round"⟩] [⟨.closing, ")", "round"⟩, ⟨.suffixOp, "!", ""⟩]
      ⟨.semicolon, ";", ""⟩ ⟨.closing, ")", "round"⟩ rfl rfl (by decide) (by decide)

end OperatorTerms
