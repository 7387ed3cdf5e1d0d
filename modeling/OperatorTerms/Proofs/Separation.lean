/-
Module: OperatorTerms.Proofs.Separation
Layer: Proofs
Purpose: What a semi-colon separates. A level that is read behind a semi-colon differs from the same
  level read alone by one link at the bottom of its chain, until a group ends: a group closes the
  whole chain, and the link with it. So the semi-colon takes the statement on its right as a whole
  unless that statement goes on after a group, and then it is the operators after the group that
  take the semi-colon.
Imports: OperatorTerms.Proofs.Arrangement, OperatorTerms.Proofs.DiagnosticAgreement,
  OperatorTerms.Proofs.ValidationGrammar
Main exports: Piece.isGroup, SingleStatement, Reading.behind, readAll_behind, Reading.Outgrown,
  Arranged.outgrown_readAll, separated_group_goes_on, term_of_separated
-/
import OperatorTerms.Proofs.Arrangement
import OperatorTerms.Proofs.DiagnosticAgreement
import OperatorTerms.Proofs.ValidationGrammar

namespace OperatorTerms

/-- Whether a piece is a group. -/
def Piece.isGroup : Piece → Bool
  | plain _ => false
  | group _ _ _ => true

/-- No semi-colon stands on the level of the pieces. -/
def SingleStatement (pieces : List Piece) : Prop :=
  ∀ token, Piece.plain token ∈ pieces → token.kind ≠ .semicolon

variable {tokens statement rest : List Token} {pieces before after : List Piece} {token : Token}
  {reading taken : Reading} {previous : Option Kind} {around : List (Token × Reading)}

theorem SingleStatement.of_cons {piece : Piece} (h : SingleStatement (piece :: pieces)) :
    SingleStatement pieces :=
  fun token htoken => h token (List.mem_cons_of_mem _ htoken)

theorem SingleStatement.of_append_left (h : SingleStatement (before ++ after)) :
    SingleStatement before :=
  fun token htoken => h token (List.mem_append_left _ htoken)

theorem SingleStatement.of_append_right (h : SingleStatement (before ++ after)) :
    SingleStatement after :=
  fun token htoken => h token (List.mem_append_right _ htoken)

/-- A sequence that is a single statement does not end with a semi-colon. -/
theorem Arranged.lastKind_ne_semicolon (h : Arranged tokens pieces)
    (hsingle : SingleStatement pieces) (hprevious : previous ≠ some .semicolon) :
    lastKind previous tokens ≠ some .semicolon := by
  induction h generalizing previous with
  | nil => exact hprevious
  | @plain token rest pieces _ _ ih =>
      apply ih hsingle.of_cons
      simpa using hsingle token List.mem_cons_self
  | @group opened closed inner rest inside pieces hpairs _ _ _ ihrest =>
      rw [lastKind_append]
      apply ihrest hsingle.of_cons
      simp [(Token.kind_of_pairsWith hpairs).2]

/-- Either no piece is a group, or the pieces can be cut after the first group. -/
theorem exists_first_group (pieces : List Piece) :
    (∀ piece ∈ pieces, piece.isGroup = false) ∨
      ∃ before opened closed inner after,
        pieces = (before ++ [.group opened closed inner]) ++ after ∧
          ∀ piece ∈ before, piece.isGroup = false := by
  induction pieces with
  | nil => simp
  | cons piece pieces ih =>
      cases piece with
      | group opened closed inner => exact .inr ⟨[], opened, closed, inner, pieces, rfl, by simp⟩
      | plain token =>
          rcases ih with hplain | ⟨before, opened, closed, inner, after, rfl, hplain⟩
          · exact .inl (List.forall_mem_cons.2 ⟨rfl, hplain⟩)
          · exact .inr ⟨.plain token :: before, opened, closed, inner, after, rfl,
              List.forall_mem_cons.2 ⟨rfl, hplain⟩⟩

/-! ### A level behind a link -/

namespace Reading

/-- The level with one more link, older than all the others. -/
def behind (link : Term × Token) (reading : Reading) : Reading :=
  { reading with chain := reading.chain ++ [link] }

theorem closeChain_behind (link : Term × Token) (reading : Reading) (last : Term) :
    (reading.behind link).closeChain last =
      node link.2 [link.1, reading.closeChain last] := by
  simp [behind, closeChain, List.foldl_append]

/-- Only a semi-colon and a group look at the old end of the chain. -/
theorem take_behind (link : Term × Token) (reading : Reading) (hkind : token.kind ≠ .semicolon) :
    (reading.behind link).take token = (reading.take token).behind link := by
  rcases reading with ⟨chain, prefixes, current⟩
  cases hcase : token.kind with
  | semicolon => exact absurd hcase hkind
  | assign | dyad => cases current <;> simp [take, behind, hcase]
  | var => simp [take, behind, hcase, applyPrefixes]
  | opening | closing | prefixOp | suffixOp | term => simp [take, behind, hcase]

/-- A group that ends behind the link takes the link into its operand. -/
theorem takeGroup_behind (link : Term × Token) (reading : Reading) (inner : Term) :
    (reading.behind link).takeGroup inner =
      { current := some (node link.2
          [link.1, reading.closeChain (reading.applyPrefixes inner)]) } := by
  rw [takeGroup, closeChain_behind]
  rfl

end Reading

/-- As long as no group ends, the pieces are read behind the link as they are read alone. -/
theorem readAll_behind (link : Term × Token) (hsingle : SingleStatement pieces)
    (hplain : ∀ piece ∈ pieces, piece.isGroup = false) :
    Piece.readAll (reading.behind link) pieces = (Piece.readAll reading pieces).behind link := by
  induction pieces generalizing reading with
  | nil => simp only [Piece.readAll]
  | cons piece pieces ih =>
      obtain ⟨hpiece, hpieces⟩ := List.forall_mem_cons.1 hplain
      cases piece with
      | group opened closed inner => contradiction
      | plain token =>
          have hkind := hsingle token List.mem_cons_self
          simp only [Piece.readAll, Piece.read]
          rw [Reading.take_behind link reading hkind]
          exact ih hsingle.of_cons hpieces

/-- The first group completes the level behind the link as it does alone, except that it takes the
    link into its operand. -/
theorem exists_readAll_group (reading : Reading) (link : Term × Token) (opened closed : Token)
    (inner : List Piece) (hsingle : SingleStatement before)
    (hplain : ∀ piece ∈ before, piece.isGroup = false) :
    ∃ value,
      Piece.readAll reading (before ++ [.group opened closed inner]) =
        { current := some value } ∧
      Piece.readAll (reading.behind link) (before ++ [.group opened closed inner]) =
        { current := some (Reading.node link.2 [link.1, value]) } := by
  constructor
  constructor
  · rw [Reader.readAll_append]
    simp only [Piece.readAll, Piece.read]
    rfl
  · rw [Reader.readAll_append, readAll_behind link hsingle hplain]
    simp only [Piece.readAll, Piece.read]
    exact Reading.takeGroup_behind link _ _

/-- Where no group is followed by anything, the link ends up above all that was read behind it. -/
theorem value?_behind {chain : List (Term × Token)} {operand : Term} (link : Term × Token)
    (hsingle : SingleStatement pieces) (hplain : ∀ piece ∈ pieces.dropLast, piece.isGroup = false)
    (hread : Piece.readAll {} pieces = { chain, current := some operand }) :
    (Piece.readAll (Reading.behind link {}) pieces).value? =
      some (Reading.node link.2 [link.1, Reading.closeChain { chain } operand]) := by
  rcases exists_first_group pieces with hall | ⟨before, opened, closed, inner, after, rfl, hbefore⟩
  · rw [readAll_behind link hsingle hall, hread]
    exact congrArg some (Reading.closeChain_behind link _ operand)
  · have hafter : after = [] := by
      cases after with
      | nil => rfl
      | cons next after =>
          have hgroup := hplain (.group opened closed inner) (by simp)
          contradiction
    rw [hafter, List.append_nil] at hread ⊢
    obtain ⟨value, halone, hbehind⟩ :=
      exists_readAll_group {} link opened closed inner
        hsingle.of_append_left.of_append_left hbefore
    cases halone.symm.trans hread
    rw [hbehind]
    rfl

/-! ### A level that goes on after a group -/

/-- Whatever the level comes to, the operator of its term is no semi-colon: another operator waits
    at the old end of the chain, or it stands above the only operand. -/
inductive Reading.Outgrown : Reading → Prop where
  | link {chain : List (Term × Token)} {operand : Term} {operator : Token} {prefixes : List Token}
      {current : Option Term} : operator.kind ≠ .semicolon →
        Outgrown { chain := chain ++ [(operand, operator)], prefixes, current }
  | operand {operand : Term} : operand.kind ≠ .semicolon → Outgrown { current := some operand }

namespace Reading.Outgrown

theorem kind_ne_semicolon {chain : List (Term × Token)} {operand : Term}
    (h : Outgrown { chain, current := some operand }) :
    (Reading.closeChain { chain } operand).kind ≠ .semicolon := by
  generalize hreading : Reading.mk chain [] (some operand) = reading at h
  cases h with
  | link hkind =>
      cases hreading
      simp only [closeChain, List.foldl_append, List.foldl_cons, List.foldl_nil]
      exact hkind
  | operand hkind =>
      cases hreading
      exact hkind

theorem takes (h : reading.Outgrown) (htakes : Takes token reading taken)
    (hsemicolon : token.kind ≠ .semicolon) : taken.Outgrown := by
  cases htakes with
  | infixOp _ =>
      generalize hreading : Reading.mk _ _ _ = reading at h
      cases h with
      | link hkind =>
          cases hreading
          exact @link (_ :: _) _ _ _ _ hkind
      | operand _ =>
          cases hreading
          exact @link [] _ _ _ _ hsemicolon
  | suffixOp _ =>
      generalize hreading : Reading.mk _ _ _ = reading at h
      cases h with
      | link hkind =>
          cases hreading
          exact .link hkind
      | operand _ =>
          cases hreading
          exact .operand hsemicolon
  | prefixOp _ | var _ =>
      generalize hreading : Reading.mk _ _ _ = reading at h
      cases h with
      | link hkind =>
          cases hreading
          exact .link hkind
      | operand _ => cases hreading
  | semicolon hkind _ => exact absurd hkind hsemicolon

/-- The first operator after a complete operand outgrows it, whatever the operand is. -/
theorem of_takes {operand : Term} (htakes : Takes token { current := some operand } taken)
    (hsemicolon : token.kind ≠ .semicolon) : taken.Outgrown := by
  cases htakes with
  | infixOp _ => exact @link [] _ _ _ _ hsemicolon
  | suffixOp _ => exact .operand hsemicolon
  | semicolon hkind _ => exact absurd hkind hsemicolon

theorem takeGroup {chain : List (Term × Token)} {prefixes : List Token}
    (h : Outgrown { chain, prefixes }) (inner : Term) :
    (Reading.takeGroup { chain, prefixes } inner).Outgrown := by
  generalize hreading : Reading.mk chain prefixes none = reading at h
  cases h with
  | @link chain operand operator prefixes current hkind =>
      cases hreading
      apply Outgrown.operand
      simp only [closeChain, List.foldl_append, List.foldl_cons, List.foldl_nil]
      exact hkind
  | operand _ => cases hreading

end Reading.Outgrown

namespace Arranged

/-- Once a level has outgrown what was read first, it does not shrink again. -/
theorem outgrown_readAll (h : Arranged tokens pieces)
    (hsound : Reader.Sound previous ⟨reading, around⟩) (hlinked : Linked previous tokens)
    (hsingle : SingleStatement pieces) (houtgrown : reading.Outgrown) :
    (Piece.readAll reading pieces).Outgrown := by
  induction h generalizing previous reading with
  | nil =>
      rw [Piece.readAll]
      exact houtgrown
  | @plain token rest pieces hplain _ ih =>
      obtain ⟨hallowed, hrest⟩ := hlinked
      have hkind := hsingle token List.mem_cons_self
      rw [Piece.readAll, Piece.read]
      apply ih (hsound.take? hallowed (Reader.take?_plain hplain)) hrest hsingle.of_cons
      exact houtgrown.takes (hsound.phase.takes hallowed hplain) hkind
  | @group opened closed inner rest inside pieces hpairs hinner _ _ ihrest =>
      have hgroup := Arranged.group hpairs hinner .nil
      have hassoc : opened :: inner ++ closed :: rest = (opened :: inner ++ [closed]) ++ rest := by
        simp
      rw [hassoc] at hlinked
      obtain ⟨hfirst, hrest⟩ := linked_append.1 hlinked
      have hsound' := hsound.takeAll? hfirst (hgroup.takeAll? reading around)
      obtain ⟨chain, prefixes, rfl⟩ := hsound.phase.operand_wanted hfirst.1
        (.inl (Token.kind_of_pairsWith hpairs).1)
      simp only [Piece.readAll, Piece.read] at hsound' ⊢
      exact ihrest hsound' hrest hsingle.of_cons (houtgrown.takeGroup _)

/-- What follows a complete operand outgrows it. -/
theorem outgrown_of_operand {operand : Term} (h : Arranged tokens pieces) (hne : pieces ≠ [])
    (hsound : Reader.Sound previous ⟨{ current := some operand }, around⟩)
    (hlinked : Linked previous tokens) (hsingle : SingleStatement pieces) :
    (Piece.readAll { current := some operand } pieces).Outgrown := by
  cases h with
  | nil => contradiction
  | @plain token rest pieces hplain hrest =>
      obtain ⟨hallowed, hlinked⟩ := hlinked
      have hkind := hsingle token List.mem_cons_self
      rw [Piece.readAll, Piece.read]
      apply hrest.outgrown_readAll (hsound.take? hallowed (Reader.take?_plain hplain)) hlinked
        hsingle.of_cons
      exact .of_takes (hsound.phase.takes hallowed hplain) hkind
  | group hpairs _ _ =>
      obtain ⟨chain, prefixes, hreading⟩ := hsound.phase.operand_wanted hlinked.1
        (.inl (Token.kind_of_pairsWith hpairs).1)
      cases hreading

/-- Behind a link a level that goes on after a group outgrows the link. -/
theorem outgrown_behind (link : Term × Token) (h : Arranged tokens pieces)
    (hgroup : ∃ piece ∈ pieces.dropLast, piece.isGroup = true)
    (hsound : Reader.Sound previous ⟨reading.behind link, around⟩)
    (hlinked : Linked previous tokens) (hsingle : SingleStatement pieces) :
    (Piece.readAll (reading.behind link) pieces).Outgrown := by
  obtain ⟨piece, hmem, hpiece⟩ := hgroup
  rcases exists_first_group pieces with hall | ⟨before, opened, closed, inner, after, rfl, hbefore⟩
  · have hplain := hall piece (List.dropLast_subset _ hmem)
    rw [hpiece] at hplain
    contradiction
  · have hafter : after ≠ [] := by
      rintro rfl
      rw [List.append_nil, List.dropLast_concat] at hmem
      have hplain := hbefore piece hmem
      rw [hpiece] at hplain
      contradiction
    obtain ⟨value, -, hbehind⟩ :=
      exists_readAll_group reading link opened closed inner
        hsingle.of_append_left.of_append_left hbefore
    -- Cut after the group: there the level holds a single operand.
    obtain ⟨first, second, rfl, hfirst, hsecond⟩ := h.exists_cut
    obtain ⟨hfront, hback⟩ := linked_append.1 hlinked
    have hcut := hsound.takeAll? hfront (hfirst.takeAll? _ around)
    rw [hbehind] at hcut
    rw [Reader.readAll_append, hbehind]
    exact hsecond.outgrown_of_operand hafter hcut hback hsingle.of_append_right

end Arranged

/-! ### Statements that have been read -/

variable {left right tree : Tree} {semicolon : Token}

/-- A sequence that has a tree and does not end with a semi-colon ends with an operand, and the tree
    closes the chain before that operand. -/
theorem exists_operand_of_parse (hparse : parse tokens = .ok tree)
    (hlast : lastKind none tokens ≠ some .semicolon) :
    ∃ chain operand, ({} : Reader).takeAll? tokens = some ⟨{ chain, current := some operand }, []⟩ ∧
      Reading.closeChain { chain } operand = tree.term := by
  obtain ⟨-, hlinked, hcloses⟩ := (validate_eq_ok_iff tokens).1 (validate_of_parse hparse)
  obtain ⟨⟨reading, around⟩, htake, hvalue⟩ := exists_reader_of_parse hparse
  have hphase := (Reader.Sound.initial.takeAll? hlinked htake).phase
  cases around with
  | cons entry around => contradiction
  | nil =>
      generalize lastKind none tokens = kind at hphase hlast hcloses
      cases hphase with
      | complete _ => exact ⟨_, _, htake, Option.some.inj hvalue⟩
      | start => contradiction
      | separated _ => contradiction
      | prefixed => contradiction
      | combined hkind _ => rcases hkind with rfl | rfl <;> contradiction

/-- An expression may stand behind a semi-colon. -/
theorem linked_behind_semicolon (h : Linked none tokens) : Linked (some .semicolon) tokens :=
  h.at_statement rfl

/-- Where an operand has ended a semi-colon may come next. -/
theorem allows_semicolon_of_closes (hcloses : Grammar.closes previous = true) :
    Grammar.allows previous .semicolon = true :=
  (Site.allows_semicolon_iff previous).2 (Site.ne_operand_of_closes hcloses)

/-- Two expressions with a semi-colon between them are an expression. -/
theorem validate_separated (hstatement : validate statement = .ok ())
    (hrest : validate rest = .ok ()) (hne : rest ≠ []) (hkind : semicolon.kind = .semicolon) :
    validate (statement ++ semicolon :: rest) = .ok () := by
  rw [validate_eq_ok_iff, Nesting.check_eq_ok_iff_wellNested] at hstatement hrest ⊢
  obtain ⟨hnested, hlinked, hcloses⟩ := hstatement
  obtain ⟨hnested', hlinked', hcloses'⟩ := hrest
  refine ⟨hnested.append (.plain (by rw [hkind]; rfl) hnested'), ?_, ?_⟩
  · rw [linked_append, Linked, hkind]
    exact ⟨hlinked, allows_semicolon_of_closes hcloses, linked_behind_semicolon hlinked'⟩
  · rw [lastKind_append, lastKind, lastKind_eq_of_ne_nil hne _ none]
    exact hcloses'

/-- A statement before a semi-colon is read as the left operand of the semi-colon. -/
theorem takeAll?_separated (hparse : parse statement = .ok left)
    (hlast : lastKind none statement ≠ some .semicolon) (hkind : semicolon.kind = .semicolon)
    (rest : List Token) :
    ({} : Reader).takeAll? (statement ++ semicolon :: rest) =
      Reader.takeAll? ⟨Reading.behind (left.term, semicolon) {}, []⟩ rest := by
  obtain ⟨chain, operand, htake, hclose⟩ := exists_operand_of_parse hparse hlast
  have htaken : Reader.take? ⟨{ chain, current := some operand }, []⟩ semicolon =
      some ⟨Reading.behind (left.term, semicolon) {}, []⟩ := by
    rw [Reader.take?_plain (by rw [hkind]; rfl), ← hclose]
    simp [Reading.take, hkind, Reading.behind, Reading.closeChain]
  rw [Reader.takeAll?_append, htake, Option.bind_some, Reader.takeAll?_cons, htaken,
    Option.bind_some]

theorem sound_behind (hparse : parse statement = .ok left)
    (hlast : lastKind none statement ≠ some .semicolon) (hkind : semicolon.kind = .semicolon) :
    Reader.Sound (some .semicolon) ⟨Reading.behind (left.term, semicolon) {}, []⟩ := by
  obtain ⟨-, hlinked, hcloses⟩ :=
    (validate_eq_ok_iff statement).1 (validate_of_parse hparse)
  have hbefore : Linked none (statement ++ [semicolon]) := by
    rw [linked_append, Linked, hkind]
    exact ⟨hlinked, allows_semicolon_of_closes hcloses, trivial⟩
  have htake := takeAll?_separated hparse hlast hkind []
  have hsound := Reader.Sound.initial.takeAll? hbefore htake
  rw [lastKind_append, lastKind, hkind] at hsound
  exact hsound

/-- A statement, a semi-colon and a single statement have a tree. The semi-colon is on top of it,
    with the trees of the two statements as its operands, exactly when the second statement does not
    go on after a group. -/
theorem term_of_separated (hleft : parse statement = .ok left) (hright : parse rest = .ok right)
    (hkind : semicolon.kind = .semicolon)
    (hlast : lastKind none statement ≠ some .semicolon)
    (hpieces : Piece.arrange rest = some pieces) (hsingle : SingleStatement pieces) :
    ∃ tree, parse (statement ++ semicolon :: rest) = .ok tree ∧
      (tree.term = .node .semicolon semicolon.label [left.term, right.term] ↔
        ∀ piece ∈ pieces.dropLast, piece.isGroup = false) := by
  have hvalid := validate_of_parse hright
  obtain ⟨hcheck, hlinked, -⟩ := (validate_eq_ok_iff rest).1 hvalid
  obtain ⟨found, harranged⟩ :=
    ((Nesting.check_eq_ok_iff_wellNested rest).1 hcheck).exists_arranged
  cases hpieces.symm.trans harranged.arrange_eq
  have hne := (acceptAll_of_parse hright).1
  obtain ⟨tree, hparse⟩ := exists_parse_of_validate (by simp)
    (validate_separated (validate_of_parse hleft) hvalid hne hkind)
  refine ⟨tree, hparse, ?_⟩
  -- The second statement read alone, and the same behind the link of the semi-colon.
  have hend : lastKind none rest ≠ some .semicolon :=
    harranged.lastKind_ne_semicolon hsingle (by simp)
  have hend' : lastKind none (statement ++ semicolon :: rest) ≠ some .semicolon := by
    rw [lastKind_append, lastKind, lastKind_eq_of_ne_nil hne _ none]
    exact hend
  obtain ⟨chain, operand, halone, hclose⟩ := exists_operand_of_parse hright hend
  obtain ⟨chain', operand', hbehind, hclose'⟩ := exists_operand_of_parse hparse hend'
  rw [harranged.takeAll?] at halone
  rw [takeAll?_separated hleft hlast hkind, harranged.takeAll?] at hbehind
  have hread : Piece.readAll {} pieces = { chain, current := some operand } :=
    congrArg Reader.reading (Option.some.inj halone)
  have hread' : Piece.readAll (Reading.behind (left.term, semicolon) {}) pieces =
      { chain := chain', current := some operand' } :=
    congrArg Reader.reading (Option.some.inj hbehind)
  constructor
  · intro hterm piece hmem
    cases hgroup : piece.isGroup with
    | false => rfl
    | true =>
        have houtgrown := harranged.outgrown_behind (left.term, semicolon)
          ⟨piece, hmem, hgroup⟩ (sound_behind hleft hlast hkind)
          (linked_behind_semicolon hlinked) hsingle
        rw [hread'] at houtgrown
        have hroot := houtgrown.kind_ne_semicolon
        rw [hclose', hterm] at hroot
        exact absurd rfl hroot
  · intro hplain
    have hvalue := value?_behind (left.term, semicolon) hsingle hplain hread
    rw [hread', hclose, Reading.node, hkind] at hvalue
    rw [← hclose']
    exact Option.some.inj hvalue

/-- A group at the end of the second statement does no harm, nor do groups in the first. -/
theorem term_of_separated_final_group :
    ∃ left right tree,
      parse [⟨.opening, "(", "round"⟩, ⟨.var, "x", ""⟩, ⟨.closing, ")", "round"⟩,
        ⟨.suffixOp, "!", ""⟩] = .ok left ∧
      parse [⟨.var, "y", ""⟩, ⟨.assign, "=", ""⟩, ⟨.opening, "(", "round"⟩,
        ⟨.closing, ")", "round"⟩] = .ok right ∧
      parse ([⟨.opening, "(", "round"⟩, ⟨.var, "x", ""⟩, ⟨.closing, ")", "round"⟩,
        ⟨.suffixOp, "!", ""⟩] ++ ⟨.semicolon, ";", ""⟩ :: [⟨.var, "y", ""⟩, ⟨.assign, "=", ""⟩,
          ⟨.opening, "(", "round"⟩, ⟨.closing, ")", "round"⟩]) = .ok tree ∧
      tree.term = .node .semicolon ";" [left.term, right.term] := by
  obtain ⟨left, hleft⟩ := @exists_parse_of_validate [⟨.opening, "(", "round"⟩, ⟨.var, "x", ""⟩,
    ⟨.closing, ")", "round"⟩, ⟨.suffixOp, "!", ""⟩] (List.cons_ne_nil _ _) rfl
  obtain ⟨right, hright⟩ := @exists_parse_of_validate [⟨.var, "y", ""⟩, ⟨.assign, "=", ""⟩,
    ⟨.opening, "(", "round"⟩, ⟨.closing, ")", "round"⟩] (List.cons_ne_nil _ _) rfl
  obtain ⟨tree, hparse, hterm⟩ := @term_of_separated _ _ _ left right ⟨.semicolon, ";", ""⟩
    hleft hright rfl (by decide) rfl (by simp [SingleStatement])
  exact ⟨left, right, tree, hleft, hright, hparse, hterm.2 (by simp [Piece.isGroup])⟩

/-- Two statements with a semi-colon between them. The second one is a single statement, and still
    the semi-colon is not on top: the group ends the chain, so the operator after it takes the
    semi-colon as its left operand. -/
theorem separated_group_goes_on :
    ∃ left right tree,
      parse [⟨.var, "x", ""⟩] = .ok left ∧
      parse [⟨.opening, "(", "round"⟩, ⟨.var, "y", ""⟩, ⟨.closing, ")", "round"⟩,
        ⟨.dyad, "+", ""⟩, ⟨.var, "z", ""⟩] = .ok right ∧
      parse ([⟨.var, "x", ""⟩] ++ ⟨.semicolon, ";", ""⟩ :: [⟨.opening, "(", "round"⟩,
        ⟨.var, "y", ""⟩, ⟨.closing, ")", "round"⟩, ⟨.dyad, "+", ""⟩, ⟨.var, "z", ""⟩]) = .ok tree ∧
      tree.term = .node .dyad "+" [.node .semicolon ";" [.leaf .var "x", .leaf .var "y"],
        .leaf .var "z"] ∧
      tree.term ≠ .node .semicolon ";" [left.term, right.term] := by
  obtain ⟨left, hleft⟩ := exists_parse_of_validate (List.cons_ne_nil ⟨.var, "x", ""⟩ []) rfl
  obtain ⟨right, hright⟩ := @exists_parse_of_validate [⟨.opening, "(", "round"⟩, ⟨.var, "y", ""⟩,
    ⟨.closing, ")", "round"⟩, ⟨.dyad, "+", ""⟩, ⟨.var, "z", ""⟩] (List.cons_ne_nil _ _) rfl
  obtain ⟨tree, htree⟩ := @exists_parse_of_validate [⟨.var, "x", ""⟩, ⟨.semicolon, ";", ""⟩,
    ⟨.opening, "(", "round"⟩, ⟨.var, "y", ""⟩, ⟨.closing, ")", "round"⟩, ⟨.dyad, "+", ""⟩,
    ⟨.var, "z", ""⟩] (List.cons_ne_nil _ _) rfl
  have hterm : tree.term = .node .dyad "+"
      [.node .semicolon ";" [.leaf .var "x", .leaf .var "y"], .leaf .var "z"] := by
    obtain ⟨reader, htake, hvalue⟩ := exists_reader_of_parse htree
    cases htake
    exact Option.some.inj hvalue.symm
  refine ⟨left, right, tree, hleft, hright, htree, hterm, ?_⟩
  rw [hterm]
  simp

end OperatorTerms
