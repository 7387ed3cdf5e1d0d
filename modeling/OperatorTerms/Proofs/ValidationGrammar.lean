/-
Module: OperatorTerms.Proofs.ValidationGrammar
Layer: Proofs
Purpose: Validation decides the grammar. The tables speak of neighbours only, and what they allow
  depends on the site that the token before makes: a statement may begin or be missing there, an
  operand must begin, or an operand has ended. On a derivation every token stands at a site that
  allows it. In the other direction a well-nested sequence of allowed neighbours is read from its
  end, and each site says of what phrase the rest of the sequence is the remainder.
Imports: OperatorTerms.Derivation, OperatorTerms.Proofs.BracketScan
Main exports: Site, Site.after, Derives.wellNested, Derives.fits, Derives.kind_ne_term,
  Completes, completes_of_wellNested, validate_eq_ok_iff_derives
-/
import OperatorTerms.Derivation
import OperatorTerms.Proofs.BracketScan

namespace OperatorTerms

/-- What a token may be by what stands before it. -/
inductive Site where
  /-- A statement may begin, or be missing. -/
  | statement
  /-- An operand must begin. -/
  | operand
  /-- An operand has ended. -/
  | operator
deriving DecidableEq, Repr

/-- The site after a token of the given kind, or at the beginning. -/
def Site.after : Option Kind → Site
  | none | some .opening | some .semicolon => statement
  | some .assign | some .dyad | some .prefixOp => operand
  | some .closing | some .suffixOp | some .term | some .var => operator

variable {previous : Option Kind} {kind : Kind} {phrase : Phrase} {tokens others : List Token}
  {token : Token}

namespace Site

/-! ### What the sites allow -/

theorem allows_iff_ne_operator (previous : Option Kind)
    (hkind : kind = .opening ∨ kind = .prefixOp ∨ kind = .var) :
    Grammar.allows previous kind = true ↔ after previous ≠ operator := by
  cases previous with
  | none => rcases hkind with rfl | rfl | rfl <;> decide
  | some before => cases before <;> rcases hkind with rfl | rfl | rfl <;> decide

theorem allows_iff_eq_operator (previous : Option Kind)
    (hkind : kind = .assign ∨ kind = .dyad ∨ kind = .suffixOp) :
    Grammar.allows previous kind = true ↔ after previous = operator := by
  cases previous with
  | none => rcases hkind with rfl | rfl | rfl <;> decide
  | some before => cases before <;> rcases hkind with rfl | rfl | rfl <;> decide

theorem allows_semicolon_iff (previous : Option Kind) :
    Grammar.allows previous .semicolon = true ↔ after previous ≠ operand := by
  cases previous with
  | none => decide
  | some before => cases before <;> decide

theorem allows_closing_iff (before : Kind) :
    Grammar.allows (some before) .closing = true ↔ after (some before) ≠ operand := by
  cases before <;> decide

theorem ne_operand_of_closes (h : Grammar.closes previous = true) :
    after previous ≠ operand := by
  cases previous with
  | none => decide
  | some before => cases before <;> revert h <;> decide

end Site

/-- What may stand at the beginning may stand wherever a statement may begin. -/
theorem Linked.at_statement (h : Linked none tokens) (hsite : Site.after previous = .statement) :
    Linked previous tokens := by
  cases tokens with
  | nil => trivial
  | cons token rest =>
      refine ⟨?_, h.2⟩
      have hfirst := h.1
      revert hfirst
      match previous, hsite with
      | none, _ => exact id
      | some .opening, _ | some .semicolon, _ => cases token.kind <;> decide

theorem exists_lastKind (kind : Kind) (tokens : List Token) :
    ∃ final, lastKind (some kind) tokens = some final := by
  induction tokens generalizing kind with
  | nil => exact ⟨kind, rfl⟩
  | cons token tokens ih => exact ih token.kind

/-! ### From derivations to neighbours -/

namespace WellNested

theorem append (h : WellNested tokens) (hothers : WellNested others) :
    WellNested (tokens ++ others) := by
  induction h with
  | nil => exact hothers
  | plain hkind _ ih => exact .plain hkind ih
  | group hopened hclosed hsame hinner _ _ ih =>
      have hgroup := WellNested.group hopened hclosed hsame hinner ih
      simpa using hgroup

theorem of_plain (h : ∀ token ∈ tokens, token.kind.isBracket = false) : WellNested tokens := by
  induction tokens with
  | nil => exact .nil
  | cons token tokens ih =>
      exact .plain (h token (by simp)) (ih fun other hother => h other (by simp [hother]))

end WellNested

/-- The parentheses of a phrase match. -/
theorem Derives.wellNested (h : Derives phrase tokens) : WellNested tokens := by
  have plain {kind : Kind} {token : Token} (hkind : token.kind = kind)
      (hplain : kind.isBracket = false) : token.kind.isBracket = false := hkind ▸ hplain
  induction h with
  | nothing => exact .nil
  | single _ ih => exact ih
  | missing hsemicolon _ ih => exact .plain (plain hsemicolon rfl) ih
  | separated _ hsemicolon _ ih ihrest => exact ih.append (.plain (plain hsemicolon rfl) ihrest)
  | lone _ ih => exact ih
  | combined _ hoperator _ ih ihrest =>
      rcases hoperator with hoperator | hoperator
      · exact ih.append (.plain (plain hoperator rfl) ihrest)
      · exact ih.append (.plain (plain hoperator rfl) ihrest)
  | affixed hprefixes _ hsuffixes ih =>
      have hfront := WellNested.of_plain fun token htoken => plain (hprefixes token htoken) rfl
      have hback := WellNested.of_plain fun token htoken => plain (hsuffixes token htoken) rfl
      exact (hfront.append ih).append hback
  | name hkind => exact .plain (plain hkind rfl) .nil
  | group hopened hclosed hsame _ ih => exact .group hopened hclosed hsame ih .nil

/-- The kind read last ends an operand, and it may end an expression. -/
structure Ended (previous : Option Kind) : Prop where
  site : Site.after previous = .operator
  closes : Grammar.closes previous = true

/-- The tokens may stand, as a phrase of the given category, where they are linked to what stands
    before them. -/
def Fits (previous : Option Kind) : Phrase → List Token → Prop
  | .sequence, tokens => Site.after previous = .statement →
      Linked previous tokens ∧
        (lastKind previous tokens = previous ∨ Grammar.closes (lastKind previous tokens) = true)
  | _, tokens => Site.after previous ≠ .operator →
      Linked previous tokens ∧ Ended (lastKind previous tokens)

/-- A sequence after a semi-colon may stand where the semi-colon may. -/
theorem Fits.semicolon {semicolon : Token} (h : Fits (some .semicolon) .sequence tokens)
    (hkind : semicolon.kind = .semicolon) (hsite : Site.after previous ≠ .operand) :
    Linked previous (semicolon :: tokens) ∧
      Grammar.closes (lastKind previous (semicolon :: tokens)) = true := by
  obtain ⟨hlinked, hlast⟩ := h rfl
  rw [Linked, lastKind, hkind]
  refine ⟨⟨(Site.allows_semicolon_iff previous).2 hsite, hlinked⟩, ?_⟩
  rcases hlast with hlast | hlast
  · rw [hlast]
    decide
  · exact hlast

theorem linked_prefixes (hsite : Site.after previous ≠ .operator)
    (h : ∀ operator ∈ tokens, operator.kind = .prefixOp) :
    Linked previous tokens ∧ Site.after (lastKind previous tokens) ≠ .operator := by
  induction tokens generalizing previous with
  | nil => exact ⟨trivial, hsite⟩
  | cons operator tokens ih =>
      have hkind := h operator List.mem_cons_self
      have hallowed : Grammar.allows previous operator.kind = true :=
        (Site.allows_iff_ne_operator previous (by simp [hkind])).2 hsite
      obtain ⟨hlinked, hlast⟩ := @ih (some operator.kind) (by rw [hkind]; decide)
        fun other hother => h other (List.mem_cons_of_mem _ hother)
      exact ⟨⟨hallowed, hlinked⟩, hlast⟩

theorem linked_suffixes (hended : Ended previous)
    (h : ∀ operator ∈ tokens, operator.kind = .suffixOp) :
    Linked previous tokens ∧ Ended (lastKind previous tokens) := by
  induction tokens generalizing previous with
  | nil => exact ⟨trivial, hended⟩
  | cons operator tokens ih =>
      have hkind := h operator List.mem_cons_self
      have hallowed : Grammar.allows previous operator.kind = true :=
        (Site.allows_iff_eq_operator previous (by simp [hkind])).2 hended.site
      obtain ⟨hlinked, hlast⟩ := @ih (some operator.kind) (by rw [hkind]; exact ⟨rfl, by decide⟩)
        fun other hother => h other (List.mem_cons_of_mem _ hother)
      exact ⟨⟨hallowed, hlinked⟩, hlast⟩

/-- A phrase may stand wherever its category may begin. -/
theorem Derives.fits (h : Derives phrase tokens) (previous : Option Kind) :
    Fits previous phrase tokens := by
  induction h generalizing previous with
  | nothing => exact fun _ => ⟨trivial, .inl rfl⟩
  | single _ ih =>
      intro hsite
      obtain ⟨hlinked, hended⟩ := ih previous (by simp [hsite])
      exact ⟨hlinked, .inr hended.closes⟩
  | missing hsemicolon _ ih =>
      intro hsite
      have hne : Site.after previous ≠ .operand := by simp [hsite]
      obtain ⟨hlinked, hcloses⟩ := (ih _).semicolon hsemicolon hne
      exact ⟨hlinked, .inr hcloses⟩
  | @separated tokens semicolon rest _ hsemicolon _ ih ihrest =>
      intro hsite
      obtain ⟨hlinked, hended⟩ := ih previous (by simp [hsite])
      have hne : Site.after (lastKind previous tokens) ≠ .operand := by simp [hended.site]
      obtain ⟨hrest, hcloses⟩ := (ihrest _).semicolon hsemicolon hne
      rw [linked_append, lastKind_append]
      exact ⟨⟨hlinked, hrest⟩, .inr hcloses⟩
  | lone _ ih => exact ih previous
  | @combined tokens operator rest _ hoperator _ ih ihrest =>
      intro hsite
      obtain ⟨hlinked, hended⟩ := ih previous hsite
      have hallowed : Grammar.allows (lastKind previous tokens) operator.kind = true := by
        rcases hoperator with hoperator | hoperator
        · exact (Site.allows_iff_eq_operator _ (by simp [hoperator])).2 hended.site
        · exact (Site.allows_iff_eq_operator _ (by simp [hoperator])).2 hended.site
      have hwanted : Site.after (some operator.kind) ≠ .operator := by
        rcases hoperator with hoperator | hoperator <;> rw [hoperator] <;> decide
      obtain ⟨hrest, hended⟩ := ihrest (some operator.kind) hwanted
      rw [linked_append, lastKind_append]
      exact ⟨⟨hlinked, hallowed, hrest⟩, hended⟩
  | affixed hprefixes _ hsuffixes ih =>
      intro hsite
      obtain ⟨hfront, hsite⟩ := linked_prefixes hsite hprefixes
      obtain ⟨hlinked, hended⟩ := ih _ hsite
      obtain ⟨hback, hended⟩ := linked_suffixes hended hsuffixes
      simp only [linked_append, lastKind_append]
      exact ⟨⟨⟨hfront, hlinked⟩, hback⟩, hended⟩
  | @name token hkind =>
      intro hsite
      rw [Linked, lastKind, hkind]
      exact ⟨⟨(Site.allows_iff_ne_operator previous (by simp)).2 hsite, trivial⟩, rfl, by decide⟩
  | @group opened closed inner hopened hclosed _ _ ih =>
      intro hsite
      obtain ⟨hinner, hlast⟩ := ih (some .opening) rfl
      obtain ⟨final, hfinal⟩ := exists_lastKind .opening inner
      have hallowed : Grammar.allows (some final) .closing = true := by
        rw [hfinal] at hlast
        rcases hlast with hlast | hlast
        · rw [hlast]
          decide
        · exact (Site.allows_closing_iff final).2 (Site.ne_operand_of_closes hlast)
      rw [List.cons_append, Linked, linked_append, lastKind, lastKind_append, hopened, hfinal,
        Linked, lastKind, hclosed]
      exact ⟨⟨(Site.allows_iff_ne_operator previous (by simp)).2 hsite, hinner, hallowed, trivial⟩,
        rfl, by decide⟩

/-- No token of kind `Kind.term` is part of a phrase. -/
theorem Derives.kind_ne_term (h : Derives phrase tokens) (hmem : token ∈ tokens) :
    token.kind ≠ .term := by
  have hlinked : Linked none tokens := by
    have hfits := h.fits none
    cases phrase with
    | sequence => exact (hfits rfl).1
    | statement | operand | atom => exact (hfits (by decide)).1
  exact hlinked.kind_ne_term hmem

/-! ### From neighbours to derivations -/

/-- The tokens begin with a statement, which they consist of or which a semi-colon and a sequence
    follow. -/
inductive Begins : List Token → Prop where
  | alone {statement : List Token} : Derives .statement statement → Begins statement
  | separated {statement : List Token} {semicolon : Token} {rest : List Token} :
      Derives .statement statement → semicolon.kind = .semicolon → Derives .sequence rest →
        Begins (statement ++ semicolon :: rest)

/-- The tokens are what the site before them calls for. -/
def Completes (tokens : List Token) : Site → Prop
  | .statement => Derives .sequence tokens
  | .operand => Begins tokens
  | .operator => ∀ operand, Derives .operand operand → Begins (operand ++ tokens)

namespace Begins

theorem sequence (h : Begins tokens) : Derives .sequence tokens := by
  cases h with
  | alone hstatement => exact .single hstatement
  | separated hstatement hkind hrest => exact .separated hstatement hkind hrest

theorem prefixed (h : Begins tokens) (hkind : token.kind = .prefixOp) :
    Begins (token :: tokens) := by
  have operand {tokens : List Token} (h : Derives .operand tokens) :
      Derives .operand (token :: tokens) := by
    cases h with
    | @affixed prefixes atom suffixes hprefixes hatom hsuffixes =>
        have hall : ∀ operator ∈ token :: prefixes, operator.kind = .prefixOp := by
          intro operator hoperator
          rcases List.mem_cons.1 hoperator with rfl | hoperator
          · exact hkind
          · exact hprefixes operator hoperator
        exact .affixed hall hatom hsuffixes
  have statement {tokens : List Token} (h : Derives .statement tokens) :
      Derives .statement (token :: tokens) := by
    cases h with
    | lone hoperand => exact .lone (operand hoperand)
    | combined hoperand hoperator hrest => exact .combined (operand hoperand) hoperator hrest
  cases h with
  | alone hstatement => exact .alone (statement hstatement)
  | separated hstatement hsemicolon hrest =>
      exact .separated (statement hstatement) hsemicolon hrest

theorem combined {operand : List Token} (h : Begins tokens)
    (hkind : token.kind = .assign ∨ token.kind = .dyad) (hoperand : Derives .operand operand) :
    Begins (operand ++ token :: tokens) := by
  cases h with
  | alone hstatement => exact .alone (.combined hoperand hkind hstatement)
  | separated hstatement hsemicolon hrest =>
      have hcombined := Derives.combined hoperand hkind hstatement
      simpa using Begins.separated hcombined hsemicolon hrest

/-- An operand may begin at a site, if anything that can begin may. -/
theorem completes (h : Begins tokens) (hsite : Site.after previous ≠ .operator) :
    Completes tokens (Site.after previous) := by
  cases hafter : Site.after previous with
  | statement => exact h.sequence
  | operand => exact h
  | operator => exact absurd hafter hsite

end Begins

theorem Derives.suffixed {operand : List Token} (h : Derives .operand operand)
    (hkind : token.kind = .suffixOp) : Derives .operand (operand ++ [token]) := by
  cases h with
  | @affixed prefixes atom suffixes hprefixes hatom hsuffixes =>
      have hall : ∀ operator ∈ suffixes ++ [token], operator.kind = .suffixOp := by
        intro operator hoperator
        rcases List.mem_append.1 hoperator with hoperator | hoperator
        · exact hsuffixes operator hoperator
        · rw [List.mem_singleton.1 hoperator]
          exact hkind
      simpa using Derives.affixed hprefixes hatom hall

theorem Derives.operand_of_atom (h : Derives .atom tokens) : Derives .operand tokens := by
  simpa using @Derives.affixed [] tokens [] (by simp) h (by simp)

/-- A token that is no parenthesis, and what its own site calls for, are what the site before it
    calls for. -/
theorem Completes.cons {rest : List Token} (h : Completes rest (Site.after (some token.kind)))
    (hallowed : Grammar.allows previous token.kind = true)
    (hplain : token.kind.isBracket = false) : Completes (token :: rest) (Site.after previous) := by
  match hkind : token.kind with
  | .var =>
      rw [hkind] at h hallowed
      have hoperand : Derives .operand [token] := .operand_of_atom (.name hkind)
      exact (h [token] hoperand).completes
        ((Site.allows_iff_ne_operator previous (by simp)).1 hallowed)
  | .prefixOp =>
      rw [hkind] at h hallowed
      exact (Begins.prefixed h hkind).completes
        ((Site.allows_iff_ne_operator previous (by simp)).1 hallowed)
  | .assign | .dyad =>
      rw [hkind] at h hallowed
      rw [(Site.allows_iff_eq_operator previous (by simp)).1 hallowed]
      exact fun operand hoperand => Begins.combined h (by simp [hkind]) hoperand
  | .suffixOp =>
      rw [hkind] at h hallowed
      rw [(Site.allows_iff_eq_operator previous (by simp)).1 hallowed]
      intro operand hoperand
      simpa using h (operand ++ [token]) (hoperand.suffixed hkind)
  | .semicolon =>
      rw [hkind] at h hallowed
      have hsite := (Site.allows_semicolon_iff previous).1 hallowed
      cases hafter : Site.after previous with
      | statement => exact .missing hkind h
      | operand => exact absurd hafter hsite
      | operator => exact fun operand hoperand => .separated (.lone hoperand) hkind h
  | .term =>
      rw [hkind, Grammar.allows_term] at hallowed
      contradiction
  | .opening | .closing =>
      rw [hkind] at hplain
      contradiction

/-- Well-nested tokens that are linked to what stands before them, and after which no operand is
    wanted, are what the site before them calls for. -/
theorem completes_of_wellNested (h : WellNested tokens) (previous : Option Kind)
    (hlinked : Linked previous tokens) (hend : Site.after (lastKind previous tokens) ≠ .operand) :
    Completes tokens (Site.after previous) := by
  induction h generalizing previous with
  | nil =>
      cases hafter : Site.after previous with
      | statement => exact .nothing
      | operand => exact absurd hafter hend
      | operator => exact fun operand hoperand => by simpa using Begins.alone (.lone hoperand)
  | @plain token rest hplain _ ih =>
      obtain ⟨hallowed, hlinked⟩ := hlinked
      exact (ih (some token.kind) hlinked hend).cons hallowed hplain
  | @group opened closed inner rest hopened hclosed hsame _ _ ihinner ihrest =>
      rw [List.cons_append, Linked, linked_append, Linked, hopened, hclosed] at hlinked
      rw [List.cons_append, lastKind, lastKind_append, lastKind, hclosed] at hend
      obtain ⟨hallowed, hinner, hallowedClosing, hrest⟩ := hlinked
      obtain ⟨final, hfinal⟩ := exists_lastKind .opening inner
      rw [hfinal] at hallowedClosing
      -- Inside the group a sequence stands, so the group is an atom, and what follows it goes on
      -- from the operand that the atom begins.
      have hfinalSite := (Site.allows_closing_iff final).1 hallowedClosing
      have hsequence : Derives .sequence inner :=
        ihinner (some .opening) hinner (by rw [hfinal]; exact hfinalSite)
      have hoperand := Derives.operand_of_atom (.group hopened hclosed hsame hsequence)
      have hbegins := ihrest (some .closing) hrest hend _ hoperand
      have hcompletes := hbegins.completes
        ((Site.allows_iff_ne_operator previous (by simp)).1 hallowed)
      simpa using hcompletes

/-- Validation accepts the sequences that the grammar derives, and no token of kind `Kind.term` is
    part of any phrase. -/
theorem validate_eq_ok_iff_derives (tokens : List Token) :
    (validate tokens = .ok () ↔ Derives .sequence tokens) ∧
      ∀ phrase, Derives phrase tokens → ∀ token ∈ tokens, token.kind ≠ .term := by
  refine ⟨?_, fun phrase hderives token hmem => hderives.kind_ne_term hmem⟩
  rw [validate_eq_ok_iff, Nesting.check_eq_ok_iff_wellNested]
  constructor
  · rintro ⟨hnested, hlinked, hcloses⟩
    exact completes_of_wellNested hnested none hlinked (Site.ne_operand_of_closes hcloses)
  · intro hderives
    obtain ⟨hlinked, hlast⟩ := hderives.fits none rfl
    refine ⟨hderives.wellNested, hlinked, ?_⟩
    rcases hlast with hlast | hlast
    · rw [hlast]
      rfl
    · exact hlast

/-- A group without a statement, behind a statement that is missing. A lone term is no sequence. -/
theorem derives_missing_statements :
    Derives .sequence [⟨.semicolon, "s1", ""⟩, ⟨.opening, "b(", "("⟩, ⟨.closing, "B(", "("⟩] ∧
      (∀ token ∈ [⟨.semicolon, "s1", ""⟩, ⟨.opening, "b(", "("⟩, ⟨.closing, "B(", "("⟩],
        Token.kind token ≠ .term) ∧
      ¬ Derives .sequence [⟨.term, "t1", ""⟩] := by
  obtain ⟨haccepted, hkinds⟩ := validate_eq_ok_iff_derives
    [⟨.semicolon, "s1", ""⟩, ⟨.opening, "b(", "("⟩, ⟨.closing, "B(", "("⟩]
  have hderives := haccepted.1 rfl
  refine ⟨hderives, hkinds .sequence hderives, ?_⟩
  intro hterm
  exact (validate_eq_ok_iff_derives [⟨.term, "t1", ""⟩]).2 .sequence hterm ⟨.term, "t1", ""⟩
    List.mem_cons_self rfl

end OperatorTerms
