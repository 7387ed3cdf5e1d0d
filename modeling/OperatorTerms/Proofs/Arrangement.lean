/-
Module: OperatorTerms.Proofs.Arrangement
Layer: Proofs
Purpose: The pieces of a well-nested sequence, said without a scan: a token that is no parenthesis
  is a piece, and so is a group with the pieces of what it encloses. Arrangements can be cut between
  two pieces, arranging a sequence finds its arrangement, and reading the tokens one by one is the
  same as reading the pieces.
Imports: OperatorTerms.Nesting.WellNested, OperatorTerms.Proofs.Reader
Main exports: Arranged, WellNested.exists_arranged, Arranged.exists_cut, Arranged.arrange_eq,
  Arranged.takeAll?
-/
import OperatorTerms.Nesting.WellNested
import OperatorTerms.Proofs.Reader

namespace OperatorTerms

/-- The tokens fall into the given pieces. -/
inductive Arranged : List Token → List Piece → Prop where
  | nil : Arranged [] []
  | plain {token : Token} {rest : List Token} {pieces : List Piece} :
      token.kind.isBracket = false → Arranged rest pieces →
        Arranged (token :: rest) (.plain token :: pieces)
  | group {opened closed : Token} {inner rest : List Token} {inside pieces : List Piece} :
      opened.pairsWith closed = true → Arranged inner inside → Arranged rest pieces →
        Arranged (opened :: inner ++ closed :: rest) (.group opened closed inside :: pieces)

/-- A well-nested sequence has an arrangement. -/
theorem WellNested.exists_arranged {tokens : List Token} (h : WellNested tokens) :
    ∃ pieces, Arranged tokens pieces := by
  induction h with
  | nil => exact ⟨[], .nil⟩
  | plain hkind _ ih =>
      obtain ⟨pieces, harranged⟩ := ih
      exact ⟨_, .plain hkind harranged⟩
  | group hopened hclosed hsame _ _ ihinner ihrest =>
      obtain ⟨inside, hinside⟩ := ihinner
      obtain ⟨pieces, hpieces⟩ := ihrest
      exact ⟨_, .group (Token.pairsWith_iff.2 ⟨hopened, hclosed, hsame⟩) hinside hpieces⟩

namespace Arranged

variable {tokens : List Token} {pieces front back : List Piece}

/-- Between two pieces the tokens can be cut as well. -/
theorem exists_cut (h : Arranged tokens (front ++ back)) :
    ∃ first second, tokens = first ++ second ∧ Arranged first front ∧ Arranged second back := by
  induction front generalizing tokens with
  | nil => exact ⟨[], tokens, rfl, .nil, h⟩
  | cons piece front ih =>
      cases h with
      | plain hkind hrest =>
          obtain ⟨first, second, rfl, hfirst, hsecond⟩ := ih hrest
          exact ⟨_, second, rfl, .plain hkind hfirst, hsecond⟩
      | group hpairs hinner hrest =>
          obtain ⟨first, second, rfl, hfirst, hsecond⟩ := ih hrest
          refine ⟨_, second, ?_, .group hpairs hinner hfirst, hsecond⟩
          simp

/-- Arranging the tokens adds their pieces to the current level, whatever follows. -/
theorem arrangeFrom_append (h : Arranged tokens pieces) (around : List OpenGroup)
    (level : List Piece) (others : List Token) :
    Piece.arrangeFrom around level (tokens ++ others) =
      Piece.arrangeFrom around (pieces.reverse ++ level) others := by
  induction h generalizing around level others with
  | nil => rfl
  | @plain token rest pieces hkind _ ih =>
      have hstep : Piece.arrangeFrom around level (token :: (rest ++ others)) =
          Piece.arrangeFrom around (.plain token :: level) (rest ++ others) := by
        cases hcase : token.kind <;> simp_all [Piece.arrangeFrom, Kind.isBracket]
      rw [List.cons_append, hstep, ih]
      simp
  | @group opened closed inner rest inside pieces hpairs _ _ ihinner ihrest =>
      obtain ⟨hopened, hclosed⟩ := Token.kind_of_pairsWith hpairs
      have hopen : Piece.arrangeFrom around level
            (opened :: (inner ++ closed :: (rest ++ others))) =
          Piece.arrangeFrom (⟨opened, level⟩ :: around) []
            (inner ++ closed :: (rest ++ others)) := by
        simp only [Piece.arrangeFrom, hopened]
      have hclose : Piece.arrangeFrom (⟨opened, level⟩ :: around) (inside.reverse ++ [])
            (closed :: (rest ++ others)) =
          Piece.arrangeFrom around (.group opened closed inside :: level) (rest ++ others) := by
        simp only [Piece.arrangeFrom, hclosed, hpairs, if_true, List.append_nil,
          List.reverse_reverse]
      have hassoc : opened :: inner ++ closed :: rest ++ others =
          opened :: (inner ++ closed :: (rest ++ others)) := by simp
      rw [hassoc, hopen, ihinner, hclose, ihrest]
      simp

theorem arrange_eq (h : Arranged tokens pieces) : Piece.arrange tokens = some pieces := by
  have hfrom := h.arrangeFrom_append [] [] []
  rw [List.append_nil] at hfrom
  rw [Piece.arrange, hfrom]
  simp [Piece.arrangeFrom]

/-- Reading the tokens reads the pieces, on whatever level they stand. -/
theorem takeAll? (h : Arranged tokens pieces) (reading : Reading)
    (around : List (Token × Reading)) :
    Reader.takeAll? ⟨reading, around⟩ tokens = some ⟨Piece.readAll reading pieces, around⟩ := by
  induction h generalizing reading around with
  | nil => rfl
  | plain hkind _ ih =>
      rw [Reader.takeAll?_cons, Reader.take?_plain hkind, Option.bind_some, ih, Piece.readAll,
        Piece.read]
  | @group opened closed inner rest inside pieces hpairs _ _ ihinner ihrest =>
      obtain ⟨hopened, hclosed⟩ := Token.kind_of_pairsWith hpairs
      rw [List.cons_append, Reader.takeAll?_cons, Reader.take?_opening hopened, Option.bind_some,
        Reader.takeAll?_append, ihinner, Option.bind_some, Reader.takeAll?_cons,
        Reader.take?_closing hclosed, if_pos hpairs, Option.bind_some, ihrest, Piece.readAll,
        Piece.read]

end Arranged

end OperatorTerms
