/-
Module: OperatorTerms.Nesting.WellNested
Layer: Validation
Purpose: Which sequences have matching parentheses, said without a scan: tokens of other kinds
  stand anywhere, and an opening parenthesis, a well-nested sequence and a closing parenthesis
  with the discriminator of the opening one form a group.
Imports: OperatorTerms.Token
Main exports: WellNested, WellNested.paired
-/
import OperatorTerms.Token

namespace OperatorTerms

/-- A sequence whose parentheses match. -/
inductive WellNested : List Token → Prop where
  | nil : WellNested []
  | plain {token : Token} {rest : List Token} :
      token.kind.isBracket = false → WellNested rest → WellNested (token :: rest)
  | group {opened closed : Token} {inner rest : List Token} :
      opened.kind = .opening → closed.kind = .closing →
        opened.discriminator = closed.discriminator → WellNested inner → WellNested rest →
          WellNested (opened :: inner ++ closed :: rest)

/-- Parentheses that a scan finds to pair form a group. -/
theorem WellNested.paired {opened closed : Token} {inner rest : List Token}
    (hpairs : opened.pairsWith closed = true) (hinner : WellNested inner)
    (hrest : WellNested rest) : WellNested (opened :: inner ++ closed :: rest) := by
  obtain ⟨hopened, hclosed, hsame⟩ := Token.pairsWith_iff.1 hpairs
  exact .group hopened hclosed hsame hinner hrest

end OperatorTerms
