/-
Module: OperatorTerms.Text.Decimal
Layer: Text
Purpose: Reading a natural number in decimal digits.
Imports: none
Main exports: Text.natural?
-/

namespace OperatorTerms.Text

/-- The number that decimal digits stand for. -/
def ofDigits (digits : List Char) : Nat :=
  digits.foldl (fun value digit => 10 * value + (digit.toNat - '0'.toNat)) 0

/-- Reads a natural number below the given bound: one or more decimal digits, with or without a
    plus sign in front. Leading zeros do not matter. -/
def natural? (bound : Nat) (text : List Char) : Option Nat :=
  let digits :=
    match text with
    | '+' :: digits => digits
    | digits => digits
  if digits.isEmpty || !digits.all Char.isDigit then
    none
  else
    some (ofDigits digits) |>.filter (· < bound)

end OperatorTerms.Text
