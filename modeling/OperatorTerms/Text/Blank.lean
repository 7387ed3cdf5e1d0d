/-
Module: OperatorTerms.Text.Blank
Layer: Text
Purpose: Blank characters, which are those with the Unicode property White_Space, and the two
  operations that depend on them: cutting a text into words and trimming its end. Runs of spaces
  for alignment are made here too.
Imports: none
Main exports: Text.isBlank, Text.words, Text.trimEnd, Text.spaces
-/

namespace OperatorTerms.Text

/-- Whether a character has the Unicode property White_Space, which 25 characters have. -/
def isBlank (c : Char) : Bool :=
  let n := c.toNat
  (0x09 ≤ n && n ≤ 0x0D) || n == 0x20 || n == 0x85 || n == 0xA0 || n == 0x1680
    || (0x2000 ≤ n && n ≤ 0x200A) || n == 0x2028 || n == 0x2029 || n == 0x202F || n == 0x205F
    || n == 0x3000

/-- The longest stretches of a text without blanks, from left to right. -/
def words (text : String) : List String :=
  ((text.toList.splitOnP isBlank).filter fun word => !word.isEmpty).map String.ofList

/-- The text without the blanks at its end. -/
def trimEnd (text : String) : String :=
  String.ofList (text.toList.reverse.dropWhile isBlank).reverse

/-- A character repeated. -/
def run (c : Char) (length : Nat) : String := String.ofList (List.replicate length c)

/-- A run of spaces. -/
def spaces (length : Nat) : String := run ' ' length

end OperatorTerms.Text
