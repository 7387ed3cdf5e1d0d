/-
Module: OperatorTerms.Session.Line
Layer: Session
Purpose: One line of input. Its words are the codes of a token sequence; a line without words, or
  whose first word begins with `#`, is passed over. Any other line produces a block of output: the
  drawing of its tree, the error in one of its codes, or an excerpt with the offending code
  underlined.
Imports: OperatorTerms.Layout, OperatorTerms.Parse
Main exports: Line, Line.ofText, Line.block, Block, Line.quoted, Line.underline, parseValidated
-/
import OperatorTerms.Layout
import OperatorTerms.Parse

namespace OperatorTerms

/-- Validates a sequence and parses it if it is well formed, with a record of every step. -/
def parseValidated (tokens : List Token) : Outcome Tree :=
  let validation := validateTraced tokens
  match validation.result with
  | .error error => ⟨validation.log, .error error⟩
  | .ok () =>
      let parsing := parseTraced tokens
      ⟨validation.log ++ parsing.log, parsing.result⟩

/-- A line of input: its number, counted from one, and its words. -/
structure Line where
  number : Nat
  codes : List String
deriving DecidableEq, Repr, Inhabited

/-- What a line leaves behind: the text printed for it, the records made, and whether it
    failed. -/
structure Block where
  output : String := ""
  log : List Record := []
  failed : Bool := false
deriving DecidableEq, Repr, Inhabited

namespace Line

/-- The line with the given number and text. -/
def ofText (number : Nat) (text : String) : Line := ⟨number, Text.words text⟩

/-- Whether a line is passed over: it is blank or a comment. -/
def isSilent (line : Line) : Bool :=
  match line.codes with
  | [] => true
  | code :: _ => code.toList.head? == some '#'

/-!
### Excerpts

A rejected line is quoted behind its number, and below it the code at the error's position is
underlined. Columns are counted in bytes of UTF-8.
-/

/-- The number of a line as it is written in front of the line. -/
def gutter (line : Line) : String := toString line.number

/-- The line as it is quoted: its number, and its codes with single spaces between them. -/
def quoted (line : Line) : String := line.gutter ++ "| " ++ " ".intercalate line.codes

/-- The place in the list of codes that an error's position stands for. -/
def index (line : Line) (position : Position) : Nat := min (position - 1) (line.codes.length - 1)

/-- The column, behind the gutter, at which a code of the quoted line begins. -/
def column (line : Line) (index : Nat) : Nat :=
  (line.codes.take index).foldl (fun column code => column + (code.utf8ByteSize + 1)) 0

/-- The width of a code in the quoted line. -/
def codeWidth (line : Line) (index : Nat) : Nat := (line.codes[index]?.getD "").utf8ByteSize

/-- The underline below the quoted line, followed by the wording of the error. -/
def underline (line : Line) (error : SyntaxError) : String :=
  let index := line.index error.position
  Text.spaces line.gutter.utf8ByteSize ++ "| " ++ Text.spaces (line.column index)
    ++ Text.run '^' (line.codeWidth index) ++ "--- " ++ error.message

/-- The three lines printed for a rejected line. -/
def excerpt (line : Line) (error : SyntaxError) : String :=
  line.quoted ++ "\n" ++ line.underline error ++ "\n" ++ "error: " ++ error.describe ++ "\n"

/-- Processes a line. -/
def block (line : Line) : Block :=
  if line.isSilent then
    {}
  else
    match Token.ofCodes line.codes with
    | .error error => { output := "error: " ++ error.message ++ "\n", failed := true }
    | .ok tokens =>
        let outcome := parseValidated tokens
        match outcome.result with
        | .error error => { output := line.excerpt error, log := outcome.log, failed := true }
        | .ok tree =>
            { output := tree.render line.codes
              log := outcome.log ++ [.lineParsed line.number tree.display] }

end Line

end OperatorTerms
