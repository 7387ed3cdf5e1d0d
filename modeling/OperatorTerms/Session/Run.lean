/-
Module: OperatorTerms.Session.Run
Layer: Session
Purpose: A whole session: the bytes of the input are cut into lines, each line is processed on its
  own, and the blocks are put together in order. A line that is not UTF-8 cannot be read; the
  session ends there, after the output of the lines before it.
Imports: OperatorTerms.Session.Line, OperatorTerms.Session.Options
Main exports: Session.lines, Session.blocks, Session.run, Report
-/
import OperatorTerms.Session.Line
import OperatorTerms.Session.Options

namespace OperatorTerms

/-- What a session prints, on its output and on its log, and the code it exits with. -/
structure Report where
  output : String
  diagnostics : String
  exitCode : Nat
deriving DecidableEq, Repr, Inhabited

namespace Session

/-- The byte that ends a line. -/
def lineFeed : UInt8 := 0x0A

/-- The lines of the input as bytes. The last line need not be ended. A carriage return before the
    line feed stays with its line, where it counts as a blank. -/
def rawLines (input : ByteArray) : List (List UInt8) :=
  let pieces := input.toList.splitOn lineFeed
  if pieces.getLast? = some [] then pieces.dropLast else pieces

/-- The lines of the input as texts, with nothing in place of a line that is not UTF-8. -/
def lines (input : ByteArray) : List (Option String) :=
  (rawLines input).map fun bytes => String.fromUTF8? ⟨bytes.toArray⟩

/-- The texts of the lines before the first that cannot be read. -/
def readable (input : ByteArray) : List String :=
  ((lines input).takeWhile Option.isSome).filterMap id

/-- Whether every line can be read. -/
def isReadable (input : ByteArray) : Bool := (lines input).all Option.isSome

/-- The lines that are processed, numbered from one. -/
def numbered (input : ByteArray) : List Line :=
  ((readable input).zipIdx 1).map fun entry => Line.ofText entry.2 entry.1

/-- The blocks of the lines that are processed. -/
def blocks (input : ByteArray) : List Block := (numbered input).map Line.block

/-- The number of lines that failed. -/
def failures (input : ByteArray) : Nat := (blocks input).countP Block.failed

/-- What is said of a line that cannot be read. -/
def unreadableMessage : String :=
  "Error: Failed to read standard input\n\nCaused by:\n    stream did not contain valid UTF-8\n"

/-- The records of the session, oldest first. The summary is made only at the end of the input. -/
def records (input : ByteArray) : List Record :=
  (blocks input).flatMap Block.log
    ++ if isReadable input then [.finished (failures input)] else []

/-- Processes the whole input. -/
def run (options : Options) (input : ByteArray) : Report where
  output := String.join ((blocks input).map Block.output)
  diagnostics :=
    String.join (((records input).filter (·.isShown options.verbosity)).map Record.text)
      ++ if isReadable input then "" else unreadableMessage
  exitCode := if isReadable input && failures input == 0 then 0 else 1

end Session

end OperatorTerms
