/-
Module: OperatorTerms.Main
Layer: Session
Purpose: The command line program: arguments and standard input in, a report on standard output
  and standard error out.
Imports: OperatorTerms.Session.Run
Main exports: main
-/
import OperatorTerms.Session.Run

open OperatorTerms

/-- Reads a stream to its end. -/
partial def OperatorTerms.Session.readBytes (stream : IO.FS.Stream) (before : ByteArray) :
    IO ByteArray := do
  let chunk ← stream.read 65536
  if chunk.isEmpty then return before else readBytes stream (before ++ chunk)

/-- Exits with code two when the arguments cannot be understood, and otherwise with the code of
    the session's report. -/
def main (arguments : List String) : IO UInt32 := do
  match Options.ofArguments? arguments with
  | none =>
      IO.eprintln "usage: [-v N | --verbose N]"
      return 2
  | some options =>
      let input ← Session.readBytes (← IO.getStdin) ByteArray.empty
      let report := Session.run options input
      IO.print report.output
      IO.eprint report.diagnostics
      return report.exitCode.toUInt32
