import Abacus.CommandLine

/-!
The command. Arguments come from the command line, expressions from there or from the input; answers
go to the output and reports to the error output.
-/

namespace Abacus

partial def readAll (input : IO.FS.Stream) (read : ByteArray) : IO ByteArray := do
  let more ← input.read 65536
  if more.isEmpty then return read else readAll input (read ++ more)

def usage : String :=
  "usage: abacus [--max-depth N] [--json] [--operator NAME] [--operand-a X] [--operand-b Y] [EXPRESSION]"

def command (words : List String) : IO UInt32 := do
  match CommandLine.Arguments.ofWords? words with
  | none =>
    IO.eprintln usage
    return 2
  | some a =>
    let input ← if a.readsInput then readAll (← IO.getStdin) .empty else pure .empty
    let inColor ← (← IO.getStderr).isTty
    let t := CommandLine.runOn { CommandLine.Console.pipe with inColor } a input.toList
    IO.print t.output
    IO.eprint t.errors
    return t.exitCode.toUInt32

end Abacus

def main (words : List String) : IO UInt32 :=
  Abacus.command words
