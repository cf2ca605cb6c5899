import Abacus.CommandLine.Arguments
import Abacus.Json.Forms
import Abacus.Report

/-!
What the command writes. One request gives one answer; an input gives the answers to its lines, one
after the other, up to the first line that is not UTF-8. A line that fails takes nothing from the
lines after it.
-/

namespace Abacus.CommandLine

structure Transcript where
  output : String
  errors : String
  isOk : Bool
deriving DecidableEq, Repr

namespace Transcript

def empty : Transcript := ⟨"", "", true⟩

def append (s t : Transcript) : Transcript :=
  ⟨s.output ++ t.output, s.errors ++ t.errors, s.isOk && t.isOk⟩

instance : Append Transcript := ⟨append⟩

def exitCode (t : Transcript) : Nat :=
  if t.isOk then 0 else 1

end Transcript

def answerIn (inColor : Bool) (limit : Nat) (isJson : Bool) (r : Request) : Transcript :=
  match r.resolve limit, isJson with
  | .ok c, true => ⟨c.toJson ++ "\n", "", true⟩
  | .ok c, false => ⟨Decimal.plain c.result ++ "\n", "", true⟩
  | .error e, true => ⟨e.toJson ++ "\n", "", false⟩
  | .error e, false => ⟨"", Report.ofRejection r.source inColor e, false⟩

def lineFeed : UInt8 := 10
def carriageReturn : UInt8 := 13

def cutLines : List UInt8 → List (List UInt8)
  | [] => []
  | b :: s =>
    if b = lineFeed then [b] :: cutLines s
    else
      match cutLines s with
      | [] => [[b]]
      | first :: more => (b :: first) :: more

def dropLastIf (b : UInt8) (line : List UInt8) : List UInt8 :=
  if line.getLast? = some b then line.dropLast else line

/-- A line without its line feed, and without the carriage return before that. -/
def content (line : List UInt8) : List UInt8 :=
  if line.getLast? = some lineFeed then dropLastIf carriageReturn line.dropLast else line

def decode? (line : List UInt8) : Option String :=
  String.fromUTF8? ⟨line.toArray⟩

/-- Where errors are written: whether colours can be shown there, and what it says there of a line
that is not UTF-8. -/
structure Console where
  inColor : Bool
  encodingReport : String

def Console.pipe : Console :=
  ⟨false, "Error:   × stream did not contain valid UTF-8\n\n"⟩

def batch (console : Console) (limit : Nat) (isJson : Bool) : List (List UInt8) → Transcript
  | [] => .empty
  | line :: more =>
    match decode? (content line) with
    | none => ⟨"", console.encodingReport, false⟩
    | some text =>
      if Text.allBlank text.toList then batch console limit isJson more
      else
        answerIn console.inColor limit isJson (.ofExpression text) ++
          batch console limit isJson more

def runOn (console : Console) (a : Arguments) (input : List UInt8) : Transcript :=
  if a.readsInput then batch console a.maxDepth a.isJson (cutLines input)
  else answerIn console.inColor a.maxDepth a.isJson a.request

def run : Arguments → List UInt8 → Transcript :=
  runOn .pipe

end Abacus.CommandLine
