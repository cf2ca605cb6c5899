import Abacus.Fault
import Abacus.Rejection
import Abacus.Report.Label
import Abacus.Report.Paint

/-!
Reports: a fault drawn under the source it is shown against, with an arrow from the label to the
message. A fault that points nowhere is written plainly, and so are the complaints of a rejection
that has no fault or no source.
-/

namespace Abacus.Report

def frameShade : Nat := 246
def marginShade : Nat := 240
def helpShade : Nat := 115
def sourceShade : Nat := 249
def labelShade : Nat := 155

def frame (text : String) : Piece :=
  shaded frameShade text.toList

def drawLabel (text : String) : Row :=
  strokes labelShade text.toList

def margin (digits : Nat) (bar : Char) : Row :=
  [blanks 1, shaded marginShade (List.replicate (digits + 1) ' ' ++ [bar]), blanks 1]

def numberedMargin (digits : Nat) (line : Line) : Row :=
  let number := Nat.toDigits 10 line.number
  [blanks 1,
   shaded frameShade (List.replicate (digits - number.length) ' ' ++ number ++ [' ', '│']),
   blanks 1]

def sourceText (label : Label) (line : Line) : Row :=
  (line.drawn.zipIdx.map fun (c, column) =>
    strokes (if label.covers line column then labelShade else sourceShade) (Text.shown column c)).flatten

def arrowColumns (label : Label) : List Nat :=
  List.range (label.right + 2)

def underline (label : Label) : Row :=
  ((arrowColumns label).map fun column =>
    let width := label.first.columnWidth column
    if label.covers label.first column then
      strokes labelShade
        (((if column = label.middle then '┬' else '─') :: List.replicate (width - 1) '─').take width)
    else if column = label.middle then
      strokes labelShade (('│' :: List.replicate (width - 1) ' ').take width)
    else
      [blanks width]).flatten

def arrow (label : Label) : Row :=
  ((arrowColumns label).map fun column =>
    let width := label.first.columnWidth column
    if column < label.middle then [blanks width]
    else
      strokes labelShade
        (((if column = label.middle then '╰' else '─') :: List.replicate (width - 1) '─').take width)).flatten

def singleLine (digits : Nat) (label : Label) (message : String) : List Row :=
  [numberedMargin digits label.first ++ sourceText label label.first,
   margin digits '│' ++ underline label,
   margin digits '│' ++ arrow label ++ [bare (' ' :: message.toList)]]

/-- The columns under the last line, its terminator and two more. -/
def reach (line : Line) : Nat :=
  (List.range (line.chars.length + 2)).foldl (fun width column => width + line.columnWidth column) 0

def acrossLines (digits : Nat) (label : Label) (message : String) : List Row :=
  let between : List Row :=
    if label.first.index + 1 < label.last.index then
      [margin digits '┆' ++ drawLabel "┆" ++ [blanks 3]]
    else
      []
  [numberedMargin digits label.first ++ drawLabel "╭─▶ " ++ sourceText label label.first] ++
  between ++
  [numberedMargin digits label.last ++ drawLabel "├─▶ " ++ sourceText label label.last,
   margin digits '│' ++ drawLabel "│" ++ [blanks 3, blanks (reach label.last)],
   margin digits '│' ++ drawLabel "╰───" ++ strokes labelShade (List.replicate (reach label.last) '─') ++
     [bare (' ' :: message.toList)]]

def helpRows (digits : Nat) : Option String → List Row
  | none => []
  | some help =>
    [margin digits '│',
     margin digits '│' ++ [shaded helpShade "Help".toList, bare (": " ++ help).toList]]

def header (d : Diagnostic) : Piece :=
  ⟨some .red, ("[" ++ d.code ++ "] Error:").toList⟩

def drawing (d : Diagnostic) (label : Label) : List Row :=
  let digits := (Nat.toDigits 10 label.last.number).length
  let place :=
    " <input>:" ++ toString label.first.number ++ ":" ++ toString (label.left + 1) ++ " "
  [[header d, bare (" " ++ d.message).toList],
   [blanks (digits + 2), frame "╭", frame "─", frame "[", bare place.toList, frame "]"],
   [blanks (digits + 2), frame "│"]] ++
  (if label.isSingleLine then singleLine digits label d.message
    else acrossLines digits label d.message) ++
  helpRows digits d.help ++
  [[frame (String.ofList (List.replicate (digits + 2) '─' ++ ['╯']))]]

def plain (d : Diagnostic) : String :=
  "[" ++ d.code ++ "] Error: " ++ d.message ++ "\n" ++ d.help.elim "" fun help => "Help: " ++ help ++ "\n"

def ofFault (source : String) (inColor : Bool) (f : Fault) : String :=
  let d := f.diagnostic
  let label? : Option Label := do
    let span ← labelSpan? source.toList d.span
    Label.ofSpan? (linesOf source.toList) span
  match label? with
  | some label => paint inColor (drawing d label)
  | none => plain d

def ofLedger (ledger : Ledger) : String :=
  String.join (ledger.entries.map fun c => "Error: " ++ c.message ++ " (" ++ c.field ++ ")\n")

/-- The source is that of the expression, if the request was about one. -/
def ofRejection (source : Option String) (inColor : Bool) (r : Rejection) : String :=
  match source, r.fault with
  | some source, some fault => ofFault source inColor fault
  | _, _ => ofLedger r.errors

end Abacus.Report
