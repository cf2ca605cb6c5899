/-!
Painted text. A row is a list of pieces, each with the shade it is painted in; whether shades are
shown is decided only when the rows become text, so that without colour the same text is left.
-/

namespace Abacus.Report

inductive Shade where
  | red
  | palette (n : Nat)
deriving DecidableEq, Repr

structure Piece where
  shade : Option Shade
  text : List Char
deriving DecidableEq, Repr

abbrev Row := List Piece

def Shade.code : Shade → String
  | red => "31"
  | palette n => "38;5;" ++ toString n

def Piece.paint (inColor : Bool) (p : Piece) : List Char :=
  match inColor, p.shade with
  | true, some shade => ("\x1b[" ++ shade.code ++ "m").toList ++ p.text ++ "\x1b[0m".toList
  | _, _ => p.text

def paint (inColor : Bool) (rows : List Row) : String :=
  String.ofList (rows.flatMap fun row => row.flatMap (Piece.paint inColor) ++ ['\n'])

def bare (text : List Char) : Piece :=
  ⟨none, text⟩

def blanks (n : Nat) : Piece :=
  bare (List.replicate n ' ')

def shaded (n : Nat) (text : List Char) : Piece :=
  ⟨some (.palette n), text⟩

def strokes (n : Nat) (text : List Char) : Row :=
  text.map fun c => shaded n [c]

end Abacus.Report
