import Abacus.Decimal.Shortest

/-!
Doubles as text, and text as doubles. A `Layout` holds what a written form decides: which way a tie
between two shortest decimals goes, which numbers are written without an exponent, and what a whole
number ends in. Reading takes the usual decimal spellings, and those of the infinities and of NaN.
-/

namespace Abacus.Decimal

structure Layout where
  tie : Tie
  /-- Given the exponent of the first digit: whether the number is written without one. -/
  isPositional : Int → Bool
  wholeEnd : List Char

def decimalDigits (n : Nat) : List Char :=
  Nat.toDigits 10 n

def padded (width n : Nat) : List Char :=
  let ds := decimalDigits n
  List.replicate (width - ds.length) '0' ++ ds

def positional (d : Decimal) (wholeEnd : List Char) : List Char :=
  if 0 ≤ d.exponent then
    decimalDigits (d.digits * Nat.pow 10 d.exponent.toNat) ++ wholeEnd
  else
    let places := (-d.exponent).toNat
    let scale := Nat.pow 10 places
    decimalDigits (d.digits / scale) ++ '.' :: padded places (d.digits % scale)

def scientific (d : Decimal) : List Char :=
  let ds := decimalDigits d.digits
  let exponent := (ds.length : Int) - 1 + d.exponent
  let fraction := if ds.length ≤ 1 then [] else '.' :: ds.drop 1
  let sign := if exponent < 0 then '-' else '+'
  ds.take 1 ++ fraction ++ 'e' :: sign :: decimalDigits exponent.natAbs

def signed (x : Float) (cs : List Char) : List Char :=
  if isNegative x then '-' :: cs else cs

def Layout.finite (l : Layout) (x : Float) : List Char :=
  if magnitude x = 0 then
    signed x ('0' :: l.wholeEnd)
  else
    let d := shortest l.tie (magnitude x)
    if l.isPositional ((digitCount d.digits : Int) - 1 + d.exponent) then
      signed x (positional d l.wholeEnd)
    else
      signed x (scientific d)

def plainLayout : Layout where
  tie := .upward
  isPositional _ := true
  wholeEnd := []

def plain (x : Float) : String :=
  if isFinite x then String.ofList (plainLayout.finite x)
  else if infinityBits < magnitude x then "NaN"
  else if isNegative x then "-inf"
  else "inf"

def wholeText? (x : Float) : Option String :=
  let n := units (magnitude x)
  if isFinite x && n % unitsInOne == 0 then
    some (String.ofList (signed x (decimalDigits (n / unitsInOne))))
  else
    none

def infinity : Float :=
  Float.ofBits (UInt64.ofNat infinityBits)

def notANumber : Float :=
  Float.ofBits (UInt64.ofNat (infinityBits + Nat.pow 2 51))

def readDigits? (cs : List Char) : Option Nat :=
  if cs ≠ [] ∧ cs.all Char.isDigit then some (valueOfDigits cs) else none

def readExponent? : List Char → Option Int
  | '-' :: cs => (readDigits? cs).map fun n => -n
  | '+' :: cs => (readDigits? cs).map fun n => n
  | cs => (readDigits? cs).map fun n => n

/-- Digits with an optional point and an optional exponent; one side of the point may be empty. -/
def read? (cs : List Char) : Option Decimal :=
  let whole := cs.takeWhile Char.isDigit
  let (fraction, rest) :=
    match cs.dropWhile Char.isDigit with
    | '.' :: more => (more.takeWhile Char.isDigit, more.dropWhile Char.isDigit)
    | more => ([], more)
  if whole ++ fraction = [] then
    none
  else
    let d := ofDigits whole fraction
    match rest with
    | [] => some d
    | e :: power =>
      if e = 'e' ∨ e = 'E' then (readExponent? power).map fun n => { d with exponent := d.exponent + n }
      else none

def readUnsigned? (cs : List Char) : Option Float :=
  let name := cs.map Char.toLower
  if name = "inf".toList ∨ name = "infinity".toList then some infinity
  else if name = "nan".toList then some notANumber
  else (read? cs).map toFloat

def readFloat? (text : String) : Option Float :=
  match text.toList with
  | '-' :: cs => (readUnsigned? cs).map Float.neg
  | '+' :: cs => readUnsigned? cs
  | cs => readUnsigned? cs

end Abacus.Decimal
