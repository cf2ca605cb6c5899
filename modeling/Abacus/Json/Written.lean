import Abacus.Decimal.Text

/-!
JSON as text, written without blanks. Strings escape the quote, the backslash and the characters
below U+0020, and nothing else. Numbers have the fewest digits that read back and always a fraction
part or an exponent; a number that is not finite is written as null.
-/

namespace Abacus.Json

def hexDigit (n : Nat) : Char :=
  Nat.digitChar n

def escape (c : Char) : List Char :=
  match c with
  | '"' => ['\\', '"']
  | '\\' => ['\\', '\\']
  | '\x08' => ['\\', 'b']
  | '\x0c' => ['\\', 'f']
  | '\n' => ['\\', 'n']
  | '\r' => ['\\', 'r']
  | '\t' => ['\\', 't']
  | c =>
    if c.toNat < 0x20 then
      ['\\', 'u', '0', '0', hexDigit (c.toNat / 16), hexDigit (c.toNat % 16)]
    else
      [c]

def string (text : String) : String :=
  String.ofList ('"' :: text.toList.flatMap escape ++ ['"'])

def numberLayout : Decimal.Layout where
  tie := .toEven
  isPositional exponent := -5 ≤ exponent && exponent < 16
  wholeEnd := ['.', '0']

def null : String := "null"

def number (x : Float) : String :=
  if Decimal.isFinite x then String.ofList (numberLayout.finite x) else null

def nullable {α : Type} (write : α → String) : Option α → String
  | some a => write a
  | none => null

def list (items : List String) : String :=
  "[" ++ String.intercalate "," items ++ "]"

def object (members : List (String × String)) : String :=
  "\x7b" ++ String.intercalate "," (members.map fun (key, value) => string key ++ ":" ++ value) ++
    "\x7d"

end Abacus.Json
