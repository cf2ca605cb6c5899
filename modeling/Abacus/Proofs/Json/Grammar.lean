import Mathlib
import Abacus.Json.Reading

/-!
The grammar of JSON texts, that of RFC 8259, apart from how they are read. A datum is a value as it
is written, but for the blanks: its strings keep their escapes, its numbers their digits and its
objects the order of their members, a name as often as it comes. `Writes` relates a datum to all
its texts, which differ in blanks alone.
-/

namespace Abacus.Json

structure HexDigit where
  value : Fin 16
  isCapital : Bool
deriving DecidableEq

namespace HexDigit

def char (d : HexDigit) : Char :=
  if d.isCapital then (Nat.digitChar d.value).toUpper else Nat.digitChar d.value

end HexDigit

/-- Four hexadecimal digits after `\u`: a character, or one of the two halves of one. -/
structure CodeUnit where
  first : HexDigit
  second : HexDigit
  third : HexDigit
  fourth : HexDigit
deriving DecidableEq

namespace CodeUnit

def digits (u : CodeUnit) : List Char :=
  [u.first.char, u.second.char, u.third.char, u.fourth.char]

def number (u : CodeUnit) : Nat :=
  ((u.first.value * 16 + u.second.value) * 16 + u.third.value) * 16 + u.fourth.value

end CodeUnit

inductive Short where
  | quote | backslash | slash | backspace | formFeed | lineFeed | carriageReturn | tab
deriving DecidableEq

namespace Short

def letter : Short → Char
  | quote => '"'
  | backslash => '\\'
  | slash => '/'
  | backspace => 'b'
  | formFeed => 'f'
  | lineFeed => 'n'
  | carriageReturn => 'r'
  | tab => 't'

def char : Short → Char
  | quote => '"'
  | backslash => '\\'
  | slash => '/'
  | backspace => '\x08'
  | formFeed => '\x0c'
  | lineFeed => '\n'
  | carriageReturn => '\r'
  | tab => '\t'

end Short

structure IsPlain (c : Char) : Prop where
  quote : c ≠ '"'
  backslash : c ≠ '\\'
  control : ¬ c.toNat < 0x20

inductive Piece where
  | plain (c : Char) (isPlain : IsPlain c)
  | short (e : Short)
  | unit (u : CodeUnit)

namespace Piece

def text : Piece → List Char
  | plain c _ => [c]
  | short e => ['\\', e.letter]
  | unit u => '\\' :: 'u' :: u.digits

/-- The characters that the pieces stand for. Two halves that follow each other are one character,
and a half alone is none. -/
def chars? : List Piece → Option (List Char)
  | [] => some []
  | plain c _ :: more => (chars? more).map (c :: ·)
  | short e :: more => (chars? more).map (e.char :: ·)
  | unit u :: more =>
    if Reader.isTrailing u.number then none
    else if Reader.isLeading u.number then
      match more with
      | unit v :: more =>
        if Reader.isTrailing v.number then
          (chars? more).map
            (Char.ofNat (0x10000 + (u.number - 0xD800) * 0x400 + (v.number - 0xDC00)) :: ·)
        else none
      | _ => none
    else (chars? more).map (Char.ofNat u.number :: ·)

end Piece

structure Literal where
  pieces : List Piece

namespace Literal

def text (l : Literal) : List Char :=
  '"' :: (l.pieces.flatMap Piece.text ++ ['"'])

def Names (l : Literal) (text : String) : Prop :=
  Piece.chars? l.pieces = some text.toList

end Literal

structure Exponent where
  letter : Char
  sign : Option Char
  digits : List Char
  letter_mem : letter ∈ ['e', 'E']
  sign_mem : ∀ c ∈ sign, c ∈ ['-', '+']
  digits_ne_nil : digits ≠ []
  digits_isDigit : ∀ c ∈ digits, c.isDigit = true

namespace Exponent

def text (e : Exponent) : List Char :=
  e.letter :: (e.sign.toList ++ e.digits)

def value (e : Exponent) : Int :=
  if e.sign = some '-' then -Decimal.valueOfDigits e.digits else Decimal.valueOfDigits e.digits

end Exponent

/-- What stands behind the sign of a number. A whole part that begins with zero is nothing but that;
there is no point without a fraction. -/
structure Parts where
  whole : List Char
  fraction : List Char
  exponent : Option Exponent
  whole_ne_nil : whole ≠ []
  whole_isDigit : ∀ c ∈ whole, c.isDigit = true
  whole_eq_zero : whole.head? = some '0' → whole = ['0']
  fraction_isDigit : ∀ c ∈ fraction, c.isDigit = true

namespace Parts

def fractionText (p : Parts) : List Char :=
  if p.fraction = [] then [] else '.' :: p.fraction

def exponentText (p : Parts) : List Char :=
  p.exponent.elim [] Exponent.text

def text (p : Parts) : List Char :=
  p.whole ++ (p.fractionText ++ p.exponentText)

def power (p : Parts) : Int :=
  p.exponent.elim 0 Exponent.value

def decimal (p : Parts) : Decimal :=
  ⟨Decimal.valueOfDigits (p.whole ++ p.fraction), -p.fraction.length + p.power⟩

end Parts

structure Figure where
  isNegative : Bool
  parts : Parts

namespace Figure

def text (f : Figure) : List Char :=
  if f.isNegative then '-' :: f.parts.text else f.parts.text

def value (f : Figure) : Float :=
  if f.isNegative then -f.parts.decimal.toFloat else f.parts.decimal.toFloat

end Figure

inductive Datum where
  | null
  | boolean (isTrue : Bool)
  | number (f : Figure)
  | string (l : Literal)
  | list (items : List Datum)
  | object (members : List (Literal × Datum))

abbrev Member := Literal × Datum

/-- What a stretch of a text can be: a value, or with the blanks around it an item of a list or a
member of an object, or several of them with commas between. -/
inductive Node where
  | value (d : Datum)
  | item (d : Datum)
  | items (ds : List Datum)
  | member (m : Member)
  | members (ms : List Member)

def IsBlank (cs : List Char) : Prop :=
  ∀ c ∈ cs, c ∈ [' ', '\t', '\n', '\r']

theorem isBlank_nil : IsBlank [] := by simp [IsBlank]

inductive Writes : Node → List Char → Prop
  | null : Writes (.value .null) ['n', 'u', 'l', 'l']
  | yes : Writes (.value (.boolean true)) ['t', 'r', 'u', 'e']
  | no : Writes (.value (.boolean false)) ['f', 'a', 'l', 's', 'e']
  | number (f : Figure) : Writes (.value (.number f)) f.text
  | string (l : Literal) : Writes (.value (.string l)) l.text
  | emptyList {blanks} : IsBlank blanks → Writes (.value (.list [])) ('[' :: (blanks ++ [']']))
  | list {ds cs} : Writes (.items ds) cs → Writes (.value (.list ds)) ('[' :: (cs ++ [']']))
  | emptyObject {blanks} : IsBlank blanks →
      Writes (.value (.object [])) ('\x7b' :: (blanks ++ ['\x7d']))
  | object {ms cs} : Writes (.members ms) cs →
      Writes (.value (.object ms)) ('\x7b' :: (cs ++ ['\x7d']))
  | item {d before cs after} : IsBlank before → Writes (.value d) cs → IsBlank after →
      Writes (.item d) (before ++ (cs ++ after))
  | lastItem {d cs} : Writes (.item d) cs → Writes (.items [d]) cs
  | nextItem {d ds cs rest} : Writes (.item d) cs → Writes (.items ds) rest →
      Writes (.items (d :: ds)) (cs ++ ',' :: rest)
  | member {d before after cs} {l : Literal} : IsBlank before → IsBlank after →
      Writes (.item d) cs → Writes (.member (l, d)) (before ++ (l.text ++ (after ++ ':' :: cs)))
  | lastMember {m cs} : Writes (.member m) cs → Writes (.members [m]) cs
  | nextMember {m ms cs rest} : Writes (.member m) cs → Writes (.members ms) rest →
      Writes (.members (m :: ms)) (cs ++ ',' :: rest)

/-- The whole text is the datum, with nothing but blanks around it. -/
def IsText (d : Datum) (text : String) : Prop :=
  Writes (.item d) text.toList

end Abacus.Json
