import Abacus.Decimal
import Abacus.Scan
import Abacus.Text.Blank

/-!
JSON read strictly from left to right: the first thing that is wrong decides. A text may end too
early, may be no JSON, or may be JSON of another type than is asked for. Values that nobody asks for
are skipped: of them only the grammar is checked, so that a number may be out of range there and an
escape may name half of a surrogate pair.
-/

namespace Abacus.Json

inductive Failure where
  | ended
  | malformed
  | mismatch
deriving DecidableEq, Repr

abbrev Reader := Scan Char Failure

namespace Reader

def isBlank (c : Char) : Bool :=
  c == ' ' || c == '\n' || c == '\t' || c == '\r'

def blanks : Reader Unit := do
  let _ ← Scan.takeWhile isBlank

def ahead : Reader (Option Char) := do
  blanks
  return (← Scan.look).head?

def endedOr (otherwise : Failure) : List Char → Failure
  | [] => .ended
  | _ => otherwise

def symbol (c : Char) : Reader Unit := do
  let _ ← Scan.accept (· == c) (endedOr .malformed)

def word : List Char → Reader Unit
  | [] => pure ()
  | c :: cs => do
    symbol c
    word cs

def anySymbol : Reader Char :=
  Scan.accept (fun _ => true) (endedOr .malformed)

def hexValue? (c : Char) : Option Nat :=
  if c.isDigit then some (c.toNat - '0'.toNat)
  else if 'a' ≤ c ∧ c ≤ 'f' then some (c.toNat - 'a'.toNat + 10)
  else if 'A' ≤ c ∧ c ≤ 'F' then some (c.toNat - 'A'.toNat + 10)
  else none

/-- Four hexadecimal digits. The text has ended when fewer than four bytes are left. -/
def codeUnit : Reader Nat := do
  let s ← Scan.look
  match (s.take 4).mapM hexValue? with
  | some [a, b, c, d] =>
    Scan.skip 4
    return ((a * 16 + b) * 16 + c) * 16 + d
  | _ => Scan.fail (if Text.bytes s < 4 then .ended else .malformed)

def isLeading (n : Nat) : Bool :=
  0xD800 ≤ n && n ≤ 0xDBFF

def isTrailing (n : Nat) : Bool :=
  0xDC00 ≤ n && n ≤ 0xDFFF

def numbered : Reader Char := do
  let n ← codeUnit
  if isTrailing n then
    Scan.fail .malformed
  else if isLeading n then
    word ['\\', 'u']
    let m ← codeUnit
    if isTrailing m then
      return Char.ofNat (0x10000 + (n - 0xD800) * 0x400 + (m - 0xDC00))
    else
      Scan.fail .malformed
  else
    return Char.ofNat n

def escaped (byNumber : Reader Char) : Reader Char := do
  match ← anySymbol with
  | '"' => return '"'
  | '\\' => return '\\'
  | '/' => return '/'
  | 'b' => return '\x08'
  | 'f' => return '\x0c'
  | 'n' => return '\n'
  | 'r' => return '\r'
  | 't' => return '\t'
  | 'u' => byNumber
  | _ => Scan.fail .malformed

/-- One character of a string more, the last one first; a quote is none. -/
def nextCharacter (byNumber : Reader Char) (c : Char) : Option (List Char → Reader (List Char)) :=
  if c = '"' then none
  else some fun read =>
    if c = '\\' then do
      return (← escaped byNumber) :: read
    else if c.toNat < 0x20 then
      Scan.fail .malformed
    else
      return c :: read

def quoted (byNumber : Reader Char) : Reader (List Char) := do
  symbol '"'
  let read ← Scan.chain (nextCharacter byNumber) []
  symbol '"'
  return read.reverse

def characters : Reader (List Char) :=
  quoted numbered

def skipCharacters : Reader Unit := do
  -- any four digits will do where nobody reads the string
  let _ ← quoted do
    let _ ← codeUnit
    return '0'

structure Numeral where
  isNegative : Bool
  whole : List Char
  fraction : List Char
  exponent : Int

def digits (short : Failure) : Reader (List Char) := do
  let ds ← Scan.takeWhile Char.isDigit
  if ds = [] then
    Scan.failWith fun s => if s = [] then short else .malformed
  else
    return ds

def optionally (cs : List Char) : Reader (Option Char) := do
  match (← Scan.look).head? with
  | none => return none
  | some c =>
    if c ∈ cs then
      Scan.skip 1
      return some c
    else
      return none

def wholePart (short : Failure) : Reader (List Char) := do
  let ds ← digits short
  if ds.head? = some '0' ∧ ds ≠ ['0'] then Scan.fail .malformed else return ds

def fractionPart (short : Failure) : Reader (List Char) := do
  match ← optionally ['.'] with
  | none => return []
  | some _ => digits short

def exponentPart (short : Failure) : Reader Int := do
  match ← optionally ['e', 'E'] with
  | none => return 0
  | some _ =>
    let sign ← optionally ['-', '+']
    let n : Int := Decimal.valueOfDigits (← digits short)
    return if sign = some '-' then -n else n

def numeral (short : Failure) : Reader Numeral := do
  let sign ← optionally ['-']
  let whole ← wholePart short
  let fraction ← fractionPart short
  let exponent ← exponentPart short
  return ⟨sign.isSome, whole, fraction, exponent⟩

def Numeral.value (n : Numeral) : Float :=
  let d := Decimal.ofDigits n.whole n.fraction
  let x := ({ d with exponent := d.exponent + n.exponent } : Decimal).toFloat
  if n.isNegative then -x else x

/-- How numbers become doubles. One that is out of range becomes none; else the choice of the double
is left open. -/
structure Conversion where
  toFloat? : Numeral → Option Float
  isFinite_of_toFloat? : ∀ n, ∀ x ∈ toFloat? n, Decimal.isFinite x = true

def Conversion.nearest : Conversion where
  toFloat? n := if Decimal.isFinite n.value then some n.value else none
  isFinite_of_toFloat? n x h := by
    rw [Option.mem_def, Option.ite_none_right_eq_some, Option.some.injEq] at h
    exact h.2 ▸ h.1

variable (convert : Conversion)

def double : Reader Float := do
  match convert.toFloat? (← numeral .ended) with
  | some x => return x
  | none => Scan.fail .malformed

def beginsNumeral (c : Char) : Bool :=
  c == '-' || c.isDigit

/-- Another type than asked for. That is only so once the value, or the opening of a list or an
object, has been read; `n`, `t` and `f` begin the three words. -/
def otherType {α : Type} : Reader α := do
  match ← ahead with
  | none => Scan.fail .ended
  | some 'n' => word "null".toList
  | some 't' => word "true".toList
  | some 'f' => word "false".toList
  | some '"' =>
    let _ ← characters
  | some '[' | some '\x7b' => pure ()
  | some c =>
    if beginsNumeral c then
      let _ ← double convert
    else
      Scan.fail .malformed
  Scan.fail .mismatch

def number : Reader Float := do
  if (← ahead).any beginsNumeral then double convert else otherType convert

def string : Reader String := do
  if (← ahead) = some '"' then return String.ofList (← characters) else otherType convert

def null : Reader Unit := do
  if (← ahead) = some 'n' then word "null".toList else otherType convert

def nullable {α : Type} (read : Reader α) : Reader (Option α) := do
  if (← ahead) = some 'n' then
    word "null".toList
    return none
  else
    return some (← read)

def thenBlanks {α : Type} (read : Reader α) : Reader α := do
  let a ← read
  blanks
  return a

/-- After an opening bracket: items between commas, each read with what the ones before it came to,
up to the closing bracket. -/
def enclosed {α : Type} (close : Char) (item : α → Reader α) (a : α) : Reader α := do
  match ← ahead with
  | none => Scan.fail .ended
  | some c =>
    if c = close then
      Scan.skip 1
      return a
    else
      let first ← thenBlanks (item a)
      let last ← Scan.chain (fun c => if c = ',' then some fun b => thenBlanks (item b) else none) first
      symbol close
      return last

def colon : Reader Unit := do
  blanks
  symbol ':'

def skipNested : Nat → Reader Unit
  | 0 => Scan.fail .malformed
  | levels + 1 => Scan.delay fun _ => do
    match ← ahead with
    | none => Scan.fail .ended
    | some 'n' => word "null".toList
    | some 't' => word "true".toList
    | some 'f' => word "false".toList
    | some '"' => skipCharacters
    | some '[' =>
      Scan.skip 1
      enclosed ']' (fun _ => skipNested levels) ()
    | some '\x7b' =>
      Scan.skip 1
      enclosed '\x7d' (fun _ => do blanks; skipCharacters; colon; skipNested levels) ()
    | some c =>
      if beginsNumeral c then
        let _ ← numeral .malformed
      else
        Scan.fail .malformed

/-- A value that nobody reads. It has no more levels than characters. -/
def skipValue : Reader Unit := do
  skipNested ((← Scan.look).length + 1)

structure Field (σ : Type) where
  name : String
  update : Reader (σ → σ)

structure Draft (σ : Type) where
  met : List String
  record : σ

/-- A member of an object. A name that is no field is skipped with its value, as often as it comes;
a field that comes twice is an error as soon as its name has been read. -/
def member {σ : Type} (fields : List (Field σ)) (d : Draft σ) : Reader (Draft σ) := do
  blanks
  let name := String.ofList (← characters)
  match fields.find? (·.name == name) with
  | none =>
    colon
    skipValue
    return d
  | some field =>
    if name ∈ d.met then
      Scan.fail .mismatch
    else
      colon
      let update ← field.update
      return ⟨name :: d.met, update d.record⟩

def hasNext (isFirst : Bool) : Reader Bool := do
  match ← ahead with
  | none => Scan.fail .ended
  | some ']' => return false
  | some c =>
    if isFirst then
      return true
    else if c = ',' then
      Scan.skip 1
      match ← ahead with
      | none => Scan.fail .ended
      | some ']' => Scan.fail .malformed
      | some _ => return true
    else
      Scan.fail .malformed

def inOrder {σ : Type} : (fields : List (Field σ)) → (isFirst : Bool) → σ → Reader σ
  | [], _, record => return record
  | field :: more, isFirst, record => do
    if ← hasNext isFirst then
      let update ← field.update
      inOrder more false (update record)
    else
      return record

def record {σ : Type} (fields : List (Field σ)) (start : σ) : Reader σ := do
  match ← ahead with
  | some '\x7b' =>
    Scan.skip 1
    return (← enclosed '\x7d' (member fields) ⟨[], start⟩).record
  | some '[' =>
    Scan.skip 1
    let record ← inOrder fields true start
    blanks
    symbol ']'
    return record
  | _ => otherType convert

end Reader

def read {α : Type} (reader : Reader α) (text : String) : Except Failure α :=
  let whole : Reader α := do
    let a ← reader
    Reader.blanks
    if (← Scan.look).isEmpty then return a else Scan.fail .malformed
  (whole.run text.toList).1

end Abacus.Json
