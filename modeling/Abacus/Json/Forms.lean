import Abacus.Json.Reading
import Abacus.Json.Written
import Abacus.Request

/-!
The JSON forms of requests, calculations, operations and rejections. Members are written in a fixed
order, absent ones as null; reading takes them in any order, skips what it does not know, and also
takes the list of the values without their names. A rejection is only ever written.
-/

namespace Abacus

open Json

structure Json.Codec (α : Type) where
  encode : α → String
  decode : String → Except Json.Failure α

namespace Operation

def toJson (op : Operation) : String :=
  string op.name

def named : Reader Operation := do
  Reader.blanks
  match ofName? (String.ofList (← Reader.characters)) with
  | some op => return op
  | none => Scan.fail .mismatch

/-- Its name, or an object with the name as its only key and null as the value. What stands in the
place of the name and is no string is malformed, also where it is a value of another type. -/
def reader (convert : Reader.Conversion) : Reader Operation := do
  match ← Reader.ahead with
  | none => Scan.fail .ended
  | some '"' => named
  | some '\x7b' =>
    Scan.skip 1
    let op ← named
    Reader.colon
    Reader.null convert
    Reader.blanks
    Reader.symbol '\x7d'
    return op
  | some _ => Scan.fail .malformed

def codec (convert : Reader.Conversion) : Codec Operation where
  encode := toJson
  decode := read (reader convert)

def ofJson? : String → Except Json.Failure Operation :=
  (codec .nearest).decode

end Operation

namespace Request

def toJson (r : Request) : String :=
  object
    [("expression", nullable string r.expression), ("operand_a", nullable number r.operandA),
     ("operand_b", nullable number r.operandB), ("operator", nullable string r.operator)]

def empty : Request := ⟨none, none, none, none⟩

def fields (convert : Reader.Conversion) : List (Reader.Field Request) :=
  [⟨"expression", do
      let text ← Reader.nullable (Reader.string convert)
      return fun r => { r with expression := text }⟩,
   ⟨"operand_a", do
      let x ← Reader.nullable (Reader.number convert)
      return fun r => { r with operandA := x }⟩,
   ⟨"operand_b", do
      let x ← Reader.nullable (Reader.number convert)
      return fun r => { r with operandB := x }⟩,
   ⟨"operator", do
      let name ← Reader.nullable (Reader.string convert)
      return fun r => { r with operator := name }⟩]

def codec (convert : Reader.Conversion) : Codec Request where
  encode := toJson
  decode := read (Reader.record convert (fields convert) empty)

def ofJson? : String → Except Json.Failure Request :=
  (codec .nearest).decode

end Request

namespace Calculation

def toJson (c : Calculation) : String :=
  object
    [("expression", string c.expression), ("result", number c.result),
     ("operator", nullable Operation.toJson c.operator), ("operand_a", nullable number c.operandA),
     ("operand_b", nullable number c.operandB)]

/-- A calculation of which some fields are not known yet. In a list all five have to be there, in an
object the last three may be missing. -/
structure Unfinished where
  expression : Option String
  result : Option Float
  operator : Option (Option Operation)
  operandA : Option (Option Float)
  operandB : Option (Option Float)

def Unfinished.empty : Unfinished := ⟨none, none, none, none, none⟩

def fields (convert : Reader.Conversion) : List (Reader.Field Unfinished) :=
  [⟨"expression", do
      let text ← Reader.string convert
      return fun c => { c with expression := some text }⟩,
   ⟨"result", do
      let x ← Reader.number convert
      return fun c => { c with result := some x }⟩,
   ⟨"operator", do
      let op ← Reader.nullable (Operation.reader convert)
      return fun c => { c with operator := some op }⟩,
   ⟨"operand_a", do
      let x ← Reader.nullable (Reader.number convert)
      return fun c => { c with operandA := some x }⟩,
   ⟨"operand_b", do
      let x ← Reader.nullable (Reader.number convert)
      return fun c => { c with operandB := some x }⟩]

def Unfinished.complete? (c : Unfinished) (isList : Bool) : Option Calculation := do
  if isList then
    return ⟨← c.expression, ← c.result, ← c.operator, ← c.operandA, ← c.operandB⟩
  else
    return ⟨← c.expression, ← c.result, c.operator.join, c.operandA.join, c.operandB.join⟩

def reader (convert : Reader.Conversion) : Reader Calculation := do
  let isList := (← Reader.ahead) == some '['
  match (← Reader.record convert (fields convert) Unfinished.empty).complete? isList with
  | some c => return c
  | none => Scan.fail .mismatch

def codec (convert : Reader.Conversion) : Codec Calculation where
  encode := toJson
  decode := read (reader convert)

def ofJson? : String → Except Json.Failure Calculation :=
  (codec .nearest).decode

end Calculation

def Rejection.toJson (r : Rejection) : String :=
  object
    [("message", string r.summary),
     ("errors", object (r.errors.map fun (field, messages) => (field, list (messages.map string))))]

end Abacus
