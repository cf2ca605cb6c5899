import Abacus.Token

/-!
The colours of a line: every lexeme of it is one part. Brackets that belong together have the colour
of their depth; a closing bracket with none open is marked.
-/

namespace Abacus

inductive Color where
  | yellow
  | magenta
  | blue
  | green
  | cyan
  | white
  | red
deriving DecidableEq, Repr

structure Style where
  color : Option Color
  isBold : Bool
deriving DecidableEq, Repr

structure Part where
  style : Style
  text : List Char
deriving DecidableEq, Repr

namespace Highlight

def plain (color : Color) : Style :=
  ⟨some color, false⟩

def bracket (depth : Nat) : Style :=
  plain <|
    match depth % 4 with
    | 0 => .yellow
    | 1 => .magenta
    | 2 => .blue
    | _ => .green

def unmatched : Style :=
  ⟨some .red, true⟩

def style (depth : Nat) : Token.Kind → Style
  | .gap => ⟨none, false⟩
  | .root => plain .blue
  | .opening => bracket depth
  | .closing => if depth = 0 then unmatched else bracket (depth - 1)
  | .number => plain .cyan
  | .operator => plain .white
  | .unknown => plain .red

def depthAfter (depth : Nat) : Token.Kind → Nat
  | .opening => depth + 1
  | .closing => depth - 1
  | _ => depth

def parts : (depth : Nat) → List Token → List Part
  | _, [] => []
  | depth, t :: ts => ⟨style depth t.kind, t.chars⟩ :: parts (depthAfter depth t.kind) ts

theorem flatMap_text_parts (depth : Nat) (ts : List Token) :
    (parts depth ts).flatMap Part.text = ts.flatMap Token.chars := by
  induction ts generalizing depth with
  | nil => rfl
  | cons t ts ih => simp [parts, ih]

def line (text : String) : List Part :=
  parts 0 (Token.lexemes 0 text.toList)

theorem flatMap_text_line (text : String) : (line text).flatMap Part.text = text.toList := by
  rw [line, flatMap_text_parts, Token.flatMap_chars_lexemes]

end Highlight

end Abacus
