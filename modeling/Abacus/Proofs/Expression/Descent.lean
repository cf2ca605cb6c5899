import Abacus.Expression

/-!
Reading without calculating. A descent makes the moves of the productions and emits instructions for
a machine with a stack of values, each as soon as what it is for has been read. When it ends, in
success or in a fault, the machine is left to run what was emitted.
-/

namespace Abacus

namespace Scan

variable {σ ε δ α β : Type}

def convert (f : Except ε α → Except δ β) (x : Scan σ ε α) : Scan σ δ β where
  run s := (f (x.run s).1, (x.run s).2)
  suffix := x.suffix

@[simp] theorem run_convert (f : Except ε α → Except δ β) (x : Scan σ ε α) (s : List σ) :
    (x.convert f).run s = (f (x.run s).1, (x.run s).2) := rfl

end Scan

namespace Expression

inductive Instruction where
  | literal (x : Float)
  | negate
  | binary (op : Operator) (span : Option Span)
  | root (span : Span)
deriving DecidableEq

abbrev Program := List Instruction

namespace Program

/-- How far a machine came: to a stack, the last value first, or to the fault of an operation, or to
one that lacks operands. -/
inductive Outcome where
  | stack (values : List Float)
  | fault (f : Fault)
  | stuck
deriving DecidableEq

def Outcome.andThen : Outcome → (List Float → Outcome) → Outcome
  | stack values, more => more values
  | fault f, _ => fault f
  | stuck, _ => stuck

def push (stack : List Float) : Except Fault Float → Outcome
  | .ok x => .stack (x :: stack)
  | .error f => .fault f

def step : Instruction → List Float → Outcome
  | .literal x, stack => push stack (.ok x)
  | .negate, x :: stack => push stack (.ok (-x))
  | .binary op span, right :: left :: stack => push stack (op.apply left right span)
  | .root span, x :: stack => push stack (squareRoot x (some span))
  | _, _ => .stuck

def execute : Program → List Float → Outcome
  | [], stack => .stack stack
  | i :: p, stack => (step i stack).andThen (execute p)

end Program

/-- A reader that emits instructions: those so far come with its value, and with its fault. -/
structure Descent (α : Type) where
  scan : Scan Glyph (Program × Fault) (Program × α)

namespace Descent

variable {α β : Type}

def prepend (p : Program) :
    Except (Program × Fault) (Program × α) → Except (Program × Fault) (Program × α)
  | .ok (q, a) => .ok (p ++ q, a)
  | .error (q, f) => .error (p ++ q, f)

def after (p : Program) (y : Descent α) : Descent α :=
  ⟨y.scan.convert (prepend p)⟩

def emitting (p : Program) : Except Fault α → Except (Program × Fault) (Program × α)
  | .ok a => .ok (p, a)
  | .error f => .error (p, f)

def lift (x : Production α) : Descent α :=
  ⟨x.convert (emitting [])⟩

def emit (p : Program) : Descent Unit :=
  after p (lift (pure ()))

instance : Monad Descent where
  pure a := lift (pure a)
  bind y f := ⟨y.scan >>= fun e => (after e.1 (f e.2)).scan⟩

def chain (join : Glyph → Option (α → Descent α)) (a : α) : Descent α :=
  ⟨Scan.chain (fun g => (join g).map fun link e => (after e.1 (link e.2)).scan) ([], a)⟩

def number (src : Source) : Descent Unit := do
  let x ← lift (Literal.number src)
  emit [.literal x]

def group (src : Source) (nested : Descent Unit) : Descent Unit := do
  lift (Scan.skip 1)
  nested
  let _ ← lift (closing src)
  return

def root (src : Source) (nested : Descent Unit) : Descent Unit := do
  let call ← lift Scan.look
  lift (Scan.skip rootWord.length)
  nested
  let last ← lift (closing src)
  emit [.root ⟨(src.span call).start, last.offset + 1⟩]

def function (src : Source) (nested : Descent Unit) : Descent Unit := do
  let s ← lift Scan.look
  if beginsWith rootWord s then root src nested
  else if beginsWith ['('] s then group src nested
  else number src

def unary (src : Source) (nested : Descent Unit) : Descent Unit := do
  let minuses ← lift (Scan.takeWhile fun g => g.char == '-')
  function src nested
  emit (if minuses.length % 2 = 1 then [.negate] else [])

def powers (src : Source) (nested : Descent Unit) (g : Glyph) : Option (Nat → Descent Nat) :=
  (operator? (· == .power) g).map fun _ height => do
    unary src nested
    return height + 1

/-- No power is raised before the last exponent of the chain has been read. -/
def power (src : Source) (nested : Descent Unit) : Descent Unit := do
  unary src nested
  let height ← chain (powers src nested) 0
  emit (List.replicate height (.binary .power none))

def operations (kind : Operator → Bool) (operand : Descent Unit) (span : Glyph → Option Span)
    (g : Glyph) : Option (Unit → Descent Unit) :=
  (operator? kind g).map fun op _ => do
    operand
    emit [.binary op (span g)]

def term (src : Source) (nested : Descent Unit) : Descent Unit := do
  power src nested
  chain (operations Operator.isMultiplicative (power src nested) fun g => some g.span) ()

def sum (src : Source) (nested : Descent Unit) : Descent Unit := do
  term src nested
  chain (operations Operator.isAdditive (term src nested) fun _ => none) ()

def expression (src : Source) (limit : Nat) : Nat → Descent Unit
  | 0 => lift (Scan.failWith fun s => ⟨.tooDeeplyNested limit, some (src.span s)⟩)
  | levels + 1 => sum src (expression src limit levels)

def whole (src : Source) (limit : Nat) : Descent Unit := do
  expression src limit limit
  match ← lift Scan.look with
  | [] => return
  | g :: _ => lift (Scan.fail ⟨.unexpectedCharacter g.char g.position, some g.span⟩)

end Descent

structure Emission where
  program : Program
  fault : Option Fault
deriving DecidableEq

/-- The fault of the first operation that fails; if none does, the fault of the descent; if there is
none either, the only value on the stack. -/
def Emission.answer? (e : Emission) : Option (Except Fault Float) :=
  match Program.execute e.program [], e.fault with
  | .fault f, _ => some (.error f)
  | .stack _, some f => some (.error f)
  | .stack [x], none => some (.ok x)
  | _, _ => none

end Expression

open Expression

def Source.descend (src : Source) (limit : Nat) : Emission :=
  if src.glyphs = [] then ⟨[], some ⟨.emptyExpression, none⟩⟩
  else
    match (Descent.whole src limit).scan.run src.glyphs with
    | (.ok (p, _), _) => ⟨p, none⟩
    | (.error (p, f), _) => ⟨p, some f⟩

def descend (text : String) (limit : Nat) : Emission :=
  (Source.ofText text).descend limit

end Abacus
