import Mathlib
import Abacus.Proofs.Expression.Productions
import Abacus.Proofs.Token.Lexemes

/-!
Reading with a record of the terminals. A recording makes the moves of the productions and writes
down what is taken for each terminal, with its place in the text as typed; without the record it is
the production. What it writes down cuts the glyphs that have been read into terminals, numbers as
long as they can be.
-/

namespace Abacus

structure Terminal where
  kind : Token.Kind
  chars : List Char
  span : Span
deriving DecidableEq

def Terminal.of (kind : Token.Kind) (gs : List Glyph) : Terminal where
  kind := kind
  chars := gs.map Glyph.char
  span := ⟨gs.head?.elim 0 fun g => g.span.start, gs.getLast?.elim 0 fun g => g.span.stop⟩

/-- A reader of glyphs that writes down terminals. -/
abbrev Recording := WriterT (List Terminal) (Scan Glyph Fault)

namespace Recording

open Expression

variable {α β : Type}

def lift (x : Production α) : Recording α :=
  liftM x

/-- Writes down all that the production takes as one terminal. -/
def taking (kind : Token.Kind) (x : Production α) : Recording α := do
  let s ← lift Scan.look
  let a ← lift x
  let rest ← lift Scan.look
  tell [.of kind (s.take (s.length - rest.length))]
  return a

def chain (join : Glyph → Option (α → Recording α)) (a : α) : Recording α :=
  WriterT.mk (Scan.chain (fun g => (join g).map fun link e => do
    let e' ← (link e.1).run
    return (e'.1, e.2 ++ e'.2)) (a, []))

def closing (src : Source) : Recording Glyph :=
  taking .closing (Expression.closing src)

def group (src : Source) (nested : Recording Float) : Recording Float := do
  taking .opening (Scan.skip 1)
  let value ← nested
  let _ ← closing src
  return value

def root (src : Source) (nested : Recording Float) : Recording Float := do
  let call ← lift Scan.look
  taking .root (Scan.skip 4)
  taking .opening (Scan.skip 1)
  let value ← nested
  let last ← closing src
  lift (Scan.ofExcept (squareRoot value (some ⟨(src.span call).start, last.offset + 1⟩)))

def function (src : Source) (nested : Recording Float) : Recording Float := do
  let s ← lift Scan.look
  if beginsWith rootWord s then root src nested
  else if beginsWith ['('] s then group src nested
  else taking .number (Literal.number src)

def unary (src : Source) (nested : Recording Float) : Recording Float := do
  let minuses ← lift (Scan.takeWhile fun g => g.char == '-')
  tell (minuses.map fun g => .of .operator [g])
  let value ← function src nested
  return if minuses.length % 2 = 1 then -value else value

def powers (src : Source) (nested : Recording Float) (g : Glyph) :
    Option (Tower → Recording Tower) :=
  (operator? (· == .power) g).map fun _ tower => do
    tell [.of .operator [g]]
    let exponent ← unary src nested
    return ⟨exponent, tower.top :: tower.bases⟩

def power (src : Source) (nested : Recording Float) : Recording Float := do
  let first ← unary src nested
  let tower ← chain (powers src nested) ⟨first, []⟩
  return tower.value

def operations (kind : Operator → Bool) (operand : Recording Float) (span : Glyph → Option Span)
    (g : Glyph) : Option (Float → Recording Float) :=
  (operator? kind g).map fun op left => do
    tell [.of .operator [g]]
    let right ← operand
    lift (Scan.ofExcept (op.apply left right (span g)))

def term (src : Source) (nested : Recording Float) : Recording Float := do
  let first ← power src nested
  chain (operations Operator.isMultiplicative (power src nested) fun g => some g.span) first

def sum (src : Source) (nested : Recording Float) : Recording Float := do
  let first ← term src nested
  chain (operations Operator.isAdditive (term src nested) fun _ => none) first

def expression (src : Source) (limit : Nat) : Nat → Recording Float
  | 0 => lift (Scan.failWith fun s => ⟨.tooDeeplyNested limit, some (src.span s)⟩)
  | levels + 1 => sum src (expression src limit levels)

def whole (src : Source) (limit : Nat) : Recording Float := do
  let value ← expression src limit limit
  match ← lift Scan.look with
  | [] => return value
  | g :: _ => lift (Scan.fail ⟨.unexpectedCharacter g.char g.position, some g.span⟩)

def erase (x : Recording α) : Production α :=
  Prod.fst <$> x.run

theorem erase_pure (a : α) : (pure a : Recording α).erase = pure a := rfl

theorem erase_bind (x : Recording α) (f : α → Recording β) :
    (x >>= f).erase = x.erase >>= fun a => (f a).erase := by
  have run : (x >>= f).run =
      x.run >>= fun e => (fun e' => (e'.1, e.2 ++ e'.2)) <$> (f e.1).run := rfl
  simp [erase, run]

theorem erase_lift (x : Production α) : (lift x).erase = x := by
  have run : (lift x).run = (fun a => (a, ∅)) <$> x := rfl
  simp [erase, run]

theorem erase_tell (ts : List Terminal) : (tell ts : Recording Unit).erase = pure () :=
  map_pure Prod.fst ((), ts)

theorem erase_taking (kind : Token.Kind) (x : Production α) : (taking kind x).erase = x := by
  simp only [taking, erase_bind, erase_lift, erase_tell, erase_pure, pure_bind]
  exact bind_pure x

theorem erase_chain (join : Glyph → Option (α → Recording α)) (a : α) :
    (chain join a).erase = Scan.chain (fun g => (join g).map fun link a => (link a).erase) a := by
  refine Scan.map_chain (fun g => ?_) (a, [])
  cases join g with
  | none => exact .inl ⟨rfl, rfl⟩
  | some link => exact .inr ⟨_, _, rfl, rfl, fun e => by simp [erase]⟩

theorem erase_closing (src : Source) : (closing src).erase = Expression.closing src :=
  erase_taking _ _

section

variable {src : Source} {nested : Recording Float} {x : Production Float}

theorem erase_group (inside : nested.erase = x) :
    (group src nested).erase = Expression.group src x := by
  simp only [group, Expression.group, erase_bind, erase_taking, erase_closing, erase_pure, inside]

theorem erase_root (inside : nested.erase = x) :
    (root src nested).erase = Expression.root src x := by
  have word : rootWord.length = 4 + 1 := rfl
  simp only [root, Expression.root, erase_bind, erase_lift, erase_taking, erase_closing, inside,
    word, ← Scan.skip_skip, bind_assoc]

theorem erase_function (inside : nested.erase = x) :
    (function src nested).erase = Expression.function src x := by
  simp only [function, Expression.function, erase_bind, erase_lift]
  refine congrArg _ (funext fun s => ?_)
  split_ifs
  · exact erase_root inside
  · exact erase_group inside
  · exact erase_taking _ _

theorem erase_unary (inside : nested.erase = x) :
    (unary src nested).erase = Expression.unary src x := by
  simp only [unary, Expression.unary, erase_bind, erase_lift, erase_tell, erase_pure, pure_bind,
    erase_function inside]

theorem erase_power (inside : nested.erase = x) :
    (power src nested).erase = Expression.power src x := by
  have links : (fun g => (powers src nested g).map fun link tower => (link tower).erase) =
      Expression.powers src x := by
    funext g
    simp only [powers, Expression.powers, Option.map_map]
    refine congrArg (Option.map · _) (funext fun _ => funext fun tower => ?_)
    simp only [Function.comp_apply, erase_bind, erase_tell, erase_pure, pure_bind,
      erase_unary inside]
  simp only [power, Expression.power, erase_bind, erase_chain, erase_pure, erase_unary inside,
    links]

theorem erase_operations (kind : Operator → Bool) (span : Glyph → Option Span)
    (inside : nested.erase = x) :
    (fun g => (operations kind nested span g).map fun link left => (link left).erase) =
      Expression.operations kind x span := by
  funext g
  simp only [operations, Expression.operations, Option.map_map]
  refine congrArg (Option.map · _) (funext fun op => funext fun left => ?_)
  simp only [Function.comp_apply, Expression.operation, erase_bind, erase_tell, erase_lift,
    pure_bind, inside]

theorem erase_term (inside : nested.erase = x) :
    (term src nested).erase = Expression.term src x := by
  have factor : (power src nested).erase = Expression.power src x := erase_power inside
  simp only [term, Expression.term, erase_bind, erase_chain, factor, erase_operations _ _ factor]
  rfl

theorem erase_sum (inside : nested.erase = x) : (sum src nested).erase = Expression.sum src x := by
  have summand : (term src nested).erase = Expression.term src x := erase_term inside
  simp only [sum, Expression.sum, erase_bind, erase_chain, summand, erase_operations _ _ summand]
  rfl

end

theorem erase_expression (src : Source) (limit n : Nat) :
    (expression src limit n).erase = Expression.expression src limit n := by
  induction n with
  | zero => exact erase_lift _
  | succ n ih => exact erase_sum ih

theorem erase_whole (src : Source) (limit : Nat) :
    (whole src limit).erase = Expression.whole src limit := by
  simp only [whole, Expression.whole, erase_bind, erase_lift, erase_expression]
  refine congrArg _ (funext fun value => congrArg _ (funext fun s => ?_))
  cases s with
  | nil => exact erase_pure value
  | cons g s => exact erase_lift _

end Recording

/-- The value of a source with the terminals that are taken for it. -/
def Source.record (src : Source) (limit : Nat) : Except Fault (Float × List Terminal) :=
  if src.glyphs = [] then .error ⟨.emptyExpression, none⟩
  else ((Recording.whole src limit).run.run src.glyphs).1

def record (text : String) (limit : Nat) : Except Fault (Float × List Terminal) :=
  (Source.ofText text).record limit

theorem record_erase (text : String) (limit : Nat) :
    (record text limit).map Prod.fst = evaluate text limit := by
  unfold record Source.record evaluate Source.evaluate Source.evaluateFrom
  split_ifs
  · rfl
  · rw [← Recording.erase_whole, Recording.erase, Scan.run_map]

theorem exists_record {text : String} {limit : Nat} {v : Float}
    (h : evaluate text limit = .ok v) :
    ∃ ts, record text limit = .ok (v, ts) := by
  rw [← record_erase] at h
  cases ran : record text limit with
  | error f => simp [ran, Except.map] at h
  | ok e =>
    rw [ran, Except.map, Except.ok.injEq] at h
    exact ⟨e.2, by rw [← h]⟩

end Abacus
