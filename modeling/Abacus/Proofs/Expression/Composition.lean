import Mathlib
import Abacus.Operation
import Abacus.Proofs.Expression.Evaluation
import Abacus.Proofs.Expression.Gaps

/-!
Texts in brackets. A derivation does not depend on where its glyphs stand, so a text with a value is
read inside of another text as it is on its own, up to the bracket that closes it, one level deeper.
With that an operation on two bracketed texts is the operation on their values, and a fault of it
points at its operator.
-/

namespace Abacus

open Text

namespace Glyph

def moved (position offset : Nat) (g : Glyph) : Glyph :=
  ⟨g.char, position + g.position, offset + g.offset⟩

theorem isFollowedBy_moved (position offset : Nat) (g next : Glyph) :
    (g.moved position offset).isFollowedBy (next.moved position offset) = g.isFollowedBy next := by
  simp only [isFollowedBy, moved, Nat.add_assoc, beq_eq_beq, Nat.add_left_cancel_iff]

theorem strip_moved (position offset p o : Nat) (cs : List Char) :
    strip (position + p) (offset + o) cs = (strip p o cs).map (moved position offset) := by
  induction cs generalizing p o with
  | nil => rfl
  | cons c cs ih =>
    cases blank : isBlank c with
    | true => rw [strip_blank blank, strip_blank blank, Nat.add_assoc, ih]
    | false => rw [strip_cons blank, strip_cons blank, Nat.add_assoc, Nat.add_assoc, ih]; rfl

end Glyph

namespace Expression

open Scan

/-- The same characters, as near to each other, have the same tree at another place. -/
theorem Derives.moved {n : Nat} {r : Rule} {gs : List Glyph} {t : Tree} (h : Derives n r gs t)
    (position offset : Nat) : Derives n r (gs.map (Glyph.moved position offset)) t := by
  induction h with
  | expression _ _ ih ihMore => rw [List.map_append]; exact .expression ih ihMore
  | summandsEnd => exact .summandsEnd
  | summandsMore char additive _ _ ih ihMore =>
    rw [List.map_cons, List.map_append]
    exact .summandsMore char additive ih ihMore
  | term _ _ ih ihMore => rw [List.map_append]; exact .term ih ihMore
  | factorsEnd => exact .factorsEnd
  | factorsMore char multiplicative _ _ ih ihMore =>
    rw [List.map_cons, List.map_append]
    exact .factorsMore char multiplicative ih ihMore
  | base _ ih => exact .base ih
  | raised _ caret _ ih ihExponent =>
    rw [List.map_append, List.map_cons]
    exact .raised ih caret ihExponent
  | @unary _ _ _ minuses run _ ih =>
    have signs : ∀ g ∈ minuses.map (Glyph.moved position offset), g.char = '-' := by
      simpa [Glyph.moved] using run
    rw [List.map_append, ← List.length_map (Glyph.moved position offset)]
    exact .unary signs ih
  | @root _ _ _ call close word _ closed ih =>
    have word' : (call.map (Glyph.moved position offset)).map Glyph.char = rootWord := by
      rw [List.map_map]
      exact word
    rw [List.map_append, List.map_append]
    exact .root word' ih closed
  | group opened _ closed ih =>
    rw [List.map_cons, List.map_append]
    exact .group opened ih closed
  | @number _ gs x text contiguous =>
    refine .number ?_ ?_
    · rw [List.map_map]
      exact text
    · refine List.isChain_map_of_isChain _ (fun g next adjacent => ?_) contiguous
      rwa [Glyph.isFollowedBy_moved]

def bracketed (text : String) (position offset : Nat) : List Glyph :=
  Glyph.strip position offset ('(' :: (text.toList ++ [')']))

theorem bracketed_eq (text : String) (position offset : Nat) :
    bracketed text position offset = ⟨'(', position, offset⟩ ::
      (Glyph.strip (position + 1) (offset + 1) text.toList ++
        [⟨')', position + 1 + bytes (stripped text.toList), offset + 1 + bytes text.toList⟩]) := by
  have opening : isBlank '(' = false := by decide
  have closing : isBlank ')' = false := by decide
  rw [bracketed, Glyph.strip_cons opening, Glyph.strip_append, Glyph.strip_cons closing]
  rfl

theorem ends_inside {text : String} {d limit : Nat} {v : Float} (h : evaluate text d = .ok v)
    (src : Source) (position offset : Nat) {close : Glyph} (closed : close.char = ')')
    {rest : List Glyph} {Q : Float → List Glyph → Prop} {E : Fault → Prop} :
    Ends (expression src limit d) (Glyph.strip position offset text.toList ++ close :: rest) Q E ↔
      Q v (close :: rest) := by
  obtain ⟨t, derived, value⟩ := Source.evaluate_ok_iff.mp h
  have placed : Derives d .expression (Glyph.strip position offset text.toList) t := by
    have moved := derived.moved position offset
    rwa [Source.ofText, Source.ofChars, ← Glyph.strip_moved, Nat.add_zero, Nat.add_zero] at moved
  -- no expression goes on with the bracket that follows
  have read : Evaluates (expression src limit d) _ t (close :: rest) :=
    placed.read src limit (close :: rest) (by simp [closed, Rule.follow])
  unfold Evaluates Ends at read
  unfold Ends
  cases ended : (expression src limit d).run
      (Glyph.strip position offset text.toList ++ close :: rest) with
  | mk result left =>
    rw [ended] at read
    cases result with
    | error f =>
      rw [value] at read
      cases read.1
    | ok w =>
      rw [value] at read
      obtain ⟨same, rfl⟩ := read
      rw [Option.some.inj same]

section Operands

variable {src : Source} {nested : Production Float} {gs hs rest : List Glyph} {x y : Float}
  {Q : Float → List Glyph → Prop} {E : Fault → Prop} {g : Glyph} {op : Operator}

theorem ends_unary_run {minuses : List Glyph} (run : ∀ g ∈ minuses, g.char = '-')
    (stop : ∀ g ∈ rest.head?, g.char ≠ '-') : Ends (unary src nested) (minuses ++ rest) Q E ↔
      Ends (function src nested) rest
        (fun v rest' => Q (if minuses.length % 2 = 1 then -v else v) rest') E := by
  have run' : ∀ g ∈ minuses, (g.char == '-') = true := by simpa using run
  have stop' : ∀ g ∈ rest.head?, (g.char == '-') = false := by simpa using stop
  rw [ends_unary, dropWhile_append_of_stop run' stop', takeWhile_append_of_stop run' stop']

/-- A text in brackets, read at any place, has the value of the text. -/
theorem ends_function_bracketed {text : String} {d : Nat} {v : Float} (h : evaluate text d = .ok v)
    (src : Source) (limit position offset : Nat) :
    Ends (function src (expression src limit d)) (bracketed text position offset ++ rest) Q E ↔
      Q v rest := by
  have bracket : beginsWith ['('] (bracketed text position offset ++ rest) = true :=
    beginsWith_iff.mpr ⟨[⟨'(', position, offset⟩], _, by rw [bracketed_eq]; rfl, rfl⟩
  have notRoot : beginsWith rootWord (bracketed text position offset ++ rest) = false := by
    rw [bracketed_eq, rootWord_eq]
    exact beginsWith_eq_false (show '(' ≠ 's' by decide)
  rw [ends_function_group notRoot bracket, ends_group, bracketed_eq, List.cons_append,
    List.append_assoc, List.singleton_append, List.drop_one, List.tail_cons,
    ends_inside h src _ _ rfl, ends_closing_cons rfl]

/-- Glyphs that are an operand with this value, whatever stands after them. -/
def IsOperand (src : Source) (nested : Production Float) (gs : List Glyph) (v : Float) : Prop :=
  ∀ rest Q E, Ends (unary src nested) (gs ++ rest) Q E ↔ Q v rest

theorem isOperand_bracketed {text : String} {d : Nat} {v : Float} (h : evaluate text d = .ok v)
    (src : Source) (limit position offset : Nat) :
    IsOperand src (expression src limit d) (bracketed text position offset) v := by
  intro rest Q E
  rw [← List.nil_append (bracketed text position offset ++ rest),
    ends_unary_run (by simp) (by simp [bracketed_eq]), ends_function_bracketed h]
  rfl

theorem apply_cause (op : Operator) (x y : Float) (span span' : Option Span) :
    (op.apply x y span).mapError Fault.cause = (op.apply x y span').mapError Fault.cause := by
  cases op
  case divide =>
    by_cases zero : (y == 0) = true
    · rw [Operator.apply, Operator.apply, if_pos zero, if_pos zero]
      rfl
    · rw [Operator.apply, Operator.apply, if_neg zero, if_neg zero]
  all_goals rfl

theorem apply_span (other : op ≠ .divide) (x y : Float) (span span' : Option Span) :
    op.apply x y span = op.apply x y span' := by
  cases op
  case divide => exact absurd rfl other
  all_goals rfl

theorem ends_operations_last {kind : Operator → Bool} {operand : Production Float}
    {span : Glyph → Option Span} :
    Ends (chain (operations kind operand span) x) [] Q E ↔ Q x [] :=
  ends_operations_stop (by simp)

namespace IsOperand

theorem ends_power (h : IsOperand src nested gs x) (stop : ∀ g ∈ rest.head?, g.char ≠ '^') :
    Ends (power src nested) (gs ++ rest) Q E ↔ Q x rest := by
  rw [Expression.ends_power, h, ends_powers_stop stop]
  rfl

theorem ends_raised (h : IsOperand src nested gs x) (h' : IsOperand src nested hs y)
    (caret : g.char = '^') (stop : ∀ g ∈ rest.head?, g.char ≠ '^') :
    Ends (power src nested) (gs ++ g :: (hs ++ rest)) Q E ↔ Q (x.pow y) rest := by
  rw [Expression.ends_power, h, ends_powers_link caret, h', ends_powers_stop stop]
  rfl

theorem ends_term (h : IsOperand src nested gs x)
    (stop : ∀ g ∈ rest.head?, ∀ op : Operator, op.isAdditive = false → g.char ≠ op.symbol) :
    Ends (term src nested) (gs ++ rest) Q E ↔ Q x rest := by
  rw [Expression.ends_term, h.ends_power fun g here => stop g here .power rfl, factors_eq]
  refine ends_operations_stop fun g here op multiplicative => stop g here op ?_
  cases op <;> simp_all [Operator.isAdditive, Operator.isMultiplicative]

theorem ends_sum_additive (h : IsOperand src nested gs x) (h' : IsOperand src nested hs y)
    (char : g.char = op.symbol) (additive : op.isAdditive = true) :
    Ends (sum src nested) (gs ++ g :: (hs ++ [])) Q E ↔
      (∀ z, op.apply x y (some g.span) = .ok z → Q z []) ∧
        ∀ f, op.apply x y (some g.span) = .error f → E f := by
  have here : ∀ g' ∈ (g :: (hs ++ [])).head?, ∀ op' : Operator, op'.isAdditive = false →
      g'.char ≠ op'.symbol := by
    rintro _ ⟨⟩ op' other same
    rw [Operator.symbol_injective (char.symm.trans same), other] at additive
    cases additive
  -- a sum does not say where it stands, and never fails
  have sameSpan : op.apply x y (some g.span) = op.apply x y none := by
    refine apply_span ?_ x y _ _
    rintro rfl
    cases additive
  rw [sameSpan, Expression.ends_sum, h.ends_term here, summands_eq,
    ends_operations_link char additive, h'.ends_term (by simp)]
  simp only [ends_operations_last]

theorem ends_sum_multiplicative (h : IsOperand src nested gs x) (h' : IsOperand src nested hs y)
    (char : g.char = op.symbol) (multiplicative : op.isMultiplicative = true) :
    Ends (sum src nested) (gs ++ g :: (hs ++ [])) Q E ↔
      (∀ z, op.apply x y (some g.span) = .ok z → Q z []) ∧
        ∀ f, op.apply x y (some g.span) = .error f → E f := by
  have here : ∀ g' ∈ (g :: (hs ++ [])).head?, g'.char ≠ '^' := by
    rintro _ ⟨⟩ same
    rw [Operator.symbol_injective (char.symm.trans same : op.symbol = Operator.power.symbol)]
      at multiplicative
    cases multiplicative
  rw [Expression.ends_sum, Expression.ends_term, h.ends_power here, factors_eq, summands_eq,
    ends_operations_link char multiplicative, h'.ends_power (by simp)]
  simp only [ends_operations_last]

theorem ends_sum_power (h : IsOperand src nested gs x) (h' : IsOperand src nested hs y)
    (caret : g.char = '^') :
    Ends (sum src nested) (gs ++ g :: (hs ++ [])) Q E ↔ Q (x.pow y) [] := by
  rw [Expression.ends_sum, Expression.ends_term, h.ends_raised h' caret (by simp), factors_eq,
    summands_eq, ends_operations_last, ends_operations_last]

theorem ends_sum (h : IsOperand src nested gs x) (h' : IsOperand src nested hs y)
    (char : g.char = op.symbol) : Ends (sum src nested) (gs ++ g :: hs) Q E ↔
      (∀ z, op.apply x y (some g.span) = .ok z → Q z []) ∧
        ∀ f, op.apply x y (some g.span) = .error f → E f := by
  rw [← List.append_nil hs]
  cases op with
  | add => exact h.ends_sum_additive h' char rfl
  | subtract => exact h.ends_sum_additive h' char rfl
  | multiply => exact h.ends_sum_multiplicative h' char rfl
  | divide => exact h.ends_sum_multiplicative h' char rfl
  | power =>
    rw [h.ends_sum_power h' char]
    simp [Operator.apply]

end IsOperand

theorem ends_sum_alone {s : List Glyph}
    (h : Ends (unary src nested) s (fun v rest => rest = [] ∧ Q v []) E) :
    Ends (sum src nested) s Q E := by
  rw [Expression.ends_sum, Expression.ends_term, Expression.ends_power]
  refine Ends.imp h ?_
  rintro v _ ⟨rfl, held⟩
  rw [ends_powers_stop (by simp), factors_eq, summands_eq, ends_operations_last,
    ends_operations_last]
  exact held

theorem ends_unary_negated {text : String} {d : Nat} {v : Float} (h : evaluate text d = .ok v)
    (src : Source) (limit position offset : Nat) (minus : g.char = '-') :
    Ends (unary src (expression src limit d)) (g :: bracketed text position offset) Q E ↔
      Q (-v) [] := by
  have run : ∀ g' ∈ [g], g'.char = '-' := by simp [minus]
  have stop : ∀ g ∈ (bracketed text position offset ++ []).head?, g.char ≠ '-' := by
    simp [bracketed_eq]
  rw [← List.append_nil (bracketed text position offset), ← List.singleton_append,
    ends_unary_run run stop, ends_function_bracketed h]
  rfl

def call : List Glyph :=
  [⟨'s', 0, 0⟩, ⟨'q', 1, 1⟩, ⟨'r', 2, 2⟩, ⟨'t', 3, 3⟩, ⟨'(', 4, 4⟩]

theorem strip_root (text : String) : Glyph.strip 0 0 ("sqrt(" ++ text ++ ")").toList =
    call ++ (Glyph.strip 5 5 text.toList ++
      [⟨')', 5 + bytes (stripped text.toList), 5 + bytes text.toList⟩]) := by
  have closing : isBlank ')' = false := by decide
  have chars : ("sqrt(" ++ text ++ ")").toList = rootWord ++ (text.toList ++ [')']) := by
    rw [String.toList_append, String.toList_append, List.append_assoc]
    rfl
  have word : Glyph.strip 0 0 rootWord = call := by decide
  rw [chars, Glyph.strip_append, word, Glyph.strip_append, Glyph.strip_cons closing]
  rfl

theorem ends_unary_root {text : String} {d : Nat} {v : Float} (h : evaluate text d = .ok v)
    (src : Source) (limit : Nat) :
    Ends (unary src (expression src limit d))
        (Glyph.strip 0 0 ("sqrt(" ++ text ++ ")").toList) Q E ↔
      (∀ y, squareRoot v (some ⟨0, 6 + bytes text.toList⟩) = .ok y → Q y []) ∧
        ∀ f, squareRoot v (some ⟨0, 6 + bytes text.toList⟩) = .error f → E f := by
  have word := beginsWith_iff.mpr ⟨call, Glyph.strip 5 5 text.toList ++
    [⟨')', 5 + bytes (stripped text.toList), 5 + bytes text.toList⟩], rfl, rfl⟩
  have length : call.length = rootWord.length := by decide
  have whole_call : 5 + bytes text.toList + 1 = 6 + bytes text.toList := by omega
  rw [strip_root, ← List.nil_append (call ++ _), ends_unary_run (by simp) (by simp [call]),
    ends_function_root word, ends_root, List.drop_left' length, ends_inside h src 5 5 rfl,
    ends_closing_cons rfl]
  simp only [whole_call]
  rfl

end Operands

end Expression

open Expression Scan

def Operator.between (op : Operator) (e₁ e₂ : String) : String :=
  "(" ++ e₁ ++ ") " ++ String.singleton op.symbol ++ " (" ++ e₂ ++ ")"

theorem Operator.exists_glyphs_between (op : Operator) (e₁ e₂ : String) :
    ∃ g position offset, g.char = op.symbol ∧
      g.span = ⟨bytes e₁.toList + 3, bytes e₁.toList + 4⟩ ∧
      (Source.ofText (op.between e₁ e₂)).glyphs =
        bracketed e₁ 0 0 ++ g :: bracketed e₂ position offset := by
  have space : isBlank ' ' = true := by decide
  have one : op.symbol.utf8Size = 1 := by cases op <;> decide
  have blank : ' '.utf8Size = 1 := by decide
  have chars : (op.between e₁ e₂).toList =
      ('(' :: (e₁.toList ++ [')'])) ++ ' ' :: op.symbol :: ' ' :: '(' :: (e₂.toList ++ [')']) := by
    simp [Operator.between]
  have glyphs : (Source.ofText (op.between e₁ e₂)).glyphs =
      Glyph.strip 0 0 (op.between e₁ e₂).toList := rfl
  have width : bytes ('(' :: (e₁.toList ++ [')'])) = bytes e₁.toList + 2 := by
    rw [bytes_cons, bytes_append]
    exact Nat.add_comm 1 _
  rw [glyphs, chars, Glyph.strip_append, Glyph.strip_blank space,
    Glyph.strip_cons (isBlank_symbol op), Glyph.strip_blank space, width]
  refine ⟨_, _, _, rfl, ?_, rfl⟩
  simp only [Glyph.span, one, blank, Nat.zero_add]

namespace Source

variable {src : Source} {limit : Nat} {result : Except Fault Float}

theorem evaluate_of_sum (some_glyph : src.glyphs ≠ [])
    (h : Ends (sum src (expression src (limit + 1) limit)) src.glyphs
      (fun v rest => rest = [] ∧ result = .ok v) fun f => result = .error f) :
    src.evaluate (limit + 1) = result := by
  have read : Ends (whole src (limit + 1)) src.glyphs
      (fun v _ => result = .ok v) fun f => result = .error f := by
    refine ends_whole.mpr (Ends.imp (ends_expression_succ.mpr h) ?_)
    rintro v _ ⟨rfl, value⟩
    exact ⟨fun _ => value, by simp⟩
  obtain ⟨v, evaluated, same⟩ | ⟨f, failed, same⟩ := evaluate_ends some_glyph read
  · rw [evaluated, same]
  · rw [failed, same]

theorem evaluate_of_operand (some_glyph : src.glyphs ≠ [])
    (h : Ends (unary src (expression src (limit + 1) limit)) src.glyphs
      (fun v rest => rest = [] ∧ result = .ok v) fun f => result = .error f) :
    src.evaluate (limit + 1) = result :=
  evaluate_of_sum some_glyph (ends_sum_alone (Ends.imp h fun _ _ ended => ⟨ended.1, rfl, ended.2⟩))

end Source

variable {e e₁ e₂ : String} {v v₁ v₂ : Float} {limit : Nat}

theorem evaluate_between (h₁ : evaluate e₁ limit = .ok v₁) (h₂ : evaluate e₂ limit = .ok v₂)
    (op : Operator) : evaluate (op.between e₁ e₂) (limit + 1) =
      op.apply v₁ v₂ (some ⟨bytes e₁.toList + 3, bytes e₁.toList + 4⟩) := by
  obtain ⟨g, position, offset, char, span, glyphs⟩ := op.exists_glyphs_between e₁ e₂
  refine Source.evaluate_of_sum (by simp [glyphs]) ?_
  have first := isOperand_bracketed h₁ (.ofText (op.between e₁ e₂)) (limit + 1) 0 0
  have second := isOperand_bracketed h₂ (.ofText (op.between e₁ e₂)) (limit + 1) position offset
  rw [glyphs, first.ends_sum second char, span]
  exact ⟨fun z applied => ⟨rfl, applied⟩, fun f failed => failed⟩

theorem evaluate_negated (h : evaluate e limit = .ok v) :
    evaluate ("-(" ++ e ++ ")") (limit + 1) = .ok (-v) := by
  have minus : isBlank '-' = false := by decide
  have chars : ("-(" ++ e ++ ")").toList = '-' :: '(' :: (e.toList ++ [')']) := by simp
  have glyphs : (Source.ofText ("-(" ++ e ++ ")")).glyphs = ⟨'-', 0, 0⟩ :: bracketed e 1 1 := by
    change Glyph.strip 0 0 ("-(" ++ e ++ ")").toList = _
    rw [chars, Glyph.strip_cons minus]
    rfl
  refine Source.evaluate_of_operand (by simp [glyphs]) ?_
  rw [glyphs, ends_unary_negated h _ _ _ _ rfl]
  exact ⟨rfl, rfl⟩

theorem evaluate_rooted (h : evaluate e limit = .ok v) :
    evaluate ("sqrt(" ++ e ++ ")") (limit + 1) =
      squareRoot v (some ⟨0, bytes ("sqrt(" ++ e ++ ")").toList⟩) := by
  have width : bytes ("sqrt(" ++ e ++ ")").toList = 6 + bytes e.toList := by
    rw [String.toList_append, String.toList_append, bytes_append, bytes_append]
    exact Nat.add_right_comm 5 _ 1
  have glyphs : (Source.ofText ("sqrt(" ++ e ++ ")")).glyphs =
      Glyph.strip 0 0 ("sqrt(" ++ e ++ ")").toList := rfl
  have some_glyph : (Source.ofText ("sqrt(" ++ e ++ ")")).glyphs ≠ [] := by
    rw [glyphs, strip_root]
    exact List.cons_ne_nil _ _
  refine Source.evaluate_of_operand some_glyph ?_
  rw [glyphs, width, ends_unary_root h]
  exact ⟨fun y root => ⟨rfl, root⟩, fun f failed => failed⟩

/-- Put in brackets, one level deeper, texts with a value are operands with that value: of the five
operators, which agree with the operations of the same name, of the minus and of the root. A
division by zero points at its operator, a root of a number below zero at the whole text. -/
theorem evaluate_of_bracketed (h₁ : evaluate e₁ limit = .ok v₁) (h₂ : evaluate e₂ limit = .ok v₂) :
    (∀ op : Operator, evaluate (op.between e₁ e₂) (limit + 1) =
      op.apply v₁ v₂ (some ⟨bytes e₁.toList + 3, bytes e₁.toList + 4⟩)) ∧
    (∀ op : Operation, (evaluate (op.operator.between e₁ e₂) (limit + 1)).mapError Fault.cause =
      (op.calculate v₁ v₂).mapError Fault.cause) ∧
    ((v₂ == 0) = true → evaluate (Operator.divide.between e₁ e₂) (limit + 1) =
      .error ⟨.divisionByZero, some ⟨bytes e₁.toList + 3, bytes e₁.toList + 4⟩⟩) ∧
    evaluate ("-(" ++ e₁ ++ ")") (limit + 1) = .ok (-v₁) ∧
    evaluate ("sqrt(" ++ e₁ ++ ")") (limit + 1) =
      squareRoot v₁ (some ⟨0, bytes ("sqrt(" ++ e₁ ++ ")").toList⟩) ∧
    (v₁ < 0 → evaluate ("sqrt(" ++ e₁ ++ ")") (limit + 1) =
      .error ⟨.negativeSquareRoot, some ⟨0, bytes ("sqrt(" ++ e₁ ++ ")").toList⟩⟩) := by
  refine ⟨evaluate_between h₁ h₂, fun op => ?_, fun zero => ?_, evaluate_negated h₁,
    evaluate_rooted h₁, fun negative => ?_⟩
  · rw [evaluate_between h₁ h₂, Operation.calculate, Expression.apply_cause]
  · rw [evaluate_between h₁ h₂, Operator.apply, if_pos zero]
  · rw [evaluate_rooted h₁, squareRoot, if_pos negative]

theorem evaluate_of_bracketed_difference :
    evaluate "1 -\u00a03" 1 = .ok (-2) ∧ evaluate "0" 1 = .ok 0 ∧
    evaluate "(1 -\u00a03) * (0)" 2 = .ok (-0.0) ∧
    evaluate "(1 -\u00a03) / (0)" 2 = .error ⟨.divisionByZero, some ⟨9, 10⟩⟩ ∧
    evaluate "-(1 -\u00a03)" 2 = .ok 2 ∧
    evaluate "sqrt(1 -\u00a03)" 2 = .error ⟨.negativeSquareRoot, some ⟨0, 12⟩⟩ := by
  have h₁ : evaluate "1 -\u00a03" 1 = .ok (-2) := by decide +kernel
  have h₂ : evaluate "0" 1 = .ok 0 := by decide +kernel
  have width : bytes "1 -\u00a03".toList = 6 := by decide
  have root_width : bytes "sqrt(1 -\u00a03)".toList = 12 := by decide
  have times : Operator.multiply.between "1 -\u00a03" "0" = "(1 -\u00a03) * (0)" := by decide +kernel
  have divided : Operator.divide.between "1 -\u00a03" "0" = "(1 -\u00a03) / (0)" := by decide +kernel
  have negative : "-(" ++ "1 -\u00a03" ++ ")" = "-(1 -\u00a03)" := by decide +kernel
  have root : "sqrt(" ++ "1 -\u00a03" ++ ")" = "sqrt(1 -\u00a03)" := by decide +kernel
  have product : Operator.multiply.apply (-2) 0 (some ⟨9, 10⟩) = .ok (-0.0) := by decide +kernel
  have opposite : -(-2 : Float) = 2 := by decide +kernel
  have meant := evaluate_of_bracketed h₁ h₂
  rw [width, divided, negative, root, root_width, opposite] at meant
  obtain ⟨operators, -, quotient, negated, -, rooted⟩ := meant
  refine ⟨h₁, h₂, ?_, quotient (by decide +kernel), negated, rooted (by decide +kernel)⟩
  rw [← times, operators]
  exact product

end Abacus
