import Mathlib
import Abacus.Expression
import Abacus.Proofs.Scan

/-!
What each production does, as a rule of the calculus of scans: the productions it calls, in order,
and what it makes of their values. Later proofs use these rules and open no production.
-/

namespace Abacus.Expression

open Scan

variable {src : Source} {nested : Production Float} {limit n : Nat} {s : List Glyph}
  {Q : Float → List Glyph → Prop} {E : Fault → Prop}

theorem operator?_eq_some_iff {kind : Operator → Bool} {g : Glyph} {op : Operator} :
    operator? kind g = some op ↔ g.char = op.symbol ∧ kind op = true := by
  rw [operator?, Option.filter_eq_some_iff, Operator.ofSymbol?_eq_some_iff]

theorem operator?_eq_none {kind : Operator → Bool} {g : Glyph}
    (h : ∀ op, kind op = true → g.char ≠ op.symbol) : operator? kind g = none := by
  refine Option.eq_none_iff_forall_ne_some.mpr fun op hop => ?_
  obtain ⟨char, isKind⟩ := operator?_eq_some_iff.mp hop
  exact h op isKind char

theorem rootWord_eq : rootWord = ['s', 'q', 'r', 't', '('] := rfl

theorem beginsWith_iff {word : List Char} :
    beginsWith word s = true ↔ ∃ taken rest, s = taken ++ rest ∧ taken.map Glyph.char = word := by
  rw [beginsWith, beq_iff_eq]
  constructor
  · intro same
    exact ⟨s.take word.length, s.drop word.length, (List.take_append_drop _ s).symm, same⟩
  · rintro ⟨taken, rest, rfl, rfl⟩
    rw [List.length_map, List.take_left']
    rfl

theorem beginsWith_eq_false {word : List Char} {g : Glyph} {c : Char} (h : g.char ≠ c) :
    beginsWith (c :: word) (g :: s) = false := by
  simp [beginsWith, h]

theorem ends_expression_zero : Ends (expression src limit 0) s Q E ↔
    E ⟨.tooDeeplyNested limit, some (src.span s)⟩ :=
  ends_failWith

theorem ends_expression_succ : Ends (expression src limit (n + 1)) s Q E ↔
    Ends (sum src (expression src limit n)) s Q E :=
  ends_delay

theorem ends_whole : Ends (whole src limit) s Q E ↔
    Ends (expression src limit limit) s (fun x rest => (rest = [] → Q x []) ∧
      ∀ g more, rest = g :: more → E ⟨.unexpectedCharacter g.char g.position, some g.span⟩) E := by
  rw [whole, ends_bind]
  refine Iff.of_eq (congrArg (Ends _ s · E) (funext₂ fun x rest => propext ?_))
  rw [ends_bind, ends_look]
  cases rest <;> simp [ends_pure, ends_fail]

theorem ends_sum : Ends (sum src nested) s Q E ↔
    Ends (term src nested) s (fun x rest => Ends (chain (summands src nested) x) rest Q E) E :=
  ends_bind

theorem ends_term : Ends (term src nested) s Q E ↔
    Ends (power src nested) s (fun x rest => Ends (chain (factors src nested) x) rest Q E) E :=
  ends_bind

theorem ends_power : Ends (power src nested) s Q E ↔
    Ends (unary src nested) s (fun x rest => Ends (chain (powers src nested) ⟨x, []⟩) rest
      (fun tower rest' => Q tower.value rest') E) E := by
  simp only [power, ends_bind, ends_pure]

theorem ends_unary : Ends (unary src nested) s Q E ↔
    Ends (function src nested) (s.dropWhile fun g => g.char == '-') (fun x rest =>
      Q (if (s.takeWhile fun g => g.char == '-').length % 2 = 1 then -x else x) rest) E := by
  simp only [unary, ends_bind, ends_pure, ends_takeWhile]

theorem ends_function_root (h : beginsWith rootWord s = true) : Ends (function src nested) s Q E ↔
    Ends (root src nested) s Q E := by
  rw [function, ends_bind, ends_look, if_pos h]

theorem ends_function_group (h : beginsWith rootWord s = false) (h' : beginsWith ['('] s = true) :
    Ends (function src nested) s Q E ↔ Ends (group src nested) s Q E := by
  rw [function, ends_bind, ends_look, h, if_neg Bool.false_ne_true, if_pos h']

theorem ends_function_number (h : beginsWith rootWord s = false) (h' : beginsWith ['('] s = false) :
    Ends (function src nested) s Q E ↔ Ends (Literal.number src) s Q E := by
  rw [function, ends_bind, ends_look, h, h', if_neg Bool.false_ne_true, if_neg Bool.false_ne_true]

theorem ends_function
    (isRoot : ∀ call rest, s = call ++ rest → call.map Glyph.char = rootWord →
      Ends (root src nested) s Q E)
    (isGroup : ∀ g rest, s = g :: rest → g.char = '(' → Ends (group src nested) s Q E)
    (isNumber : Ends (Literal.number src) s Q E) : Ends (function src nested) s Q E := by
  cases word : beginsWith rootWord s with
  | true =>
    obtain ⟨call, rest, taken, chars⟩ := beginsWith_iff.mp word
    exact (ends_function_root word).mpr (isRoot call rest taken chars)
  | false =>
    cases bracket : beginsWith ['('] s with
    | true =>
      obtain ⟨taken, rest, parts, chars⟩ := beginsWith_iff.mp bracket
      obtain ⟨g, tail, rfl, char, tail_nil⟩ := List.map_eq_cons_iff.mp chars
      rw [List.map_eq_nil_iff.mp tail_nil] at parts
      exact (ends_function_group word bracket).mpr (isGroup g rest parts char)
    | false => exact (ends_function_number word bracket).mpr isNumber

theorem ends_root : Ends (root src nested) s Q E ↔
    Ends nested (s.drop rootWord.length) (fun x rest => Ends (closing src) rest (fun last rest' =>
      (∀ y, squareRoot x (some ⟨(src.span s).start, last.offset + 1⟩) = .ok y → Q y rest') ∧
      ∀ f, squareRoot x (some ⟨(src.span s).start, last.offset + 1⟩) = .error f → E f) E) E := by
  simp only [root, ends_bind, ends_look, ends_skip, ends_ofExcept]

theorem ends_group : Ends (group src nested) s Q E ↔
    Ends nested (s.drop 1)
      (fun x rest => Ends (closing src) rest (fun _ rest' => Q x rest') E) E := by
  simp only [group, ends_bind, ends_skip, ends_pure]

theorem ends_number : Ends (Literal.number src) s Q E ↔
    (∀ x, Literal.value src (Literal.split s).1 (Literal.split s).2 = .ok x →
      Q x (Literal.split s).2) ∧
    ∀ f, Literal.value src (Literal.split s).1 (Literal.split s).2 = .error f → E f := by
  unfold Ends Literal.number
  cases h : Literal.value src (Literal.split s).1 (Literal.split s).2 <;> simp [h]

theorem ends_closing {Q : Glyph → List Glyph → Prop}
    (closed : ∀ g rest, s = g :: rest → g.char = ')' → Q g rest)
    (missing : E ⟨.expectedCharacter ')' (s.head?.map Glyph.char) (src.position s),
      some (src.span s)⟩) : Ends (closing src) s Q E :=
  ends_accept (fun g rest hs char => closed g rest hs (by simpa using char)) fun _ => missing

theorem ends_closing_cons {Q : Glyph → List Glyph → Prop} {g : Glyph} (h : g.char = ')') :
    Ends (closing src) (g :: s) Q E ↔ Q g s := by
  simp [Ends, closing, run_accept_cons, h]

def operation (operand : Production Float) (span : Option Span) (op : Operator) (left : Float) :
    Production Float := do
  let right ← operand
  Scan.ofExcept (op.apply left right span)

def operations (kind : Operator → Bool) (operand : Production Float) (span : Glyph → Option Span)
    (g : Glyph) : Option (Float → Production Float) :=
  (operator? kind g).map (operation operand (span g))

theorem summands_eq : summands src nested =
    operations Operator.isAdditive (term src nested) fun _ => none := rfl

theorem factors_eq : factors src nested =
    operations Operator.isMultiplicative (power src nested) fun g => some g.span := rfl

section Operations

variable {kind : Operator → Bool} {operand : Production Float} {span : Glyph → Option Span}

theorem ends_operation {op : Operator} {at? : Option Span} {x : Float} :
    Ends (operation operand at? op x) s Q E ↔ Ends operand s (fun y rest =>
      (∀ z, op.apply x y at? = .ok z → Q z rest) ∧ ∀ f, op.apply x y at? = .error f → E f) E := by
  simp only [operation, ends_bind, ends_ofExcept]

theorem operations_eq_some_iff {g : Glyph} {link : Float → Production Float} :
    operations kind operand span g = some link ↔
      ∃ op, (g.char = op.symbol ∧ kind op = true) ∧ operation operand (span g) op = link := by
  simp only [operations, Option.map_eq_some_iff, operator?_eq_some_iff]

theorem ends_operations_stop {x : Float}
    (h : ∀ g ∈ s.head?, ∀ op, kind op = true → g.char ≠ op.symbol) :
    Ends (chain (operations kind operand span) x) s Q E ↔ Q x s := by
  refine ends_chain_done fun g hg => ?_
  rw [operations, operator?_eq_none (h g hg), Option.map_none]

theorem ends_operations_link {g : Glyph} {op : Operator} {x : Float} (char : g.char = op.symbol)
    (isKind : kind op = true) :
    Ends (chain (operations kind operand span) x) (g :: s) Q E ↔
      Ends operand s (fun y rest =>
        (∀ z, op.apply x y (span g) = .ok z →
          Ends (chain (operations kind operand span) z) rest Q E) ∧
        ∀ f, op.apply x y (span g) = .error f → E f) E := by
  rw [ends_chain_link (operations_eq_some_iff.mpr ⟨op, ⟨char, isKind⟩, rfl⟩), ends_operation]

theorem ends_operations {x : Float} (start : Q x s)
    (step : ∀ x g rest op, Q x (g :: rest) → g.char = op.symbol → kind op = true →
      Ends operand rest (fun y rest' => (∀ z, op.apply x y (span g) = .ok z → Q z rest') ∧
        ∀ f, op.apply x y (span g) = .error f → E f) E) :
    Ends (chain (operations kind operand span) x) s Q E := by
  refine ends_chain start fun x g rest link held joined => ?_
  obtain ⟨op, ⟨char, isKind⟩, rfl⟩ := operations_eq_some_iff.mp joined
  exact ends_operation.mpr (step x g rest op held char isKind)

end Operations

def raise (src : Source) (nested : Production Float) (tower : Tower) : Production Tower := do
  let exponent ← unary src nested
  return ⟨exponent, tower.top :: tower.bases⟩

section Powers

variable {Q : Tower → List Glyph → Prop}

theorem powers_eq_some_iff {g : Glyph} {link : Tower → Production Tower} :
    powers src nested g = some link ↔ g.char = '^' ∧ raise src nested = link := by
  simp only [powers, Option.map_eq_some_iff, operator?_eq_some_iff, beq_iff_eq]
  constructor
  · rintro ⟨op, ⟨char, rfl⟩, rfl⟩
    exact ⟨char, rfl⟩
  · rintro ⟨char, rfl⟩
    exact ⟨.power, ⟨char, rfl⟩, rfl⟩

theorem ends_powers_stop {tower : Tower} (h : ∀ g ∈ s.head?, g.char ≠ '^') :
    Ends (chain (powers src nested) tower) s Q E ↔ Q tower s := by
  refine ends_chain_done fun g hg => Option.eq_none_iff_forall_ne_some.mpr fun link joined => ?_
  exact h g hg (powers_eq_some_iff.mp joined).1

theorem ends_powers_link {g : Glyph} {tower : Tower} (char : g.char = '^') :
    Ends (chain (powers src nested) tower) (g :: s) Q E ↔
      Ends (unary src nested) s (fun y rest =>
        Ends (chain (powers src nested) ⟨y, tower.top :: tower.bases⟩) rest Q E) E := by
  rw [ends_chain_link (powers_eq_some_iff.mpr ⟨char, rfl⟩)]
  simp only [raise, ends_bind, ends_pure]

theorem ends_powers {tower : Tower} (start : Q tower s)
    (step : ∀ tower g rest, Q tower (g :: rest) → g.char = '^' → Ends (unary src nested) rest
      (fun y rest' => Q ⟨y, tower.top :: tower.bases⟩ rest') E) :
    Ends (chain (powers src nested) tower) s Q E := by
  refine ends_chain start fun tower g rest link held joined => ?_
  obtain ⟨char, rfl⟩ := powers_eq_some_iff.mp joined
  simpa only [raise, ends_bind, ends_pure] using step tower g rest held char

end Powers

def missingNumber (src : Source) : Fault :=
  ⟨.expectedNumber none src.size, some ⟨src.extent, src.extent⟩⟩

theorem ends_function_nil : Ends (function src nested) [] Q E ↔ E (missingNumber src) := by
  have here : Literal.value src (Literal.split []).1 (Literal.split []).2 =
      .error (missingNumber src) := rfl
  rw [ends_function_number rfl rfl, ends_number, here]
  simp

theorem ends_unary_nil : Ends (unary src nested) [] Q E ↔ E (missingNumber src) := by
  rw [ends_unary, List.dropWhile_nil, ends_function_nil]

theorem ends_power_nil : Ends (power src nested) [] Q E ↔ E (missingNumber src) := by
  rw [ends_power, ends_unary_nil]

theorem ends_term_nil : Ends (term src nested) [] Q E ↔ E (missingNumber src) := by
  rw [ends_term, ends_power_nil]

theorem ends_expression_nil :
    Ends (expression src limit (n + 1)) [] Q E ↔ E (missingNumber src) := by
  rw [ends_expression_succ, ends_sum, ends_term_nil]

end Abacus.Expression
