import Mathlib
import Abacus.Proofs.Expression.Location

/-!
The limit of nesting. With more levels allowed, a production does what it did before unless it gave
up for want of levels; and it gives up where, for the first time, as many brackets are open as the
limit says. So there is one number of levels that a text needs, and from there on the limit makes no
difference.
-/

namespace Abacus

namespace Expression

open Scan

def TooDeep (limit : Nat) (f : Fault) : Prop :=
  ∃ span, f = ⟨.tooDeeplyNested limit, some span⟩

section Approximation

variable {src : Source} {G : Fault → Prop} {x y : Production Float}

theorem approximates_function (inside : Approximates G x y) :
    Approximates G (function src x) (function src y) := by
  refine (Approximates.refl look).bind fun s => ?_
  split_ifs
  · refine (Approximates.refl look).bind fun call => (Approximates.refl (skip _)).bind fun _ => ?_
    exact inside.bind fun value => .refl _
  · exact (Approximates.refl (skip 1)).bind fun _ => inside.bind fun value => .refl _
  · exact .refl _

theorem approximates_unary (inside : Approximates G x y) :
    Approximates G (unary src x) (unary src y) := by
  refine (Approximates.refl (takeWhile _)).bind fun minuses => ?_
  exact (approximates_function inside).bind fun value => .refl _

theorem approximates_power (inside : Approximates G x y) :
    Approximates G (power src x) (power src y) := by
  refine (approximates_unary inside).bind fun first => ?_
  refine (Approximates.chain (fun g => ?_) _).bind fun tower => .refl _
  by_cases caret : g.char = '^'
  · refine .inr ⟨raise src x, raise src y, powers_eq_some_iff.mpr ⟨caret, rfl⟩,
      powers_eq_some_iff.mpr ⟨caret, rfl⟩, fun tower => ?_⟩
    exact (approximates_unary inside).bind fun exponent => .refl _
  · have none_joins : ∀ nested, powers src nested g = none := fun nested =>
      Option.eq_none_iff_forall_ne_some.mpr fun link joined =>
        caret (powers_eq_some_iff.mp joined).1
    exact .inl ⟨none_joins x, none_joins y⟩

theorem approximates_operations {kind : Operator → Bool} {span : Glyph → Option Span}
    (operand : Approximates G x y) (v : Float) :
    Approximates G (chain (operations kind x span) v) (chain (operations kind y span) v) := by
  refine .chain (fun g => ?_) v
  cases found : operator? kind g with
  | none => exact .inl ⟨by simp [operations, found], by simp [operations, found]⟩
  | some op =>
    refine .inr ⟨operation x (span g) op, operation y (span g) op, by simp [operations, found],
      by simp [operations, found], fun left => ?_⟩
    exact operand.bind fun right => .refl _

theorem approximates_term (inside : Approximates G x y) :
    Approximates G (term src x) (term src y) :=
  (approximates_power inside).bind (approximates_operations (approximates_power inside))

theorem approximates_sum (inside : Approximates G x y) : Approximates G (sum src x) (sum src y) :=
  (approximates_term inside).bind (approximates_operations (approximates_term inside))

/-- What matters is how many levels are left; the limit itself is only named in the fault. -/
theorem approximates_expression {limit n limit' m : Nat} (le : n ≤ m) :
    Approximates (TooDeep limit) (expression src limit n) (expression src limit' m) := by
  induction n generalizing m with
  | zero => exact .failWith (fun s => ⟨_, rfl⟩) _
  | succ n ih =>
    cases m with
    | zero => omega
    | succ m => exact .delay (approximates_sum (ih (Nat.le_of_succ_le_succ le)))

theorem approximates_whole {limit limit' : Nat} (le : limit ≤ limit') :
    Approximates (TooDeep limit) (whole src limit) (whole src limit') :=
  (approximates_expression le).bind fun _ => .refl _

end Approximation

/-- So many brackets are open at the end, and nowhere on the way more than the limit. -/
structure Reaches (limit : Nat) (cs : List Char) (k : Nat) : Prop where
  unclosed : Unclosed cs k
  bounded : ∀ p, p <+: cs → p.count '(' ≤ p.count ')' + limit

namespace Reaches

variable {limit k : Nat} {cs : List Char}

theorem nil : Reaches limit [] 0 where
  unclosed := rfl
  bounded p hp := by simp [List.prefix_nil.mp hp]

theorem le (h : Reaches limit cs k) : k ≤ limit := by
  have balance := h.unclosed
  have bound := h.bounded cs (List.prefix_refl cs)
  unfold Unclosed at balance
  omega

theorem concat {c : Char} {k' : Nat} (h : Reaches limit cs k) (unclosed : Unclosed (cs ++ [c]) k')
    (le : k' ≤ limit) : Reaches limit (cs ++ [c]) k' where
  unclosed := unclosed
  bounded p hp := by
    cases List.prefix_concat_iff.mp hp with
    | inl here =>
      unfold Unclosed at unclosed
      rw [here]
      omega
    | inr before => exact h.bounded p before

theorem plain {c : Char} (h : Reaches limit cs k) (notOpen : c ≠ '(') (notClose : c ≠ ')') :
    Reaches limit (cs ++ [c]) k :=
  h.concat (h.unclosed.append (.plain notOpen notClose)) h.le

theorem opening (h : Reaches limit cs k) (room : k + 1 ≤ limit) :
    Reaches limit (cs ++ ['(']) (k + 1) :=
  h.concat (Opening.bracket h.unclosed).unclosed room

theorem closing (h : Reaches limit cs (k + 1)) : Reaches limit (cs ++ [')']) k := by
  refine h.concat ?_ ((Nat.le_succ k).trans h.le)
  have balance := h.unclosed
  unfold Unclosed at *
  simp
  omega

end Reaches

def Within (src : Source) (limit k : Nat) (s : List Glyph) : Prop :=
  ∃ before, src.glyphs = before ++ s ∧ Reaches limit (before.map Glyph.char) k

/-- Where a fault arises, with so many brackets open there. -/
inductive Arises (src : Source) (limit : Nat) : Fault → Prop
  | number {k s f} : Within src limit k s →
      Literal.value src (Literal.split s).1 (Literal.split s).2 = .error f → Arises src limit f
  | closing {k s} : Within src limit (k + 1) s → Arises src limit
      ⟨.expectedCharacter ')' (s.head?.map Glyph.char) (src.position s), some (src.span s)⟩
  | arithmetic {f : Fault} : f.IsArithmetic → Arises src limit f
  | tooDeeplyNested {s} : Within src limit limit s →
      Arises src limit ⟨.tooDeeplyNested limit, some (src.span s)⟩
  | unexpectedCharacter (g : Glyph) :
      Arises src limit ⟨.unexpectedCharacter g.char g.position, some g.span⟩

def Crosses (src : Source) (limit : Nat) (f : Fault) : Prop :=
  ∀ n, f.cause = .tooDeeplyNested n →
    ∃ s, Within src limit limit s ∧ f = ⟨.tooDeeplyNested limit, some (src.span s)⟩

/-- The production leaves as many brackets open as it finds. -/
def Keeps (src : Source) (limit k : Nat) (x : Production Float) : Prop :=
  ∀ s, Within src limit k s → Ends x s (fun _ => Within src limit k) (Arises src limit)

section Balance

variable {src : Source} {limit k n : Nat} {g : Glyph} {s gs : List Glyph}

theorem Within.step {k' : Nat} (h : Within src limit k (g :: s))
    (more : ∀ cs, Reaches limit cs k → Reaches limit (cs ++ [g.char]) k') :
    Within src limit k' s := by
  obtain ⟨before, place, reaches⟩ := h
  refine ⟨before ++ [g], by simp [place], ?_⟩
  simpa using more _ reaches

theorem Within.plain (h : Within src limit k (g :: s)) (plain : g.char ≠ '(' ∧ g.char ≠ ')') :
    Within src limit k s :=
  h.step fun _ reaches => reaches.plain plain.1 plain.2

theorem Within.opening (h : Within src limit k (g :: s)) (char : g.char = '(')
    (room : k + 1 ≤ limit) : Within src limit (k + 1) s :=
  h.step fun _ reaches => char ▸ reaches.opening room

theorem Within.closing (h : Within src limit (k + 1) (g :: s)) (char : g.char = ')') :
    Within src limit k s :=
  h.step fun _ reaches => char ▸ reaches.closing

theorem Within.run (h : Within src limit k (gs ++ s))
    (plain : ∀ g ∈ gs, g.char ≠ '(' ∧ g.char ≠ ')') : Within src limit k s := by
  induction gs with
  | nil => exact h
  | cons g gs ih =>
    have past := Within.plain h (plain g List.mem_cons_self)
    exact ih past fun g' hg' => plain g' (List.mem_cons_of_mem g hg')

theorem Within.operator {op : Operator} (h : Within src limit k (g :: s))
    (char : g.char = op.symbol) : Within src limit k s := by
  refine h.plain ?_
  rw [char]
  cases op <;> exact ⟨by decide, by decide⟩

theorem keeps_number : Keeps src limit k (Literal.number src) := by
  intro s within
  refine ends_number.mpr ⟨fun v _ => ?_, fun f failed => .number within failed⟩
  · rw [← Literal.split_append s] at within
    refine within.run fun g hg => ?_
    have numeric := isNumeric_split g hg
    constructor
    · intro opening
      simp [opening, Literal.isNumeric] at numeric
    · intro closing
      simp [closing, Literal.isNumeric] at numeric

theorem keeps_closing {Q : Glyph → List Glyph → Prop} (within : Within src limit (k + 1) s)
    (closed : ∀ g rest, Within src limit k rest → Q g rest) :
    Ends (closing src) s Q (Arises src limit) := by
  refine ends_closing (fun g rest taken char => ?_) (.closing within)
  rw [taken] at within
  exact closed g rest (within.closing char)

section Productions

variable {nested : Production Float}

theorem Within.call {call : List Glyph} (h : Within src limit k (call ++ s))
    (word : call.map Glyph.char = rootWord) (room : k + 1 ≤ limit) :
    Within src limit (k + 1) s := by
  have parts : rootWord = ['s', 'q', 'r', 't'] ++ ['('] := rfl
  obtain ⟨name, bracket, rfl, name_chars, bracket_char⟩ :=
    List.map_eq_append_iff.mp (word.trans parts)
  obtain ⟨g, tail, rfl, char, tail_nil⟩ := List.map_eq_cons_iff.mp bracket_char
  obtain rfl := List.map_eq_nil_iff.mp tail_nil
  rw [List.append_assoc] at h
  refine (h.run fun g hg => ?_).opening char room
  have member := List.mem_map_of_mem (f := Glyph.char) hg
  rw [name_chars] at member
  constructor
  · intro opening
    simp [opening] at member
  · intro closing
    simp [closing] at member

theorem keeps_root {call : List Glyph} (inside : Keeps src limit (k + 1) nested)
    (room : k + 1 ≤ limit) (within : Within src limit k (call ++ s))
    (word : call.map Glyph.char = rootWord) :
    Ends (root src nested) (call ++ s) (fun _ => Within src limit k) (Arises src limit) := by
  have length : call.length = rootWord.length := by rw [← word, List.length_map]
  refine ends_root.mpr ?_
  rw [← length, List.drop_left]
  refine Ends.imp (inside s (within.call word room)) fun v rest further => ?_
  refine keeps_closing further fun last rest' outside => ⟨fun y _ => outside, fun f failed => ?_⟩
  rw [squareRoot_error failed]
  exact .arithmetic (.inr rfl)

theorem keeps_group (inside : Keeps src limit (k + 1) nested) (room : k + 1 ≤ limit)
    (within : Within src limit k (g :: s)) (char : g.char = '(') :
    Ends (group src nested) (g :: s) (fun _ => Within src limit k) (Arises src limit) := by
  refine ends_group.mpr (Ends.imp (inside s (within.opening char room)) fun v rest further => ?_)
  exact keeps_closing further fun _ _ outside => outside

theorem keeps_function (inside : Keeps src limit (k + 1) nested) (room : k + 1 ≤ limit) :
    Keeps src limit k (function src nested) := by
  intro s within
  refine ends_function (fun call rest taken word => ?_) (fun g rest taken char => ?_)
    (keeps_number s within)
  · rw [taken] at within ⊢
    exact keeps_root inside room within word
  · rw [taken] at within ⊢
    exact keeps_group inside room within char

theorem keeps_unary (inside : Keeps src limit (k + 1) nested) (room : k + 1 ≤ limit) :
    Keeps src limit k (unary src nested) := by
  intro s within
  rw [← List.takeWhile_append_dropWhile (p := fun g : Glyph => g.char == '-') (l := s)] at within
  refine ends_unary.mpr (keeps_function inside room _ (within.run fun g hg => ?_))
  have minus : g.char = '-' := by simpa using List.mem_takeWhile_imp hg
  simp [minus]

theorem keeps_power (inside : Keeps src limit (k + 1) nested) (room : k + 1 ≤ limit) :
    Keeps src limit k (power src nested) := by
  have operand := keeps_unary inside room
  intro s within
  refine ends_power.mpr (Ends.imp (operand s within) fun v rest further => ?_)
  refine ends_powers (Q := fun _ => Within src limit k) further fun tower g rest' held caret => ?_
  exact operand rest' (held.operator (show g.char = Operator.power.symbol from caret))

theorem keeps_operations {kind : Operator → Bool} {operand : Production Float}
    {span : Glyph → Option Span} (keeps : Keeps src limit k operand) (v : Float) :
    Keeps src limit k (chain (operations kind operand span) v) := by
  intro s within
  refine ends_operations within fun x g rest op held char _ => ?_
  refine Ends.imp (keeps rest (held.operator char)) fun y rest' further => ?_
  refine ⟨fun z _ => further, fun f failed => ?_⟩
  rw [(apply_error failed).1]
  exact .arithmetic (.inl rfl)

theorem keeps_sum (inside : Keeps src limit (k + 1) nested) (room : k + 1 ≤ limit) :
    Keeps src limit k (sum src nested) := by
  have factor := keeps_power inside room
  have summand : Keeps src limit k (term src nested) := fun s within =>
    ends_term.mpr (Ends.imp (factor s within) fun v rest => keeps_operations factor v rest)
  intro s within
  exact ends_sum.mpr (Ends.imp (summand s within) fun v rest => keeps_operations summand v rest)

end Productions

theorem keeps_expression (h : k + n = limit) : Keeps src limit k (expression src limit n) := by
  -- what is open and what may still be opened make up the limit
  induction n generalizing k with
  | zero =>
    intro s within
    obtain rfl : k = limit := h
    exact ends_expression_zero.mpr (.tooDeeplyNested within)
  | succ n ih =>
    intro s within
    exact ends_expression_succ.mpr (keeps_sum (ih (by omega)) (by omega) s within)

theorem arises_whole (src : Source) (limit : Nat) :
    Ends (whole src limit) src.glyphs (fun _ _ => True) (Arises src limit) := by
  have start : Within src limit 0 src.glyphs := ⟨[], rfl, .nil⟩
  refine ends_whole.mpr (Ends.imp (keeps_expression (Nat.zero_add limit) _ start) ?_)
  intro v rest _
  exact ⟨fun _ => trivial, fun g more _ => .unexpectedCharacter g⟩

theorem Arises.crosses {f : Fault} (h : Arises src limit f) : Crosses src limit f := by
  intro n deep
  cases h with
  | number _ failed =>
    obtain ⟨-, rfl⟩ | ⟨-, rfl⟩ := literal_value_error failed
    · simp at deep
    · simp at deep
  | closing => simp at deep
  | arithmetic cause => simp [Fault.IsArithmetic, deep] at cause
  | @tooDeeplyNested s within => exact ⟨s, within, rfl⟩
  | unexpectedCharacter => simp at deep

end Balance

end Expression

open Expression Scan Text

theorem Expression.Reaches.of_stripped {limit k : Nat} {cs : List Char}
    (h : Reaches limit (stripped cs) k) : Reaches limit cs k := by
  constructor
  · have balance := h.unclosed
    unfold Unclosed at *
    rwa [count_stripped rfl, count_stripped rfl] at balance
  · intro p hp
    have bound := h.bounded (stripped p) (hp.filter _)
    rwa [count_stripped rfl, count_stripped rfl] at bound

namespace Source

variable {src : Source} {limit limit' : Nat}

theorem evaluate_deep_or_eq (src : Source) (le : limit ≤ limit') :
    (∃ f, src.evaluate limit = .error f ∧ TooDeep limit f) ∨
      src.evaluate limit = src.evaluate limit' := by
  by_cases nothing : src.glyphs = []
  · exact .inr ((evaluate_nil nothing).trans (evaluate_nil nothing).symm)
  · simp only [evaluate, evaluateFrom, if_neg nothing]
    cases approximates_whole le src.glyphs with
    | inl gaveUp =>
      obtain ⟨f, rest, failed, deep⟩ := gaveUp
      exact .inl ⟨f, by rw [failed], deep⟩
    | inr same => exact .inr (by rw [same])

theorem evaluate_zero (some_glyph : src.glyphs ≠ []) :
    src.evaluate 0 = .error ⟨.tooDeeplyNested 0, some (src.span src.glyphs)⟩ := by
  have ends : Ends (whole src 0) src.glyphs (fun _ _ => False)
      (fun f => f = ⟨.tooDeeplyNested 0, some (src.span src.glyphs)⟩) :=
    ends_whole.mpr (ends_expression_zero.mpr rfl)
  cases evaluate_ends some_glyph ends with
  | inl value =>
    obtain ⟨v, -, impossible⟩ := value
    exact impossible.elim
  | inr fault =>
    obtain ⟨f, failed, same⟩ := fault
    rw [failed, same]

theorem evaluate_crosses (some_glyph : src.glyphs ≠ []) {f : Fault}
    (failed : src.evaluate limit = .error f) : Crosses src limit f :=
  (evaluate_error some_glyph (arises_whole src limit) failed).crosses

theorem evaluate_deep {cs : List Char} {n : Nat} {f : Fault}
    (failed : (ofChars cs).evaluate limit = .error f) (deep : f.cause = .tooDeeplyNested n) :
    ∃ span before after, f = ⟨.tooDeeplyNested limit, some span⟩ ∧ cs = before ++ after ∧
      span.start = bytes before ∧ Reaches limit before limit := by
  have some_glyph : (ofChars cs).glyphs ≠ [] := by
    intro nothing
    rw [evaluate_nil nothing, Except.error.injEq] at failed
    simp [← failed] at deep
  obtain ⟨s, ⟨gs, place, reaches⟩, points⟩ := evaluate_crosses some_glyph failed n deep
  obtain ⟨before, after, cuts, chars, -⟩ := cuts_span place
  rw [← chars] at reaches
  exact ⟨_, before, _, points, cuts.text_eq, cuts.start_eq, reaches.of_stripped⟩

end Source

def Suffices (text : String) (limit : Nat) : Prop :=
  ∀ f n, evaluate text limit = .error f → f.cause ≠ .tooDeeplyNested n

section Suffices

variable {text : String} {limit limit' : Nat}

theorem exists_of_not_suffices (h : ¬ Suffices text limit) :
    ∃ span, evaluate text limit = .error ⟨.tooDeeplyNested limit, some span⟩ := by
  unfold Suffices at h
  push Not at h
  obtain ⟨f, n, failed, deep⟩ := h
  obtain ⟨span, -, -, points, -⟩ := Source.evaluate_deep failed deep
  exact ⟨span, failed.trans (by rw [points])⟩

theorem Suffices.evaluate_eq (h : Suffices text limit) (le : limit ≤ limit') :
    evaluate text limit' = evaluate text limit := by
  cases (Source.ofText text).evaluate_deep_or_eq le with
  | inl deep =>
    obtain ⟨f, failed, span, points⟩ := deep
    exact absurd (by rw [points]) (h f limit failed)
  | inr same => exact same.symm

theorem Suffices.mono (h : Suffices text limit) (le : limit ≤ limit') : Suffices text limit' := by
  intro f n failed
  rw [h.evaluate_eq le] at failed
  exact h f n failed

theorem not_suffices_zero (some_char : stripped text.toList ≠ []) : ¬ Suffices text 0 := by
  have some_glyph := mt Source.glyphs_eq_nil_iff.mp some_char
  intro enough
  exact enough _ 0 (Source.evaluate_zero some_glyph) rfl

theorem suffices_count (text : String) : Suffices text (1 + text.toList.count '(') := by
  intro f n failed deep
  obtain ⟨span, before, after, -, parts, -, reaches⟩ := Source.evaluate_deep failed deep
  have balance := reaches.unclosed
  have total := congrArg (List.count '(') parts
  rw [List.count_append] at total
  unfold Unclosed at balance
  omega

end Suffices

/-- A text that is not blank needs some number of levels, at least one and at most one more than it
has opening brackets. Below that it is too deeply nested, and from there on the limit changes
nothing. The fault names the limit and points where, for the first time, as many brackets are open
as the limit allows levels. -/
theorem evaluate_nesting (text : String) :
    (stripped text.toList = [] → ∀ limit, evaluate text limit = .error ⟨.emptyExpression, none⟩) ∧
    (stripped text.toList ≠ [] → ∃ levels, 1 ≤ levels ∧ levels ≤ 1 + text.toList.count '(' ∧
      ∀ limit,
        (limit < levels →
          ∃ span, evaluate text limit = .error ⟨.tooDeeplyNested limit, some span⟩) ∧
        (levels ≤ limit → evaluate text limit = evaluate text levels ∧
          ∀ f n, evaluate text limit = .error f → f.cause ≠ .tooDeeplyNested n)) ∧
    ∀ limit f n, evaluate text limit = .error f → f.cause = .tooDeeplyNested n →
      n = limit ∧ ∃ span before after, f.span = some span ∧ text.toList = before ++ after ∧
        span.start = bytes before ∧ before.count '(' = before.count ')' + limit ∧
        ∀ p, p <+: before → p.count '(' ≤ p.count ')' + limit := by
  refine ⟨fun blank limit => ?_, fun some_char => ?_, fun limit f n failed deep => ?_⟩
  · exact Source.evaluate_nil (Source.glyphs_eq_nil_iff.mpr blank)
  · -- the number of levels is the least limit that suffices
    classical
    have enough : ∃ levels, Suffices text levels := ⟨_, suffices_count text⟩
    refine ⟨Nat.find enough, ?_, Nat.find_min' enough (suffices_count text), fun limit => ⟨?_, ?_⟩⟩
    · rw [Nat.one_le_iff_ne_zero]
      intro none_needed
      have found := Nat.find_spec enough
      rw [none_needed] at found
      exact not_suffices_zero some_char found
    · intro below
      exact exists_of_not_suffices (Nat.find_min enough below)
    · intro above
      have found := Nat.find_spec enough
      exact ⟨found.evaluate_eq above, found.mono above⟩
  · obtain ⟨span, before, after, points, parts, starts, reaches⟩ := Source.evaluate_deep failed deep
    rw [points] at deep ⊢
    obtain rfl : limit = n := by simpa using deep
    exact ⟨rfl, span, before, after, rfl, parts, starts, reaches.unclosed, reaches.bounded⟩

theorem evaluate_two_brackets : ∃ levels, levels ≤ 3 ∧ ∀ limit,
    (limit < levels →
      ∃ span, evaluate "( (1))" limit = .error ⟨.tooDeeplyNested limit, some span⟩) ∧
    (levels ≤ limit → evaluate "( (1))" limit = .ok 1) := by
  obtain ⟨levels, -, most, threshold⟩ := (evaluate_nesting "( (1))").2.1 (by decide +kernel)
  have most : levels ≤ 3 := most
  have value : evaluate "( (1))" 3 = .ok 1 := by decide +kernel
  refine ⟨levels, most, fun limit => ⟨(threshold limit).1, fun above => ?_⟩⟩
  rw [((threshold limit).2 above).1, ← ((threshold 3).2 most).1, value]

end Abacus
