import Mathlib
import Abacus.Proofs.Decimal.Sign
import Abacus.Proofs.Decimal.Written
import Abacus.Proofs.Expression.Gaps
import Abacus.Proofs.Resolution

/-!
The text of an operation means that operation. A finite operand is written as a numeral behind at
most one minus; the numeral reads back as the magnitude of the operand, and the minus as its sign.
Between two operands stands the operator, so the text has a derivation whose tree is the operation
on the two.
-/

namespace Abacus

open Text

namespace Expression

open Decimal (Spells signed positional magnitude isFinite isNegative gridValue)

theorem Numeral.isDigit_no_fraction :
    ∀ ds ∈ (none : Option (List Char)), ∀ c ∈ ds, c.isDigit = true := by
  simp

def Numeral.ofNat (n : Nat) : Numeral where
  whole := Decimal.decimalDigits n
  fraction := none
  whole_ne_nil := Decimal.decimalDigits_ne_nil n
  whole_isDigit := Decimal.isDigit_decimalDigits n
  fraction_isDigit := isDigit_no_fraction

def Numeral.ofParts (n places rest : Nat) : Numeral where
  whole := Decimal.decimalDigits n
  fraction := some (Decimal.padded places rest)
  whole_ne_nil := Decimal.decimalDigits_ne_nil n
  whole_isDigit := Decimal.isDigit_decimalDigits n
  fraction_isDigit ds hds := by
    rw [Option.mem_some_iff] at hds
    exact hds ▸ Decimal.isDigit_padded places rest

theorem Numeral.text_ofNat (n : Nat) : (Numeral.ofNat n).text = Decimal.decimalDigits n :=
  List.append_nil _

theorem Numeral.value_ofNat (n : Nat) : (Numeral.ofNat n).decimal.value = n := by
  have digits : (Numeral.ofNat n).decimal = ⟨n, 0⟩ := by
    simp [decimal, ofNat, Decimal.ofDigits, (Decimal.spells_decimalDigits n).value]
  rw [digits, Decimal.value, zpow_zero, mul_one]

theorem Numeral.decimal_ofParts {n places rest : Nat} (pos : 0 < places)
    (fits : rest < 10 ^ places) :
    (Numeral.ofParts n places rest).decimal = ⟨10 ^ places * n + rest, -places⟩ := by
  simp [decimal, ofParts, Decimal.ofDigits, Decimal.valueOfDigits_append,
    Decimal.length_padded pos fits, (Decimal.spells_decimalDigits n).value,
    (Decimal.spells_padded places rest).value]

theorem exists_numeral_positional (d : Decimal) :
    ∃ n : Numeral, n.text = positional d [] ∧ n.decimal.value = d.value := by
  by_cases whole : 0 ≤ d.exponent
  · refine ⟨.ofNat (d.digits * 10 ^ d.exponent.toNat), ?_, ?_⟩
    · rw [positional, if_pos whole, Numeral.text_ofNat, List.append_nil]
      rfl
    · rw [Numeral.value_ofNat, Decimal.value_eq_whole whole]
  · have pos : 0 < (-d.exponent).toNat := by omega
    have places : -((-d.exponent).toNat : Int) = d.exponent := by omega
    refine ⟨.ofParts (d.digits / 10 ^ (-d.exponent).toNat) (-d.exponent).toNat
      (d.digits % 10 ^ (-d.exponent).toNat), ?_, ?_⟩
    · rw [positional, if_neg whole]
      rfl
    · rw [Numeral.decimal_ofParts pos (Nat.mod_lt _ (by positivity)), Nat.div_add_mod, places]

theorem inRange_of_isFinite {x : Float} (finite : isFinite x = true) :
    magnitude x ≤ Decimal.infinityBits := by
  rw [isFinite, decide_eq_true_eq] at finite
  exact finite.le

theorem toList_plain {x : Float} (finite : isFinite x = true) :
    (Decimal.plain x).toList = Decimal.plainLayout.finite x := by
  rw [Decimal.plain, if_pos finite, String.toList_ofList]

theorem exists_numeral_plain {x : Float} (finite : isFinite x = true) :
    ∃ n : Numeral, (Decimal.plain x).toList = signed x n.text ∧
      n.decimal.toBits = magnitude x := by
  rw [toList_plain finite, Decimal.Layout.finite]
  by_cases zero : magnitude x = 0
  -- of zero there is no shortest decimal
  · rw [if_pos zero, zero]
    exact ⟨.ofNat 0, rfl, rfl⟩
  · obtain ⟨n, text, value⟩ := exists_numeral_positional (Decimal.shortest .upward (magnitude x))
    refine ⟨n, ?_, ?_⟩
    · rw [if_neg zero, text]
      rfl
    · rw [Decimal.toBits_congr value, Decimal.toBits_shortest .upward (inRange_of_isFinite finite)]

theorem exists_numeral_operandText {x : Float} (finite : isFinite x = true) :
    ∃ n : Numeral, (Operation.operandText x).toList = signed x n.text ∧
      n.decimal.toBits = magnitude x := by
  by_cases whole : Decimal.units (magnitude x) % Decimal.unitsInOne = 0
  · refine ⟨.ofNat (Decimal.units (magnitude x) / Decimal.unitsInOne), ?_, ?_⟩
    · simp [Operation.operandText, Decimal.wholeText?, finite, whole, Numeral.text_ofNat]
    · refine Decimal.toBits_of_value (inRange_of_isFinite finite) ?_
      rw [Numeral.value_ofNat, gridValue]
      exact Nat.cast_div_charZero (Nat.dvd_of_mod_eq_zero whole)
  · have shown : Operation.operandText x = Decimal.plain x := by
      simp [Operation.operandText, Decimal.wholeText?, finite, whole]
    rw [shown]
    exact exists_numeral_plain finite

theorem contiguous_strip {cs : List Char} (solid : ∀ c ∈ cs, isBlank c = false ∧ c.utf8Size = 1)
    (position offset : Nat) : Contiguous (Glyph.strip position offset cs) := by
  induction cs generalizing position offset with
  | nil => exact List.isChain_nil
  | cons c cs ih =>
    have head := solid c List.mem_cons_self
    have tail := ih (fun d hd => solid d (List.mem_cons_of_mem c hd))
      (position + c.utf8Size) (offset + c.utf8Size)
    rw [Glyph.strip_cons head.1]
    cases cs with
    | nil => exact List.isChain_singleton _
    | cons d cs =>
      have next := solid d (List.mem_cons_of_mem c List.mem_cons_self)
      rw [Glyph.strip_cons next.1] at tail ⊢
      refine List.isChain_cons_cons.mpr ⟨?_, tail⟩
      simp [Glyph.isFollowedBy, head.2]

theorem isNumeric_or_minus_of_mem {x : Float} {n : Numeral} {c : Char} (h : c ∈ signed x n.text) :
    Literal.isNumeric c = true ∨ c = '-' := by
  unfold signed at h
  split_ifs at h with negative
  · cases List.mem_cons.mp h with
    | inl minus => exact .inr minus
    | inr digit => exact .inl (Numeral.isNumeric_of_mem digit)
  · exact .inl (Numeral.isNumeric_of_mem h)

theorem solid_of_mem {x : Float} {n : Numeral} {c : Char} (h : c ∈ signed x n.text) :
    isBlank c = false ∧ c.utf8Size = 1 := by
  cases isNumeric_or_minus_of_mem h with
  | inl numeric => exact ⟨Literal.isBlank_of_isNumeric numeric, utf8Size_of_isNumeric numeric⟩
  | inr minus =>
    rw [minus]
    exact ⟨by decide, by decide⟩

theorem derives_signed {x : Float} {n : Numeral} {gs : List Glyph}
    (chars : gs.map Glyph.char = signed x n.text) (contiguous : Contiguous gs) (k : Nat) :
    Derives k .unary gs (.signs (if isNegative x = true then 1 else 0) (.literal n)) := by
  -- the minus of a negative operand is a sign, not part of the numeral
  unfold signed at chars
  split_ifs at chars ⊢ with negative
  · obtain ⟨g, rest, rfl, minus, digits⟩ := List.map_eq_cons_iff.mp chars
    have literal : Derives k .function rest (.literal n) := .number digits contiguous.tail
    have sign : ∀ h ∈ [g], h.char = '-' := by simp [minus]
    exact Derives.unary sign literal
  · have none_sign : ∀ h ∈ ([] : List Glyph), h.char = '-' := by simp
    exact Derives.unary none_sign (.number chars contiguous)

theorem value_signed {x : Float} {n : Numeral} (finite : isFinite x = true)
    (reads : n.decimal.toBits = magnitude x) :
    (Tree.signs (if isNegative x = true then 1 else 0) (.literal n)).value = some x := by
  have parts := Decimal.eq_signed finite
  rw [Tree.value, Tree.value, Option.map_some, Decimal.toFloat, reads, Option.some.injEq]
  by_cases negative : isNegative x = true
  · rw [if_pos negative] at parts ⊢
    exact parts.symm
  · rw [if_neg negative] at parts ⊢
    exact parts.symm

/-- Wherever it stands, a numeral that reads back as a finite double has a tree with that value. -/
theorem exists_tree_signed {x : Float} (finite : isFinite x = true) {cs : List Char}
    (written : ∃ n : Numeral, cs = signed x n.text ∧ n.decimal.toBits = magnitude x)
    (position offset : Nat) :
    ∃ t, t.value = some x ∧ ∀ k, Derives k .unary (Glyph.strip position offset cs) t := by
  obtain ⟨n, rfl, reads⟩ := written
  refine ⟨_, value_signed finite reads, derives_signed ?_ ?_⟩
  · rw [Glyph.strip_chars]
    exact List.filter_eq_self.mpr fun c hc => by simp [(solid_of_mem hc).1]
  · exact contiguous_strip (fun c => solid_of_mem) position offset

theorem toList_expressionText (op : Operation) (a b : Float) : (op.expressionText a b).toList =
    (Operation.operandText a).toList ++
      ' ' :: op.operator.symbol :: ' ' :: (Operation.operandText b).toList := by
  simp [Operation.expressionText]

/-- The operands and the operator between them, with all blanks dropped. -/
theorem exists_glyphs_expressionText (op : Operation) (a b : Float) :
    ∃ g position offset, g.char = op.operator.symbol ∧
      (Source.ofText (op.expressionText a b)).glyphs =
        Glyph.strip 0 0 (Operation.operandText a).toList ++
          g :: Glyph.strip position offset (Operation.operandText b).toList := by
  have space : isBlank ' ' = true := by decide
  have glyphs : (Source.ofText (op.expressionText a b)).glyphs =
      Glyph.strip 0 0 (op.expressionText a b).toList := rfl
  rw [glyphs, toList_expressionText, Glyph.strip_append, Glyph.strip_blank space,
    Glyph.strip_cons (isBlank_symbol _), Glyph.strip_blank space]
  exact ⟨_, _, _, rfl, rfl⟩

theorem exists_tree_expressionText {a b : Float} (ha : isFinite a = true) (hb : isFinite b = true)
    (op : Operation) : ∃ t u, t.value = some a ∧ u.value = some b ∧ ∀ k, Derives (k + 1) .expression
      (Source.ofText (op.expressionText a b)).glyphs (.binary op.operator t u) := by
  obtain ⟨g, position, offset, char, glyphs⟩ := exists_glyphs_expressionText op a b
  obtain ⟨t, left, ht⟩ := exists_tree_signed ha (exists_numeral_operandText ha) 0 0
  obtain ⟨u, right, hu⟩ := exists_tree_signed hb (exists_numeral_operandText hb) position offset
  refine ⟨t, u, left, right, fun k => ?_⟩
  rw [glyphs]
  have first : Derives k .power _ t := .base (ht k)
  have second : Derives k .power _ u := .base (hu k)
  by_cases additive : op.operator.isAdditive = true
  · have sum := Derives.expression (.term first .factorsEnd)
      (.summandsMore char additive (.term second .factorsEnd) .summandsEnd)
    simpa using sum
  · have multiplicative : op.operator.isMultiplicative = true := by
      cases op <;> simp_all [Operation.operator, Operator.isAdditive, Operator.isMultiplicative]
    have product := Derives.expression
      (.term first (.factorsMore char multiplicative second .factorsEnd)) .summandsEnd
    simpa using product

theorem not_mem_operandText {x : Float} (finite : isFinite x = true) :
    's' ∉ (Operation.operandText x).toList := by
  obtain ⟨n, text, -⟩ := exists_numeral_operandText finite
  rw [text]
  intro member
  cases isNumeric_or_minus_of_mem member with
  | inl numeric => exact absurd numeric (by decide)
  | inr minus => exact absurd minus (by decide)

theorem cause_ne_negativeSquareRoot {a b : Float} (ha : isFinite a = true)
    (hb : isFinite b = true) {op : Operation} {limit : Nat} {f : Fault}
    (points : Points (Source.ofText (op.expressionText a b)) limit f) :
    f.cause ≠ .negativeSquareRoot := by
  -- no root is written, so none fails
  have absent : 's' ∉ (op.expressionText a b).toList := by
    rw [toList_expressionText]
    have operator : 's' ≠ op.operator.symbol := by cases op <;> decide
    simp [not_mem_operandText ha, not_mem_operandText hb, operator]
  intro root
  cases points with
  | @negativeSquareRoot before call inner close after place word =>
    refine absent (List.mem_of_mem_filter (p := fun c => !isBlank c) ?_)
    rw [← Source.chars_ofChars, Source.chars]
    have letter : 's' ∈ call.map Glyph.char := by simp [word, rootWord_eq]
    have glyphs := congrArg (List.map Glyph.char) place
    rw [Source.ofText] at glyphs
    rw [glyphs]
    simp only [List.map_append, List.mem_append]
    exact .inr (.inl letter)
  | _ => cases root

end Expression

namespace Request

variable {text : String} {limit : Nat}

theorem resolve_ofExpression (there : ∃ c ∈ text.toList, isBlank c = false)
    (short : text.length ≤ 500) : (ofExpression text).resolve limit =
      (Task.expression text).run limit := by
  have unnamed : ∀ name, ¬ Holds (ofExpression text).operator name := fun name => by
    simp [Holds, ofExpression]
  refine resolve_of_shaped (fun misshapen => ?_) (task_of_expression ⟨rfl, there⟩ unnamed)
  cases misshapen with
  | tooLong same long =>
    obtain rfl := Option.some.inj same
    exact absurd short (Nat.not_le.mpr long)
  | unknownName named _ => exact unnamed _ named
  | incomplete noExpression _ => exact noExpression ⟨⟨text, rfl, there⟩, unnamed⟩

theorem resolve_ofExpression_of_long (there : ∃ c ∈ text.toList, isBlank c = false)
    (long : 500 < text.length) : (ofExpression text).resolve limit =
      .error (.ofComplaints [lengthComplaint]) := by
  have tooLong : (ofExpression text).isTooLong = true := isTooLong_iff.mpr ⟨text, rfl, long⟩
  have mode : (ofExpression text).hasMode = true := hasMode_iff.mpr (.inl ⟨text, rfl, there⟩)
  have known : (ofExpression text).hasUnknownOperator = false := rfl
  refine resolve_of_invalid ?_
  rw [validate, complaints, tooLong, mode, known]
  rfl

theorem eq_of_resolve_ofExpression {c : Calculation}
    (h : (ofExpression text).resolve limit = .ok c) :
    evaluate text limit = .ok c.result ∧ c = ⟨text, c.result, none, none, none⟩ := by
  have unnamed : ∀ name, ¬ Holds (ofExpression text).operator name := fun name => by
    simp [Holds, ofExpression]
  have shaped := not_misshapen_of_ok h
  obtain ⟨source, there⟩ := exists_expression shaped unnamed
  obtain rfl := Option.some.inj there.1
  rw [resolve_of_shaped shaped (task_of_expression there unnamed)] at h
  exact Task.eq_of_run_ok h

theorem holds_name (op : Operation) : Holds (some op.name) op.name := by
  rw [← filled_eq_some_iff]
  cases op <;> decide

theorem resolve_ofOperation (op : Operation) (a b : Float) :
    (ofOperation op a b).resolve limit = (Task.operation op a b).run limit := by
  have named := holds_name op
  refine resolve_of_shaped (fun misshapen => ?_) (task_of_operation named rfl rfl)
  cases misshapen with
  | tooLong there _ => cases there
  | unknownName named' unknown =>
    obtain rfl := Option.some.inj named'.1
    exact unknown (by cases op <;> decide)
  | incomplete _ noOperation => exact noOperation ⟨⟨op.name, named⟩, rfl, rfl⟩

theorem eq_of_resolve_ofOperation {op : Operation} {a b : Float} {c : Calculation}
    (h : (ofOperation op a b).resolve limit = .ok c) :
    c.expression = op.expressionText a b ∧ op.calculate a b = .ok c.result := by
  rw [resolve_ofOperation] at h
  obtain ⟨calculated, eq⟩ := Task.eq_of_run_ok h
  exact ⟨congrArg Calculation.expression eq, calculated⟩

end Request

namespace Operation

variable {a b : Float} {limit : Nat}

theorem calculate_cases (op : Operation) (a b : Float) :
    (∃ x, op.calculate a b = .ok x) ∨ ∃ f, op.calculate a b = .error f ∧ f.cause = .divisionByZero := by
  cases calculated : op.calculate a b with
  | ok x => exact .inl ⟨x, rfl⟩
  | error f =>
    refine .inr ⟨f, rfl, ?_⟩
    rw [(Expression.apply_error calculated).1]

theorem evaluate_of_calculate (ha : Decimal.isFinite a = true) (hb : Decimal.isFinite b = true)
    (op : Operation) (some_level : 1 ≤ limit) :
    (∀ x, op.calculate a b = .ok x → evaluate (op.expressionText a b) limit = .ok x) ∧
    ∀ f, op.calculate a b = .error f →
      ∃ f', evaluate (op.expressionText a b) limit = .error f' ∧ f'.cause = .divisionByZero := by
  obtain ⟨t, u, left, right, derived⟩ := Expression.exists_tree_expressionText ha hb op
  obtain ⟨k, rfl⟩ : ∃ k, limit = k + 1 := ⟨limit - 1, by omega⟩
  have value : (Expression.Tree.binary op.operator t u).value = (op.calculate a b).toOption :=
    Expression.value_binary left right none
  constructor
  · intro x calculated
    refine Source.evaluate_ok_iff.mpr ⟨_, derived k, ?_⟩
    rw [value, calculated]
    rfl
  · intro f calculated
    have undefined : (Expression.Tree.binary op.operator t u).value = none := by
      rw [value, calculated]
      rfl
    have some_glyph := (derived k).nonempty
    cases Source.evaluate_of_derives (derived k) with
    | inl evaluated =>
      obtain ⟨v, -, defined⟩ := evaluated
      simp [undefined] at defined
    | inr failed =>
      obtain ⟨f', failed, -, arithmetic⟩ := failed
      have points := Source.evaluate_error some_glyph (Expression.sound_whole _ (k + 1)) failed
      exact ⟨f', failed,
        arithmetic.resolve_right (Expression.cause_ne_negativeSquareRoot ha hb points)⟩

end Operation

theorem nonblank_expressionText (op : Operation) (a b : Float) :
    ∃ c ∈ (op.expressionText a b).toList, isBlank c = false :=
  ⟨op.operator.symbol, by simp [Expression.toList_expressionText], Expression.isBlank_symbol _⟩

/-- The text of an operation on finite operands has the result of the operation as its value, and
divides by zero if the operation does. So a request that repeats the text of a calculation repeats
the calculation, unless the text is too long for a request. -/
theorem evaluate_expressionText (op : Operation) {a b : Float} {limit : Nat}
    (ha : Decimal.isFinite a = true) (hb : Decimal.isFinite b = true) (some_level : 1 ≤ limit) :
    (∀ x, op.calculate a b = .ok x ↔ evaluate (op.expressionText a b) limit = .ok x) ∧
    ((∃ f, op.calculate a b = .error f ∧ f.cause = .divisionByZero) ↔
      ∃ f, evaluate (op.expressionText a b) limit = .error f ∧ f.cause = .divisionByZero) ∧
    ∀ limit' c, (Request.ofOperation op a b).resolve limit' = .ok c →
      (c.expression.length ≤ 500 → ∃ c', (Request.ofExpression c.expression).resolve limit = .ok c' ∧
        c'.result = c.result) ∧
      (500 < c.expression.length → ∃ e, (Request.ofExpression c.expression).resolve limit = .error e ∧
        e.errors.map Prod.fst = ["expression"]) := by
  obtain ⟨same, fails⟩ := op.evaluate_of_calculate ha hb some_level
  refine ⟨fun x => ⟨same x, fun evaluated => ?_⟩, ⟨fun divided => ?_, fun divided => ?_⟩,
    fun limit' c resolved => ?_⟩
  · cases op.calculate_cases a b with
    | inl value =>
      obtain ⟨y, calculated⟩ := value
      rw [same y calculated] at evaluated
      rw [calculated, evaluated]
    | inr failure =>
      obtain ⟨f, calculated, -⟩ := failure
      obtain ⟨f', failed, -⟩ := fails f calculated
      cases failed.symm.trans evaluated
  · obtain ⟨f, calculated, -⟩ := divided
    exact fails f calculated
  · obtain ⟨f, failed, -⟩ := divided
    refine (op.calculate_cases a b).resolve_left fun value => ?_
    obtain ⟨x, calculated⟩ := value
    cases failed.symm.trans (same x calculated)
  · obtain ⟨text, calculated⟩ := Request.eq_of_resolve_ofOperation resolved
    have there := nonblank_expressionText op a b
    rw [← text] at same there
    constructor
    · intro short
      refine ⟨⟨c.expression, c.result, none, none, none⟩, ?_, rfl⟩
      rw [Request.resolve_ofExpression there short, Request.Task.run, Request.Task.result,
        same _ calculated]
      rfl
    · intro long
      exact ⟨_, Request.resolve_ofExpression_of_long there long, rfl⟩

theorem evaluate_two_minuses_and_quotient :
    evaluate "-4 - -0.25" 1 = .ok (-3.75) ∧
    ∃ f, evaluate "1 / -0" 1 = .error f ∧ f.cause = .divisionByZero := by
  constructor
  · have text : Operation.expressionText .subtract (-4) (-0.25) = "-4 - -0.25" := by decide +kernel
    have meant := evaluate_expressionText .subtract (a := -4) (b := -0.25) (by decide +kernel)
      (by decide +kernel) le_rfl
    rw [← text]
    exact (meant.1 _).mp (by decide +kernel)
  · have text : Operation.expressionText .divide 1 (-0) = "1 / -0" := by decide +kernel
    have meant := evaluate_expressionText .divide (a := 1) (b := -0) (by decide +kernel)
      (by decide +kernel) le_rfl
    rw [← text]
    refine meant.2.1.mp ⟨⟨.divisionByZero, none⟩, ?_, rfl⟩
    decide +kernel

end Abacus
