import Mathlib
import Abacus.CommandLine
import Abacus.Proofs.Operation

/-!
What the command writes of a fault. A fault of an operation is listed with its field, and says
nothing of an expression beside it. A fault of an expression is drawn under its text, with one
exception: where an operation is named by a blank, the expression is evaluated, but its fault is
listed as if it were that of an operation.
-/

namespace Abacus

namespace Request

variable {r : Request} {limit : Nat} {e : Rejection} {f : Fault} {text name : String}

theorem source_eq_none (h : r.operator ≠ none) : r.source = none := by
  rw [source, if_neg (by simpa using h)]

theorem source_of_unnamed (h : r.operator = none) : r.source = r.expression := by
  rw [source, h]
  rfl

theorem evaluate_of_fault (h : r.resolve limit = .error e) (fault : e.fault = some f)
    (unnamed : ∀ name, ¬ Holds r.operator name) : ∃ text, Holds r.expression text ∧
      evaluate text limit = .error f ∧ e = .ofFault f := by
  have shaped := not_misshapen_of_fault h fault
  obtain ⟨text, there⟩ := exists_expression shaped unnamed
  rw [resolve_of_shaped shaped (task_of_expression there unnamed)] at h
  exact ⟨text, there, Task.eq_of_run_error h fault⟩

theorem resolve_of_evaluate_error (valid : r.validate = .ok ())
    (task : r.task = .ok (.expression text)) (failed : evaluate text limit = .error f) :
    r.resolve limit = .error (.ofFault f) := by
  rw [resolve_of_valid valid, task]
  change Task.run limit (.expression text) = _
  rw [Task.run, Task.result, failed]

theorem calculate_of_fault (h : r.resolve limit = .error e) (fault : e.fault = some f)
    (named : Holds r.operator name) : ∃ op a b, Operation.name op = name ∧
      r.operandA = some a ∧ r.operandB = some b ∧ op.calculate a b = .error f ∧ e = .ofFault f ∧
      f = ⟨.divisionByZero, none⟩ := by
  -- with a name it is that of the operation: a division by zero, which points nowhere
  have shaped := not_misshapen_of_fault h fault
  obtain ⟨op, a, b, rfl, ha, hb⟩ := exists_operation shaped named
  rw [resolve_of_shaped shaped (task_of_operation named ha hb)] at h
  obtain ⟨calculated, eq⟩ := Task.eq_of_run_error h fault
  exact ⟨op, a, b, rfl, ha, hb, calculated, eq, (Expression.apply_error calculated).1⟩

end Request

namespace CommandLine

variable {r : Request} {limit : Nat} {e : Rejection} {f : Fault}

theorem answerIn_of_error (h : r.resolve limit = .error e) (inColor : Bool) :
    answerIn inColor limit false r = ⟨"", Report.ofRejection r.source inColor e, false⟩ := by
  unfold answerIn
  rw [h]

theorem answerIn_of_named (h : r.resolve limit = .error e) (named : r.operator ≠ none)
    (inColor : Bool) :
    answerIn inColor limit false r = ⟨"", Report.ofLedger e.errors, false⟩ := by
  rw [answerIn_of_error h, Request.source_eq_none named]
  rfl

/-- A fault of the expression is drawn under it if no operation is named at all, and listed if one
is named by a blank; a fault of an operation is always listed, and the list is the same whatever the
expression is. -/
theorem answerIn_of_fault (h : r.resolve limit = .error e) (fault : e.fault = some f)
    (inColor : Bool) :
    ((∀ name, ¬ Holds r.operator name) → ∃ text, Holds r.expression text ∧
      evaluate text limit = .error f ∧
      (r.operator = none → answerIn inColor limit false r =
        ⟨"", Report.ofFault text inColor f, false⟩) ∧
      (r.operator ≠ none → answerIn inColor limit false r =
        ⟨"", Report.ofLedger e.errors, false⟩)) ∧
    ∀ name, Holds r.operator name → ∃ op a b, Operation.name op = name ∧
      r.operandA = some a ∧ r.operandB = some b ∧ op.calculate a b = .error f ∧
      answerIn inColor limit false r = ⟨"", Report.ofLedger e.errors, false⟩ ∧
      Report.ofLedger e.errors = "Error: Division by zero. (calculation)\n" := by
  constructor
  · intro unnamed
    obtain ⟨text, there, evaluated, rfl⟩ := Request.evaluate_of_fault h fault unnamed
    refine ⟨text, there, evaluated, fun absent => ?_, fun blank => answerIn_of_named h blank inColor⟩
    rw [answerIn_of_error h, Request.source_of_unnamed absent, there.1]
    rfl
  · intro name named
    obtain ⟨op, a, b, same, ha, hb, calculated, rfl, rfl⟩ :=
      Request.calculate_of_fault h fault named
    have some_name : r.operator ≠ none := by simp [named.1]
    exact ⟨op, a, b, same, ha, hb, calculated, answerIn_of_named h some_name inColor, by decide⟩

/-- The same quotient as an expression, in colour, and as an operation beside an expression. -/
theorem answerIn_two_quotients :
    answerIn true 50 false ⟨some "1/0", none, none, none⟩ =
      ⟨"", Report.ofFault "1/0" true ⟨.divisionByZero, some ⟨1, 2⟩⟩, false⟩ ∧
    answerIn true 50 false ⟨some "2+2", some 1, some 0, some "divide"⟩ =
      ⟨"", "Error: Division by zero. (calculation)\n", false⟩ := by
  have failed : evaluate "1/0" 50 = .error ⟨.divisionByZero, some ⟨1, 2⟩⟩ := by decide +kernel
  have valid : Request.validate ⟨some "1/0", none, none, none⟩ = .ok () := by decide +kernel
  have unnamed : ∀ name, ¬ Holds none name := by simp [Holds]
  have named : Holds (some "divide") "divide" := by
    rw [← filled_eq_some_iff]
    decide +kernel
  have one := Request.resolve_of_evaluate_error valid rfl failed
  have other : Request.resolve ⟨some "2+2", some 1, some 0, some "divide"⟩ 50 =
      .error (.ofFault ⟨.divisionByZero, none⟩) := rfl
  obtain ⟨text, there, -, drawn, -⟩ := (answerIn_of_fault one rfl true).1 unnamed
  obtain ⟨op, a, b, -, -, -, -, listed, same⟩ := (answerIn_of_fault other rfl true).2 _ named
  obtain rfl := Option.some.inj there.1
  exact ⟨drawn rfl, same ▸ listed⟩

theorem answerIn_of_blank_name :
    Request.resolve ⟨some "1+x", none, none, some " "⟩ 50 =
      .error (.ofFault ⟨.expectedNumber (some 'x') 2, some ⟨2, 3⟩⟩) ∧
    (∀ name, ¬ Holds (some " ") name) ∧
    evaluate "1+x" 50 = .error ⟨.expectedNumber (some 'x') 2, some ⟨2, 3⟩⟩ ∧
    answerIn false 50 false ⟨some "1+x", none, none, some " "⟩ =
      ⟨"", "Error: Expected number at position 2, got 'x'. (calculation)\n", false⟩ ∧
    (answerIn false 50 false ⟨some "1+x", none, none, some " "⟩).errors ≠
      Report.ofFault "1+x" false ⟨.expectedNumber (some 'x') 2, some ⟨2, 3⟩⟩ := by
  have failed : evaluate "1+x" 50 = .error ⟨.expectedNumber (some 'x') 2, some ⟨2, 3⟩⟩ := by
    decide +kernel
  have valid : Request.validate ⟨some "1+x", none, none, some " "⟩ = .ok () := by decide +kernel
  have unnamed : ∀ name, ¬ Holds (some " ") name := by
    rw [← filled_eq_none_iff]
    decide +kernel
  have rejected := Request.resolve_of_evaluate_error valid rfl failed
  have listed : answerIn false 50 false ⟨some "1+x", none, none, some " "⟩ =
      ⟨"", "Error: Expected number at position 2, got 'x'. (calculation)\n", false⟩ :=
    (answerIn_of_named rejected (by simp) false).trans (by decide +kernel)
  refine ⟨rejected, unnamed, failed, listed, ?_⟩
  rw [listed]
  decide +kernel

end CommandLine

end Abacus
