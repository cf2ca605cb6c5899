import Mathlib
import Abacus.Request

/-!
Validation against resolution. What `validate` turns down, `resolve` turns down in the same words.
What it lets through has a task, and can only fail in its calculation, with one exception: a request
that names an operation, without two operands, but has an expression.
-/

namespace Abacus

/-- A calculation, or a fault of the calculation and nothing else. -/
def Answers (result : Except Rejection Calculation) : Prop :=
  (∃ c, result = .ok c) ∨ ∃ e f, result = .error e ∧ e.errors.map Prod.fst = ["calculation"] ∧
    e.fault = some f

theorem not_answers_ofComplaints (cs : List Complaint) :
    ¬ Answers (.error (.ofComplaints cs)) := by
  rintro (⟨c, impossible⟩ | ⟨e, f, rejected, -, fault⟩)
  · cases impossible
  · obtain rfl := Except.error.inj rejected
    cases fault

namespace Request

/-- An operation is named, and an operand is missing. -/
def LacksOperands (r : Request) : Prop :=
  (filled r.operator).isSome = true ∧ (r.operandA = none ∨ r.operandB = none)

variable {r : Request} {limit : Nat}

theorem validate_ok_iff : r.validate = .ok () ↔
    r.isTooLong = false ∧ r.hasUnknownOperator = false ∧ r.hasMode = true := by
  have complaints : r.complaints = [] ↔
      r.isTooLong = false ∧ r.hasUnknownOperator = false ∧ r.hasMode = true := by
    unfold Request.complaints
    cases r.isTooLong <;> cases r.hasUnknownOperator <;> cases r.hasMode <;> simp
  rw [← complaints, validate]
  by_cases nothing : r.complaints = []
  · simp [nothing]
  · simp [nothing]

theorem resolve_of_invalid {e : Rejection} (h : r.validate = .error e) :
    r.resolve limit = .error e := by
  rw [resolve, h]
  rfl

theorem resolve_of_valid (h : r.validate = .ok ()) :
    r.resolve limit = r.task >>= Task.run limit := by
  rw [resolve, h]
  rfl

theorem task_of_lacksOperands (h : r.LacksOperands) :
    r.task = .error (.ofComplaints [modeComplaint]) := by
  obtain ⟨named, missing⟩ := h
  obtain ⟨name, hname⟩ := Option.isSome_iff_exists.mp named
  unfold task
  rw [hname]
  obtain missing | missing := missing
  · rw [missing]
    cases filled r.expression <;> rfl
  · rw [missing]
    cases filled r.expression <;> cases r.operandA <;> rfl

theorem exists_task (h : r.validate = .ok ()) (complete : ¬ r.LacksOperands) :
    ∃ t, r.task = .ok t := by
  -- without a name the expression is there, with one the operands are and the name is known
  obtain ⟨-, known, mode⟩ := validate_ok_iff.mp h
  unfold task
  cases hname : filled r.operator with
  | none =>
    obtain ⟨text, htext⟩ : ∃ text, filled r.expression = some text := by
      simpa [hasMode, hname, Option.isSome_iff_exists] using mode
    rw [htext]
    exact ⟨_, rfl⟩
  | some name =>
    obtain ⟨op, hop⟩ : ∃ op, Operation.ofName? name = some op := by
      rw [hasUnknownOperator, hname, Option.any_some, Option.isNone_eq_false_iff] at known
      exact Option.isSome_iff_exists.mp known
    have operands : r.operandA ≠ none ∧ r.operandB ≠ none := by
      simpa [LacksOperands, hname] using complete
    obtain ⟨a, ha⟩ := Option.ne_none_iff_exists'.mp operands.1
    obtain ⟨b, hb⟩ := Option.ne_none_iff_exists'.mp operands.2
    rw [ha, hb]
    cases filled r.expression <;> exact ⟨.operation op a b, by simp [hop]⟩

theorem Task.answers_run (t : Task) : Answers (t.run limit) := by
  unfold Task.run
  cases t.result limit with
  | ok x => exact .inl ⟨_, rfl⟩
  | error f => exact .inr ⟨_, f, rfl, rfl, rfl⟩

/-- The two agree, but for requests that lack operands: of these, `validate` lets those through that
have an expression, and `resolve` turns all of them down. -/
theorem resolve_of_validate (r : Request) (limit : Nat) :
    (∀ e, r.validate = .error e → r.resolve limit = .error e) ∧
    (r.validate = .ok () → ((Answers (r.resolve limit) ↔ ¬ r.LacksOperands) ∧
      (r.LacksOperands → r.resolve limit = .error (.ofComplaints [modeComplaint])))) := by
  refine ⟨fun e h => resolve_of_invalid h, fun h => ?_⟩
  have lacking : r.LacksOperands → r.resolve limit = .error (.ofComplaints [modeComplaint]) := by
    intro lacks
    rw [resolve_of_valid h, task_of_lacksOperands lacks]
    rfl
  refine ⟨⟨fun answers lacks => ?_, fun complete => ?_⟩, lacking⟩
  · rw [lacking lacks] at answers
    exact not_answers_ofComplaints _ answers
  · obtain ⟨t, ht⟩ := exists_task h complete
    rw [resolve_of_valid h, ht]
    exact t.answers_run

theorem resolve_sum_and_nothing : Answers ((ofExpression "1+1").resolve 50) ∧
    Request.resolve ⟨none, none, none, none⟩ 50 = .error (.ofComplaints [modeComplaint]) := by
  have valid : (ofExpression "1+1").validate = .ok () := by decide +kernel
  have complete : ¬ (ofExpression "1+1").LacksOperands := by
    simp [LacksOperands, ofExpression, filled]
  have invalid : Request.validate ⟨none, none, none, none⟩ =
      .error (.ofComplaints [modeComplaint]) := rfl
  exact ⟨((resolve_of_validate _ 50).2 valid).1.mpr complete,
    (resolve_of_validate _ 50).1 _ invalid⟩

theorem validate_ok_without_operands :
    Request.validate ⟨some "1+1", none, none, some "subtract"⟩ = .ok () ∧
    Request.resolve ⟨some "1+1", none, none, some "subtract"⟩ 50 =
      .error (.ofComplaints [modeComplaint]) ∧
    ¬ Answers (Request.resolve ⟨some "1+1", none, none, some "subtract"⟩ 50) := by
  have valid : Request.validate ⟨some "1+1", none, none, some "subtract"⟩ = .ok () := by
    decide +kernel
  have lacks : LacksOperands ⟨some "1+1", none, none, some "subtract"⟩ :=
    ⟨by decide +kernel, .inl rfl⟩
  have rejected : Request.resolve ⟨some "1+1", none, none, some "subtract"⟩ 50 =
      .error (.ofComplaints [modeComplaint]) := by
    rw [resolve_of_valid valid, task_of_lacksOperands lacks]
    rfl
  exact ⟨valid, rejected, rejected ▸ not_answers_ofComplaints _⟩

end Request

end Abacus
