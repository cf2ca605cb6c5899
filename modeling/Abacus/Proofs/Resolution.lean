import Mathlib
import Abacus.Proofs.Request

/-!
Which calculation a request comes to. A misshapen request comes to none. Of the others, one that
names an operation runs it and never looks at its expression, and one that names none evaluates its
expression as it was typed; either way the outcome is reported as it is.
-/

namespace Abacus

open Text

def Holds (field : Option String) (text : String) : Prop :=
  field = some text ∧ ∃ c ∈ text.toList, isBlank c = false

theorem filled_eq_some_iff {field : Option String} {text : String} :
    filled field = some text ↔ Holds field text := by
  simp [filled, Holds, allBlank, Option.filter_eq_some_iff]

theorem filled_eq_none_iff {field : Option String} :
    filled field = none ↔ ∀ text, ¬ Holds field text := by
  simp only [Option.eq_none_iff_forall_ne_some, ne_eq, filled_eq_some_iff]

theorem isSome_filled_iff {field : Option String} :
    (filled field).isSome = true ↔ ∃ text, Holds field text := by
  simp only [Option.isSome_iff_exists, filled_eq_some_iff]

theorem Ledger.mem_fields_enter {c : Complaint} {ledger : Ledger} {field : String} :
    field ∈ (ledger.enter c).map Prod.fst ↔ c.field = field ∨ field ∈ ledger.map Prod.fst := by
  induction ledger with
  | nil => simp [enter, eq_comm]
  | cons entry rest ih =>
    unfold enter
    split_ifs with same earlier
    · simp [same, eq_comm]
    · simp [eq_comm]
    · simp only [List.map_cons, List.mem_cons, ih]
      tauto

theorem Ledger.mem_fields_ofComplaints {cs : List Complaint} {field : String} :
    field ∈ (ofComplaints cs).map Prod.fst ↔ ∃ c ∈ cs, c.field = field := by
  have general : ∀ ledger : Ledger,
      field ∈ (cs.foldl (fun ledger c => ledger.enter c) ledger).map Prod.fst ↔
        (∃ c ∈ cs, c.field = field) ∨ field ∈ ledger.map Prod.fst := by
    induction cs with
    | nil => simp
    | cons c cs ih =>
      intro ledger
      simp only [List.foldl_cons, ih, mem_fields_enter, List.exists_mem_cons_iff]
      rw [or_left_comm, or_assoc]
  simpa [ofComplaints] using general []

theorem Operation.isSome_ofName?_iff {name : String} :
    (ofName? name).isSome = true ↔ name ∈ ["add", "subtract", "multiply", "divide"] := by
  rw [ofName?, List.find?_isSome]
  simp [all, Operation.name, eq_comm (a := name)]

namespace Request

/-- Too long an expression, used or not; an unknown operation; or no complete way to calculate. -/
inductive Misshapen (r : Request) : Prop
  | tooLong {text : String} : r.expression = some text → 500 < text.length → Misshapen r
  | unknownName {name : String} : Holds r.operator name →
      name ∉ ["add", "subtract", "multiply", "divide"] → Misshapen r
  | incomplete :
      ¬ ((∃ text, Holds r.expression text) ∧ ∀ name, ¬ Holds r.operator name) →
      ¬ ((∃ name, Holds r.operator name) ∧ r.operandA.isSome = true ∧ r.operandB.isSome = true) →
      Misshapen r

/-- What a calculation came to is what the request comes to. -/
inductive Reports (answer : Float → Calculation) :
    Except Fault Float → Except Rejection Calculation → Prop
  | value {x} : Reports answer (.ok x) (.ok (answer x))
  | fault {f} : Reports answer (.error f)
      (.error ⟨f.cause.message, [("calculation", [f.cause.message])], some f⟩)

variable {r : Request} {limit : Nat}

theorem isTooLong_iff :
    r.isTooLong = true ↔ ∃ text, r.expression = some text ∧ 500 < text.length := by
  simp only [isTooLong, Option.any_eq_true, decide_eq_true_eq]
  rfl

theorem hasUnknownOperator_iff : r.hasUnknownOperator = true ↔
    ∃ name, Holds r.operator name ∧ name ∉ ["add", "subtract", "multiply", "divide"] := by
  simp only [hasUnknownOperator, Option.any_eq_true, filled_eq_some_iff, Option.isNone_iff_eq_none,
    ← Option.not_isSome_iff_eq_none, Operation.isSome_ofName?_iff]

theorem hasMode_iff : r.hasMode = true ↔ (∃ text, Holds r.expression text) ∨
    (∃ name, Holds r.operator name) ∧ r.operandA.isSome = true ∧ r.operandB.isSome = true := by
  simp only [hasMode, Bool.or_eq_true, Bool.and_eq_true, isSome_filled_iff]
  tauto

theorem lacksOperands_iff : r.LacksOperands ↔ (∃ name, Holds r.operator name) ∧
    ¬ (r.operandA.isSome = true ∧ r.operandB.isSome = true) := by
  rw [LacksOperands, isSome_filled_iff, ← Option.not_isSome_iff_eq_none,
    ← Option.not_isSome_iff_eq_none]
  tauto

theorem misshapen_iff : r.Misshapen ↔ r.validate ≠ .ok () ∨ r.LacksOperands := by
  rw [ne_eq, validate_ok_iff, ← Bool.not_eq_true, ← Bool.not_eq_true, isTooLong_iff,
    hasUnknownOperator_iff, hasMode_iff, lacksOperands_iff]
  constructor
  · intro misshapen
    cases misshapen with
    | tooLong there long => exact .inl fun valid => valid.1 ⟨_, there, long⟩
    | unknownName named unknown => exact .inl fun valid => valid.2.1 ⟨_, named, unknown⟩
    | incomplete noExpression noOperation =>
      push Not at noExpression
      tauto
  · intro wrong
    by_contra shaped
    refine wrong.elim (fun invalid => invalid ⟨?_, ?_, ?_⟩) fun lacks => ?_
    · exact fun ⟨_, there, long⟩ => shaped (.tooLong there long)
    · exact fun ⟨_, named, unknown⟩ => shaped (.unknownName named unknown)
    · by_contra noMode
      obtain ⟨noExpression, noOperation⟩ := not_or.mp noMode
      exact shaped (.incomplete (fun alone => noExpression alone.1) noOperation)
    · exact shaped (.incomplete (fun complete => lacks.1.elim complete.2) (by tauto))

theorem eq_of_mem_complaints {c : Complaint} (h : c ∈ r.complaints) :
    c = lengthComplaint ∨ c = operatorComplaint ∨ c = modeComplaint := by
  simp only [complaints, List.mem_append, List.mem_ite_nil_right, List.mem_ite_nil_left,
    List.mem_singleton] at h
  tauto

theorem field_of_mem_complaints {c : Complaint} (h : c ∈ r.complaints) :
    c.field ∈ ["expression", "operator", "mode"] := by
  obtain rfl | rfl | rfl := eq_of_mem_complaints h <;> decide

theorem resolve_of_misshapen (h : r.Misshapen) : ∃ e, r.resolve limit = .error e ∧
    "calculation" ∉ e.errors.map Prod.fst ∧ e.fault = none := by
  have fields : ∀ cs : List Complaint, (∀ c ∈ cs, c.field ∈ ["expression", "operator", "mode"]) →
      "calculation" ∉ (Rejection.ofComplaints cs).errors.map Prod.fst := by
    intro cs ofShape mentioned
    obtain ⟨c, hc, field⟩ := Ledger.mem_fields_ofComplaints.mp mentioned
    have := ofShape c hc
    rw [field] at this
    exact absurd this (by decide)
  by_cases valid : r.validate = .ok ()
  · have lacks := (misshapen_iff.mp h).resolve_left (not_not.mpr valid)
    refine ⟨.ofComplaints [modeComplaint], ?_, fields _ (by decide), rfl⟩
    rw [resolve_of_valid valid, task_of_lacksOperands lacks]
    rfl
  · have invalid : r.validate = .error (.ofComplaints r.complaints) := by
      unfold validate at valid ⊢
      split_ifs at valid ⊢ with nothing
      · exact absurd rfl valid
      · rfl
    exact ⟨_, resolve_of_invalid invalid, fields _ fun c => field_of_mem_complaints, rfl⟩

theorem reports_run (t : Task) : Reports t.calculation (t.result limit) (t.run limit) := by
  unfold Task.run
  cases t.result limit with
  | ok x => exact .value
  | error f => exact .fault

theorem task_of_expression {text : String} (there : Holds r.expression text)
    (unnamed : ∀ name, ¬ Holds r.operator name) : r.task = .ok (.expression text) := by
  rw [task, filled_eq_some_iff.mpr there, filled_eq_none_iff.mpr unnamed]

theorem task_of_operation {op : Operation} {a b : Float} (named : Holds r.operator op.name)
    (ha : r.operandA = some a) (hb : r.operandB = some b) : r.task = .ok (.operation op a b) := by
  rw [task, filled_eq_some_iff.mpr named, ha, hb]
  cases filled r.expression <;> simp [Operation.ofName?_name]

theorem resolve_of_shaped {t : Task} (shaped : ¬ r.Misshapen) (task : r.task = .ok t) :
    r.resolve limit = t.run limit := by
  have valid : r.validate = .ok () := by
    by_contra invalid
    exact shaped (misshapen_iff.mpr (.inl invalid))
  rw [resolve_of_valid valid, task]
  rfl

theorem exists_expression (shaped : ¬ r.Misshapen) (unnamed : ∀ name, ¬ Holds r.operator name) :
    ∃ text, Holds r.expression text := by
  by_contra nothing
  refine shaped (.incomplete (fun complete => nothing complete.1) ?_)
  exact fun complete => complete.1.elim unnamed

theorem not_misshapen_of_ok {c : Calculation} (h : r.resolve limit = .ok c) : ¬ r.Misshapen := by
  intro misshapen
  obtain ⟨e, refused, -⟩ : ∃ e, r.resolve limit = .error e ∧ _ := resolve_of_misshapen misshapen
  cases h.symm.trans refused

theorem not_misshapen_of_fault {e : Rejection} {f : Fault} (h : r.resolve limit = .error e)
    (fault : e.fault = some f) : ¬ r.Misshapen := by
  intro misshapen
  obtain ⟨e', refused, -, no_fault⟩ : ∃ e', r.resolve limit = .error e' ∧ _ :=
    resolve_of_misshapen misshapen
  obtain rfl := Except.error.inj (h.symm.trans refused)
  cases fault.symm.trans no_fault

theorem Task.eq_of_run_ok {t : Task} {c : Calculation} (h : t.run limit = .ok c) :
    t.result limit = .ok c.result ∧ c = t.calculation c.result := by
  unfold Task.run at h
  cases ended : t.result limit with
  | error f => simp [ended] at h
  | ok x =>
    rw [ended, Except.ok.injEq] at h
    rw [← h]
    cases t <;> exact ⟨rfl, rfl⟩

theorem Task.eq_of_run_error {t : Task} {e : Rejection} {f : Fault} (h : t.run limit = .error e)
    (fault : e.fault = some f) : t.result limit = .error f ∧ e = .ofFault f := by
  unfold Task.run at h
  cases ended : t.result limit with
  | ok x => simp [ended] at h
  | error f' =>
    rw [ended, Except.error.injEq] at h
    obtain rfl : f' = f := by simpa [← h, Rejection.ofFault] using fault
    exact ⟨rfl, h.symm⟩

theorem exists_operation {name : String} (shaped : ¬ r.Misshapen) (named : Holds r.operator name) :
    ∃ op a b, Operation.name op = name ∧ r.operandA = some a ∧ r.operandB = some b := by
  have known : (Operation.ofName? name).isSome = true := by
    rw [Operation.isSome_ofName?_iff]
    by_contra unknown
    exact shaped (.unknownName named unknown)
  have operands : r.operandA.isSome = true ∧ r.operandB.isSome = true := by
    by_contra missing
    refine shaped (.incomplete (fun complete => complete.2 name named) ?_)
    exact fun complete => missing complete.2
  obtain ⟨op, hop⟩ := Option.isSome_iff_exists.mp known
  obtain ⟨a, ha⟩ := Option.isSome_iff_exists.mp operands.1
  obtain ⟨b, hb⟩ := Option.isSome_iff_exists.mp operands.2
  exact ⟨op, a, b, Operation.name_of_ofName? hop, ha, hb⟩

theorem misshapen_of_expression {name : String} {expression : Option String}
    (shaped : ¬ r.Misshapen) (named : Holds r.operator name)
    (short : ∀ text, expression = some text → text.length ≤ 500) :
    ¬ Misshapen { r with expression } := by
  intro misshapen
  cases misshapen with
  | tooLong there long => exact absurd (short _ there) (Nat.not_le.mpr long)
  | unknownName named unknown => exact shaped (.unknownName named unknown)
  | incomplete _ noOperation =>
    exact shaped (.incomplete (fun complete => complete.2 name named) noOperation)

/-- A misshapen request is rejected for its shape. Any other runs one calculation and reports it:
the expression, untouched, if it names no operation, and else the operation alone. -/
theorem resolve_reports (r : Request) (limit : Nat) :
    (r.Misshapen → ∃ e, r.resolve limit = .error e ∧
      "calculation" ∉ e.errors.map Prod.fst ∧ e.fault = none) ∧
    (¬ r.Misshapen → (∀ name, ¬ Holds r.operator name) → ∃ text, Holds r.expression text ∧
      Reports (fun x => ⟨text, x, none, none, none⟩) (evaluate text limit) (r.resolve limit)) ∧
    ∀ name, ¬ r.Misshapen → Holds r.operator name → ∃ op a b, Operation.name op = name ∧
      r.operandA = some a ∧ r.operandB = some b ∧
      Reports (fun x => ⟨op.expressionText a b, x, some op, some a, some b⟩) (op.calculate a b)
        (r.resolve limit) ∧
      ∀ expression limit', (∀ text, expression = some text → text.length ≤ 500) →
        Request.resolve { r with expression } limit' = r.resolve limit := by
  refine ⟨resolve_of_misshapen, fun shaped unnamed => ?_, fun name shaped named => ?_⟩
  · have there : ∃ text, Holds r.expression text := by
      by_contra nothing
      refine shaped (.incomplete (fun complete => nothing complete.1) ?_)
      exact fun complete => complete.1.elim unnamed
    obtain ⟨text, there⟩ := there
    refine ⟨text, there, ?_⟩
    rw [resolve_of_shaped shaped (task_of_expression there unnamed)]
    exact reports_run (.expression text)
  · obtain ⟨op, a, b, rfl, ha, hb⟩ := exists_operation shaped named
    have resolved : r.resolve limit = (Task.operation op a b).run limit :=
      resolve_of_shaped shaped (task_of_operation named ha hb)
    refine ⟨op, a, b, rfl, ha, hb, ?_, fun expression limit' short => ?_⟩
    · rw [resolved]
      exact reports_run (.operation op a b)
    · have shaped' := misshapen_of_expression shaped named short
      rw [resolved, resolve_of_shaped shaped' (task_of_operation named ha hb)]
      rfl

/-- A sum with a blank in front beside a blank name; a quotient beside an expression that has no
value; and a name without operands. -/
theorem resolve_sum_quotient_and_misshapen :
    (∃ text, Holds (some " 1+1") text ∧ Reports (fun x => ⟨text, x, none, none, none⟩)
      (evaluate text 50) (Request.resolve ⟨some " 1+1", none, none, some " "⟩ 50)) ∧
    (∃ op a b, Operation.name op = "divide" ∧ some 1 = some a ∧ some 0 = some b ∧
      Reports (fun x => ⟨op.expressionText a b, x, some op, some a, some b⟩) (op.calculate a b)
        (Request.resolve ⟨some "(", some 1, some 0, some "divide"⟩ 50) ∧
      Request.resolve ⟨none, some 1, some 0, some "divide"⟩ 3 =
        Request.resolve ⟨some "(", some 1, some 0, some "divide"⟩ 50) ∧
    ∃ e, Request.resolve ⟨some "1+1", none, none, some "subtract"⟩ 50 = .error e ∧
      "calculation" ∉ e.errors.map Prod.fst ∧ e.fault = none := by
  have sum : ¬ Misshapen ⟨some " 1+1", none, none, some " "⟩ := by
    rw [misshapen_iff, LacksOperands]
    decide +kernel
  have unnamed : ∀ name, ¬ Holds (some " ") name := by
    rw [← filled_eq_none_iff]
    decide +kernel
  have quotient : ¬ Misshapen ⟨some "(", some 1, some 0, some "divide"⟩ := by
    rw [misshapen_iff, LacksOperands]
    decide +kernel
  have named : Holds (some "divide") "divide" := by
    rw [← filled_eq_some_iff]
    decide +kernel
  have lacks : Misshapen ⟨some "1+1", none, none, some "subtract"⟩ := by
    rw [misshapen_iff, LacksOperands]
    decide +kernel
  refine ⟨(resolve_reports _ 50).2.1 sum unnamed, ?_, (resolve_reports _ 50).1 lacks⟩
  obtain ⟨op, a, b, name, ha, hb, reports, same⟩ := (resolve_reports _ 50).2.2 _ quotient named
  exact ⟨op, a, b, name, ha, hb, reports, same none 3 (by simp)⟩

end Request

end Abacus
