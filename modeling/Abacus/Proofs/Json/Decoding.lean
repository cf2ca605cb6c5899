import Mathlib
import Abacus.Proofs.Json.Output
import Abacus.Proofs.Json.Records

/-!
The codecs of the three forms obey them, whichever doubles the numbers become. What a codec reads is
what its fields read, each of which is one of the readers of single values; what it writes is an
object of what its parts are written as.
-/

namespace Abacus

open Json Scan Reader

variable {convert : Conversion}

theorem Json.gives_number : Gives (fun x => Decimal.isFinite x = true) (Reader.number convert) := by
  refine .seq fun _ => .ite (fun _ => .seq fun n => ?_) fun _ => gives_otherType
  cases read : convert.toFloat? n with
  | none => exact .fail _
  | some x => exact .pure (convert.isFinite_of_toFloat? n x read)

namespace Operation

variable {rest before : List Char}

theorem comesTo_named (blank : IsBlank before) (l : Literal) (rest : List Char) :
    ComesTo named (before ++ (l.text ++ rest)) (ofLiteral l) rest := by
  have solid : ∀ c ∈ (l.text ++ rest).head?, isBlank c = false := by
    rintro c ⟨rfl⟩
    decide
  rw [named, ofLiteral, Literal.content_bind]
  refine ComesTo.congr (run_bind_of_ok (run_blanks_append blank solid)) ?_
  refine (comesTo_characters l rest).bind fun name _ => ?_
  cases ofName? (String.ofList name) with
  | none => exact .of_error rfl
  | some op => exact rfl

def valued (convert : Conversion) (op : Operation) : Reader Operation := do
  colon
  thenBlanks (Reader.null convert)
  symbol '\x7d'
  return op

theorem run_reader_object (s : List Char) : (reader convert).run ('\x7b' :: s) =
    (named >>= valued convert).run s := by
  have same (op : Operation) : valued convert op = (do
      colon
      Reader.null convert
      Reader.blanks
      symbol '\x7d'
      return op) := by
    simp only [valued, thenBlanks, bind_assoc, pure_bind]
  rw [reader, run_ahead_bind rfl, funext same]
  rfl

theorem comesTo_valued {blanks cs last : List Char} {d : Datum} {more : List Member}
    (blank : IsBlank blanks) (item : Writes (.item d) cs) (op : Operation)
    (continues : Continues last) (closing : ComesTo (do symbol '\x7d'; return op) last
      (if more.isEmpty then .ok op else .error .malformed) rest) :
    ComesTo (valued convert op) (blanks ++ ':' :: (cs ++ last)) (do
      d.nothing convert
      if more.isEmpty then return op else .error .malformed) rest := by
  refine ComesTo.congr (run_bind_of_ok (run_colon blank (cs ++ last))) ?_
  have null : Settles (Reader.null convert) d (d.nothing convert) := settles_nothing d
  exact (null.item (ignoresBlanks_ahead.bind _) item continues).bind fun _ _ => closing

theorem settles_reader_object (ms : List Member) :
    Settles (Operation.reader convert) (.object ms) (Operation.ofDatum convert (.object ms)) := by
  intro cs written rest _
  cases written with
  | @emptyObject blanks blank =>
    have solid : ∀ c ∈ ('\x7d' :: rest).head?, isBlank c = false := by
      rintro c ⟨rfl⟩
      decide
    have ended : named.run (blanks ++ '\x7d' :: rest) = (.error .malformed, '\x7d' :: rest) := by
      rw [named, run_bind_of_ok (run_blanks_append blank solid)]
      rfl
    rw [List.cons_append, List.append_assoc, List.singleton_append]
    exact .of_error ((run_reader_object _).trans (run_bind_of_error ended))
  | object members =>
    rw [List.cons_append, List.append_assoc, List.singleton_append]
    refine ComesTo.congr (run_reader_object _) ?_
    cases members with
    | lastMember first =>
      cases first with
      | member blank blank' item =>
        simp only [List.append_assoc, List.cons_append]
        refine (comesTo_named blank _ _).bind fun op _ => ?_
        exact comesTo_valued blank' item op (continues_end rest)
          (run_bind_of_ok (run_symbol _ _))
    | nextMember first others =>
      cases first with
      | member blank blank' item =>
        simp only [List.append_assoc, List.cons_append]
        refine (comesTo_named blank _ _).bind fun op _ => ?_
        refine comesTo_valued blank' item op (continues_comma _) ?_
        cases others
        all_goals exact .of_error (run_bind_of_error (run_symbol_error (by decide) _))

theorem settles_reader (d : Datum) :
    Settles (Operation.reader convert) d (Operation.ofDatum convert d) := by
  have other (no_string : ∀ l, d ≠ .string l) (no_object : ∀ ms, d ≠ .object ms) :
      Settles (Operation.reader convert) d (.error .malformed) := by
    refine (Settles.fail .malformed).of_begins fun c s begins => ?_
    rw [reader, run_ahead_bind begins.solid.1]
    split
    case h_1 same => cases same
    case h_2 same =>
      obtain rfl := Option.some.inj same
      obtain ⟨l, rfl⟩ := begins.of_quote
      exact absurd rfl (no_string l)
    case h_3 same =>
      obtain rfl := Option.some.inj same
      obtain ⟨ms, rfl⟩ := begins.of_brace
      exact absurd rfl (no_object ms)
    case h_4 => rfl
  cases d with
  | string l =>
    refine settles_literal fun rest => ?_
    exact (comesTo_named isBlank_nil l rest).congr (run_ahead_bind rfl)
  | object ms => exact settles_reader_object ms
  | _ => exact other (by simp) (by simp)

theorem ignoresBlanks_reader : IgnoresBlanks (Operation.reader convert) :=
  ignoresBlanks_ahead.bind _

theorem codec_obeys (convert : Conversion) : (codec convert).Obeys (form convert) where
  decodes d text written := read_of_settles (settles_reader d) ignoresBlanks_reader written
  finite _ _ _ := trivial
  encodes op := by
    obtain ⟨d, prints, is⟩ := exists_prints_string op.name
    exact ⟨d, is, prints.isText⟩

end Operation

namespace Request

theorem follow_fields : List.Forall₂ Follows (fields convert) (slots convert) :=
  .cons ⟨rfl, fun d => (settles_optional settles_text d).map _, (ignoresBlanks_nullable _).bind _⟩
    (.cons ⟨rfl, fun d => (settles_optional settles_number d).map _,
        (ignoresBlanks_nullable _).bind _⟩
      (.cons ⟨rfl, fun d => (settles_optional settles_number d).map _,
          (ignoresBlanks_nullable _).bind _⟩
        (.cons ⟨rfl, fun d => (settles_optional settles_text d).map _,
          (ignoresBlanks_nullable _).bind _⟩ .nil)))

theorem gives_fields : ∀ field ∈ fields convert,
    Gives (fun update => ∀ r, Finite r → Finite (update r)) field.update := by
  simp only [fields, List.forall_mem_cons]
  refine ⟨?expression, ?operandA, ?operandB, ?operator, by simp⟩
  case expression => exact (Gives.any _).map fun _ _ r h => ⟨h.operandA, h.operandB⟩
  case operandA => exact (gives_nullable gives_number).map fun _ hx r h => ⟨hx, h.operandB⟩
  case operandB => exact (gives_nullable gives_number).map fun _ hx r h => ⟨h.operandA, hx⟩
  case operator => exact (Gives.any _).map fun _ _ r h => ⟨h.operandA, h.operandB⟩

theorem oneLine_toJson (r : Request) : OneLine r.IsDatum r.toJson :=
  oneLine_object
    (.cons ⟨rfl, oneLine_nullable oneLine_string r.expression⟩
      (.cons ⟨rfl, oneLine_nullable oneLine_number r.operandA⟩
        (.cons ⟨rfl, oneLine_nullable oneLine_number r.operandB⟩
          (.cons ⟨rfl, oneLine_nullable oneLine_string r.operator⟩ .nil))))

theorem codec_obeys (convert : Conversion) : (codec convert).Obeys (form convert) where
  decodes d text written :=
    read_of_settles (settles_record follow_fields empty d) (ignoresBlanks_record _ _) written
  finite text r h :=
    Gives.of_read (gives_record ⟨by simp [empty], by simp [empty]⟩ gives_fields) h
  encodes r := by
    obtain ⟨d, prints, is⟩ := r.oneLine_toJson.prints
    exact ⟨d, is, prints.isText⟩

end Request

namespace Calculation

theorem follow_fields : List.Forall₂ Follows (fields convert) (slots convert) :=
  .cons ⟨rfl, fun d => (settles_text d).map _, (ignoresBlanks_ahead.bind _).bind _⟩
    (.cons ⟨rfl, fun d => (settles_number d).map _, (ignoresBlanks_ahead.bind _).bind _⟩
      (.cons ⟨rfl, fun d => (settles_optional Operation.settles_reader d).map _,
          (ignoresBlanks_nullable _).bind _⟩
        (.cons ⟨rfl, fun d => (settles_optional settles_number d).map _,
            (ignoresBlanks_nullable _).bind _⟩
          (.cons ⟨rfl, fun d => (settles_optional settles_number d).map _,
            (ignoresBlanks_nullable _).bind _⟩ .nil))))

theorem settles_reader (d : Datum) : Settles (reader convert) d (ofDatum convert d) := by
  intro cs written rest closes
  have record : Settles (record convert (fields convert) Unfinished.empty) d
      (d.record convert (slots convert) Unfinished.empty) := settles_record follow_fields _ d
  obtain ⟨c, s, rfl, begins⟩ := begins_of_writes written
  have isList : (some c == some '[') = isList d := by
    cases begins with
    | number begins =>
      refine beq_eq_false_iff_ne.mpr fun same => ?_
      obtain rfl := Option.some.inj same
      cases begins
    | _ => rfl
  refine ComesTo.congr (run_ahead_bind begins.solid.1) ?_
  refine (record _ written rest closes).bind fun u _ => ?_
  rw [isList]
  cases u.complete? (Calculation.isList d) with
  | none => exact .of_error rfl
  | some c => exact rfl

structure Unfinished.Finite (u : Unfinished) : Prop where
  result : ∀ x ∈ u.result, Decimal.isFinite x = true
  operandA : ∀ x ∈ u.operandA.join, Decimal.isFinite x = true
  operandB : ∀ x ∈ u.operandB.join, Decimal.isFinite x = true

theorem gives_fields : ∀ field ∈ fields convert,
    Gives (fun update => ∀ u, Unfinished.Finite u → Unfinished.Finite (update u)) field.update := by
  simp only [fields, List.forall_mem_cons]
  refine ⟨?expression, ?result, ?operator, ?operandA, ?operandB, by simp⟩
  case expression => exact (Gives.any _).map fun _ _ u h => ⟨h.result, h.operandA, h.operandB⟩
  case result =>
    exact gives_number.map fun x hx u h => ⟨by simpa using hx, h.operandA, h.operandB⟩
  case operator => exact (Gives.any _).map fun _ _ u h => ⟨h.result, h.operandA, h.operandB⟩
  case operandA =>
    exact (gives_nullable gives_number).map fun _ hx u h => ⟨h.result, hx, h.operandB⟩
  case operandB =>
    exact (gives_nullable gives_number).map fun _ hx u h => ⟨h.result, h.operandA, hx⟩

theorem Unfinished.Finite.complete? {u : Unfinished} {c : Calculation} {isList : Bool}
    (h : u.Finite) (complete : u.complete? isList = some c) : c.Finite := by
  -- in a list every operand has to be there, in an object one that is not counts as absent
  cases isList with
  | true =>
    simp only [Unfinished.complete?, if_true, Option.bind_eq_bind, Option.bind_eq_some_iff,
      Option.pure_def, Option.some.injEq] at complete
    obtain ⟨text, -, x, result, op, -, a, operandA, b, operandB, rfl⟩ := complete
    have ha := h.operandA
    have hb := h.operandB
    rw [operandA] at ha
    rw [operandB] at hb
    exact ⟨h.result x result, ha, hb⟩
  | false =>
    simp only [Unfinished.complete?, Bool.false_eq_true, if_false, Option.bind_eq_bind,
      Option.bind_eq_some_iff, Option.pure_def, Option.some.injEq] at complete
    obtain ⟨text, -, x, result, rfl⟩ := complete
    exact ⟨h.result x result, h.operandA, h.operandB⟩

theorem gives_reader : Gives Finite (reader convert) := by
  refine .seq fun c => ?_
  have start : Unfinished.empty.Finite :=
    ⟨by simp [Unfinished.empty], by simp [Unfinished.empty], by simp [Unfinished.empty]⟩
  refine .bind (gives_record start gives_fields) fun u hu => ?_
  split
  case h_1 c complete => exact .pure (hu.complete? complete)
  case h_2 => exact .fail _

theorem oneLine_toJson (c : Calculation) : OneLine c.IsDatum c.toJson :=
  oneLine_object
    (.cons ⟨rfl, oneLine_string c.expression⟩ (.cons ⟨rfl, oneLine_number c.result⟩
      (.cons ⟨rfl, oneLine_nullable (fun op => oneLine_string op.name) c.operator⟩
        (.cons ⟨rfl, oneLine_nullable oneLine_number c.operandA⟩
          (.cons ⟨rfl, oneLine_nullable oneLine_number c.operandB⟩ .nil)))))

theorem codec_obeys (convert : Conversion) : (codec convert).Obeys (form convert) where
  decodes d text written :=
    read_of_settles (settles_reader d) (ignoresBlanks_ahead.bind _) written
  finite text c h := gives_reader.of_read h
  encodes c := by
    obtain ⟨d, prints, is⟩ := c.oneLine_toJson.prints
    exact ⟨d, is, prints.isText⟩

end Calculation

end Abacus
