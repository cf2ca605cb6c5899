import Mathlib
import Abacus.Proofs.CommandLine.Batch
import Abacus.Proofs.CommandLine.Printing
import Abacus.Proofs.Json.Decoding

/-!
Answers to the lines of an input. In JSON every line that is not blank has one line for an answer,
which tells what came of it, and nothing that the line has in it can end that line or begin another.
Else a line that resolves is answered by one line, and one that fails by a report among the errors.
-/

namespace Abacus

open Json
open Decimal (plain isFinite)

def Json.Datum.IsResult (text : String) (x : Float) : Datum → Prop :=
  Datum.IsObject
    [("expression", Datum.IsString text), ("result", Datum.IsNumber x), ("operator", (· = .null)),
     ("operand_a", (· = .null)), ("operand_b", (· = .null))]

def Json.Datum.IsRejection (e : Rejection) : Datum → Prop :=
  Datum.IsObject
    [("message", Datum.IsString e.summary),
     ("errors", Datum.IsObject (e.errors.map fun (field, messages) =>
        (field, Datum.IsList (messages.map Datum.IsString))))]

theorem Calculation.oneLine_result (text : String) (x : Float) :
    OneLine (Datum.IsResult text x) (Calculation.toJson ⟨text, x, none, none, none⟩) :=
  oneLine_toJson ⟨text, x, none, none, none⟩

theorem Rejection.oneLine_toJson (e : Rejection) : OneLine (Datum.IsRejection e) e.toJson := by
  have messages (ms : List String) :
      OneLine (Datum.IsList (ms.map Datum.IsString)) (list (ms.map string)) := by
    apply oneLine_list
    rw [List.forall₂_map_left_iff, List.forall₂_map_right_iff, List.forall₂_same]
    exact fun message _ => oneLine_string message
  have errors : OneLine (Datum.IsObject (e.errors.map fun (field, messages) =>
        (field, Datum.IsList (messages.map Datum.IsString))))
      (object (e.errors.map fun (field, messages) => (field, list (messages.map string)))) := by
    apply oneLine_object
    rw [List.forall₂_map_left_iff, List.forall₂_map_right_iff, List.forall₂_same]
    exact fun entry _ => ⟨rfl, messages entry.2⟩
  exact oneLine_object (.cons ⟨rfl, oneLine_string e.summary⟩ (.cons ⟨rfl, errors⟩ .nil))

namespace CommandLine

variable {a : Arguments} {limit : Nat} {line : String}

/-- What came of the line. -/
inductive Tells (limit : Nat) (line : String) (d : Datum) : Prop
  | result {c : Calculation} (resolved : (Request.ofExpression line).resolve limit = .ok c)
      (evaluated : evaluate line limit = .ok c.result) (is : d.IsResult line c.result)
  | rejection {e : Rejection} (refused : (Request.ofExpression line).resolve limit = .error e)
      (is : d.IsRejection e)

theorem exists_answer_json (inColor : Bool) (limit : Nat) (line : String) :
    ∃ text, OneLine (Tells limit line) text ∧
      (answerIn inColor limit true (.ofExpression line)).output = text ++ "\n" ∧
      (answerIn inColor limit true (.ofExpression line)).errors = "" := by
  unfold answerIn
  cases resolved : (Request.ofExpression line).resolve limit with
  | ok c =>
    obtain ⟨evaluated, eq⟩ := Request.eq_of_resolve_ofExpression resolved
    refine ⟨c.toJson, ?_, rfl, rfl⟩
    rw [eq]
    exact (Calculation.oneLine_result line c.result).imp fun d => .result resolved evaluated
  | error e => exact ⟨e.toJson, e.oneLine_toJson.imp fun d => .rejection resolved, rfl, rfl⟩

def resolves (limit : Nat) (line : String) : Bool :=
  ((Request.ofExpression line).resolve limit).isOk

theorem resolves_eq_true_iff : resolves limit line = true ↔
    ∃ c, (Request.ofExpression line).resolve limit = .ok c := by
  unfold resolves
  cases (Request.ofExpression line).resolve limit <;> simp [Except.isOk, Except.toBool]

theorem resolves_eq_false_iff : resolves limit line = false ↔
    ∃ e, (Request.ofExpression line).resolve limit = .error e := by
  unfold resolves
  cases (Request.ofExpression line).resolve limit <;> simp [Except.isOk, Except.toBool]

theorem answer_of_error {e : Rejection} (inColor : Bool)
    (refused : (Request.ofExpression line).resolve limit = .error e) :
    answerIn inColor limit false (.ofExpression line) =
      ⟨"", Report.ofRejection (some line) inColor e, false⟩ := by
  unfold answerIn
  rw [refused]
  rfl

theorem not_allBlank_of_resolves (h : resolves limit line = true) :
    Text.allBlank line.toList = false := by
  obtain ⟨c, resolved⟩ := resolves_eq_true_iff.mp h
  obtain ⟨t, derived, -⟩ :=
    Source.evaluate_ok_iff.mp (Request.eq_of_resolve_ofExpression resolved).1
  rw [Bool.eq_false_iff, ne_eq, Text.allBlank_iff, ← Source.glyphs_eq_nil_iff]
  exact derived.nonempty

theorem filter_resolves_nonblank (limit : Nat) (texts : List String) :
    (nonblank texts).filter (resolves limit) = texts.filter (resolves limit) := by
  rw [nonblank, List.filter_filter]
  refine List.filter_congr fun line _ => ?_
  cases h : resolves limit line with
  | false => rfl
  | true =>
    rw [not_allBlank_of_resolves h]
    rfl

theorem hasNoControl_plain (x : Float) : HasNoControl (plain x) := by
  cases finite : isFinite x with
  | true =>
    obtain ⟨n, text, -⟩ := Expression.exists_numeral_plain finite
    intro c there
    rw [text] at there
    obtain numeric | rfl := Expression.isNumeric_or_minus_of_mem there
    · obtain digit | rfl : c.isDigit = true ∨ c = '.' := by
        simpa [Literal.isNumeric] using numeric
      · exact not_control_of_isDigit (List.forall_mem_singleton.mpr digit) c List.mem_cons_self
      · decide
    · decide
  | false =>
    obtain text | text | text := Decimal.plain_of_not_finite finite
    all_goals
      rw [text]
      simp [HasNoControl]

theorem textLines_join {texts : List String} (noControl : ∀ text ∈ texts, HasNoControl text) :
    textLines (String.join (texts.map (· ++ "\n"))) = texts := by
  induction texts with
  | nil => exact textLines_empty
  | cons text texts ih =>
    rw [List.forall_mem_cons] at noControl
    have whole {c : Char} (control : c.toNat < 0x20) : c ∉ text.toList := fun there =>
      noControl.1 c there control
    rw [List.map_cons, String.join_cons, textLines_more (whole (by decide)) (whole (by decide)),
      ih noControl.2]

/-- The output is these texts, each of them on a line of its own, so they can be told apart. -/
structure Framed (output : String) (texts : List String) : Prop where
  output_eq : output = String.join (texts.map (· ++ "\n"))
  noControl : ∀ text ∈ texts, HasNoControl text
  textLines_eq : textLines output = texts

theorem framed_join {texts : List String} (noControl : ∀ text ∈ texts, HasNoControl text) :
    Framed (String.join (texts.map (· ++ "\n"))) texts :=
  ⟨rfl, noControl, textLines_join noControl⟩

theorem exists_framed {is : String → String → Prop} {write : String → String} {lines : List String}
    (h : ∀ line ∈ lines, ∃ text, is line text ∧ HasNoControl text ∧ write line = text ++ "\n") :
    ∃ texts, Framed (String.join (lines.map write)) texts ∧ List.Forall₂ is lines texts := by
  choose! text is_text noControl eq using h
  refine ⟨lines.map text, ?_, ?_⟩
  · rw [List.map_congr_left eq, ← Function.comp_def (· ++ "\n") text, ← List.map_map]
    exact framed_join (List.forall_mem_map.mpr noControl)
  · rw [List.forall₂_map_right_iff, List.forall₂_same]
    exact is_text

theorem join_filter {p : String → Bool} {write : String → String} {lines : List String}
    (nothing : ∀ line, p line = false → write line = "") :
    String.join (lines.map write) = String.join ((lines.filter p).map write) := by
  induction lines with
  | nil => rfl
  | cons line lines ih =>
    rw [List.map_cons, String.join_cons, ih]
    cases here : p line with
    | true => rw [List.filter_cons_of_pos here, List.map_cons, String.join_cons]
    | false =>
      rw [List.filter_cons_of_neg (by simp [here]), nothing line here, String.empty_append]

/-- In JSON the output has one line for each line that is not blank, in their order, and this is
JSON that tells the calculation or the rejection; there are no errors. As plain text it has one
line for each line that resolves, and the errors have a report for each that fails, in colour where
that can be shown. -/
theorem run_frames_answers (reads : a.readsInput = true) (console : Console) (text : String) :
    (a.isJson = true → (runOn console a (encoded text)).errors = "" ∧
      ∃ answers, Framed (runOn console a (encoded text)).output answers ∧
        List.Forall₂ (fun line answer => ∃ d, IsText d answer ∧ Tells a.maxDepth line d)
          (nonblank (textLines text)) answers) ∧
    (a.isJson = false →
      (∃ answers, Framed (runOn console a (encoded text)).output answers ∧
        List.Forall₂ (fun line answer => ∃ c,
            (Request.ofExpression line).resolve a.maxDepth = .ok c ∧ answer = plain c.result)
          ((textLines text).filter (resolves a.maxDepth)) answers) ∧
      ∃ reports, (runOn console a (encoded text)).errors = String.join reports ∧
        List.Forall₂ (fun line report => ∃ e,
            (Request.ofExpression line).resolve a.maxDepth = .error e ∧
              report = Report.ofRejection (some line) console.inColor e)
          ((nonblank (textLines text)).filter (!resolves a.maxDepth ·)) reports) := by
  -- each line is a run of its own, and runs that write nothing may be left out
  rw [run_encoded reads, Transcript.output_concat, Transcript.errors_concat, List.map_map,
    List.map_map]
  refine ⟨fun json => ⟨?errors, ?answers⟩, fun shown => ⟨?lines, ?reports⟩⟩
  case errors =>
    rw [join_filter (p := fun _ => false), List.filter_false]
    · rfl
    · intro line _
      obtain ⟨_, -, -, none_written⟩ := exists_answer_json console.inColor a.maxDepth line
      rwa [← json] at none_written
  case answers =>
    refine exists_framed fun line _ => ?_
    obtain ⟨answer, tells, written, -⟩ := exists_answer_json console.inColor a.maxDepth line
    obtain ⟨d, prints, told⟩ := tells.prints
    rw [← json] at written
    exact ⟨answer, ⟨d, prints.isText, told⟩, tells.noControl, written⟩
  case lines =>
    rw [join_filter (p := resolves a.maxDepth), filter_resolves_nonblank]
    · refine exists_framed fun line there => ?_
      obtain ⟨c, resolved⟩ := resolves_eq_true_iff.mp (List.mem_filter.mp there).2
      refine ⟨plain c.result, ⟨c, resolved, rfl⟩, hasNoControl_plain c.result, ?_⟩
      rw [Function.comp_apply, shown, answer_of_ok console.inColor resolved]
    · intro line fails
      obtain ⟨e, refused⟩ := resolves_eq_false_iff.mp fails
      rw [Function.comp_apply, shown, answer_of_error console.inColor refused]
  case reports =>
    refine ⟨_, join_filter (p := (!resolves a.maxDepth ·)) fun line fine => ?_, ?_⟩
    · obtain ⟨c, resolved⟩ := resolves_eq_true_iff.mp (by simpa using fine)
      rw [Function.comp_apply, shown, answer_of_ok console.inColor resolved]
    · rw [List.forall₂_map_right_iff, List.forall₂_same]
      intro line there
      obtain ⟨e, refused⟩ := resolves_eq_false_iff.mp (by simpa using (List.mem_filter.mp there).2)
      refine ⟨e, refused, ?_⟩
      rw [Function.comp_apply, shown, answer_of_error console.inColor refused]

/-- A vertical tab is a blank, but it is not the end of a line; nor is a null, which no expression has
in it. -/
theorem run_tab_and_null :
    ((⟨some 1, true, none, none, none, none⟩ : Arguments).readsInput = true ∧
      (⟨some 1, false, none, none, none, none⟩ : Arguments).readsInput = true) ∧
    (∃ first second,
      Framed (runOn .pipe ⟨some 1, true, none, none, none, none⟩
        (encoded "1\x0b\r\n \n\"\x00")).output [first, second] ∧
      (∃ d, IsText d first ∧ Tells 1 "1\x0b" d) ∧ ∃ d, IsText d second ∧ Tells 1 "\"\x00" d) ∧
    (∃ c, (Request.ofExpression "1\x0b").resolve 1 = .ok c ∧
      Framed (runOn ⟨true, ""⟩ ⟨some 1, false, none, none, none, none⟩
        (encoded "1\x0b\r\n \n\"\x00")).output [plain c.result]) ∧
    ∃ e, (Request.ofExpression "\"\x00").resolve 1 = .error e ∧
      (runOn ⟨true, ""⟩ ⟨some 1, false, none, none, none, none⟩
        (encoded "1\x0b\r\n \n\"\x00")).errors =
          Report.ofRejection (some "\"\x00") true e := by
  have lines : textLines "1\x0b\r\n \n\"\x00" = ["1\x0b", " ", "\"\x00"] := by decide
  have asked : nonblank ["1\x0b", " ", "\"\x00"] = ["1\x0b", "\"\x00"] := by decide
  have resolved : ["1\x0b", " ", "\"\x00"].filter (resolves 1) = ["1\x0b"] := by decide +kernel
  have refused : ["1\x0b", "\"\x00"].filter (!resolves 1 ·) = ["\"\x00"] := by decide +kernel
  have json : (⟨some 1, true, none, none, none, none⟩ : Arguments).readsInput = true := rfl
  have shown : (⟨some 1, false, none, none, none, none⟩ : Arguments).readsInput = true := rfl
  obtain ⟨-, answers, framed, told⟩ :=
    (run_frames_answers json .pipe "1\x0b\r\n \n\"\x00").1 rfl
  obtain ⟨⟨results, framed', printed⟩, reports, joined, reported⟩ :=
    (run_frames_answers shown ⟨true, ""⟩ "1\x0b\r\n \n\"\x00").2 rfl
  rw [lines, asked] at told reported
  rw [lines] at printed
  refine ⟨⟨json, shown⟩, ?json, ?result, ?report⟩
  case json =>
    obtain ⟨_, _, first, others, rfl⟩ := List.forall₂_cons_left_iff.mp told
    obtain ⟨_, _, second, none_left, rfl⟩ := List.forall₂_cons_left_iff.mp others
    cases none_left
    exact ⟨_, _, framed, first, second⟩
  case result =>
    obtain ⟨_, _, ⟨c, value, rfl⟩, none_left, rfl⟩ :=
      List.forall₂_cons_left_iff.mp (resolved ▸ printed)
    cases none_left
    exact ⟨c, value, framed'⟩
  case report =>
    obtain ⟨_, _, ⟨e, error, rfl⟩, none_left, rfl⟩ :=
      List.forall₂_cons_left_iff.mp (refused ▸ reported)
    cases none_left
    refine ⟨e, error, joined.trans ?_⟩
    rw [String.join_cons]
    exact String.append_empty

end CommandLine

end Abacus
