import Mathlib
import Abacus.Report
import Abacus.Proofs.CommandLine.Reports
import Abacus.Proofs.Decimal.Written
import Abacus.Proofs.Expression.Gaps
import Abacus.Proofs.Expression.Nesting
import Abacus.Proofs.Rejection

/-!
The plain list of a rejection, of a line for each message. A message can quote characters of the
expression, and none of these is blank, for the text is stripped before it is read; what else is in a
message has spaces and no other blanks. So no message breaks its line, whatever was typed.
-/

namespace Abacus

open Text

namespace Text

variable {cs ds : List Char}

def SpacesOnly (cs : List Char) : Prop :=
  ∀ c ∈ cs, isBlank c = true → c = ' '

instance (cs : List Char) : Decidable (SpacesOnly cs) :=
  List.decidableBAll (fun c => isBlank c = true → c = ' ') cs

theorem spacesOnly_append : SpacesOnly (cs ++ ds) ↔ SpacesOnly cs ∧ SpacesOnly ds :=
  List.forall_mem_append

theorem spacesOnly_of_solid (solid : ∀ c ∈ cs, isBlank c = false) : SpacesOnly cs := by
  intro c member blank
  rw [solid c member] at blank
  cases blank

theorem spacesOnly_toString (n : Nat) : SpacesOnly (toString n).toList := by
  refine spacesOnly_of_solid fun c member => Literal.isBlank_of_isNumeric ?_
  have digit := Decimal.isDigit_decimalDigits n c (by simpa [Decimal.decimalDigits] using member)
  simp [Literal.isNumeric, digit]

end Text

namespace Cause

/-- What a message repeats of the text, and the character that it asks for. -/
def quoted : Cause → List Char
  | unexpectedCharacter found _ => [found]
  | expectedNumber found _ => found.toList
  | invalidNumber text _ => text.toList
  | expectedCharacter expected found _ => expected :: found.toList
  | emptyExpression | divisionByZero | negativeSquareRoot | tooDeeplyNested _ => []

theorem spacesOnly_foundText {found : Option Char} (solid : ∀ c ∈ found, isBlank c = false) :
    SpacesOnly (foundText found).toList := by
  cases found with
  | none => decide +kernel
  | some c => exact spacesOnly_of_solid (by simpa [foundText] using solid)

theorem spacesOnly_message {cause : Cause} (solid : ∀ c ∈ cause.quoted, isBlank c = false) :
    SpacesOnly cause.message.toList := by
  have singleton {c : Char} (h : isBlank c = false) : SpacesOnly (String.singleton c).toList :=
    spacesOnly_of_solid (by simpa using h)
  cases cause with
  | emptyExpression => decide +kernel
  | divisionByZero => decide +kernel
  | negativeSquareRoot => decide +kernel
  | tooDeeplyNested limit =>
    have wording : SpacesOnly "Expression is too deeply nested.".toList := by decide +kernel
    exact wording
  | unexpectedCharacter found position =>
    unfold message
    simp only [String.toList_append, spacesOnly_append]
    exact ⟨⟨⟨⟨by decide +kernel, singleton (solid found (by simp [quoted]))⟩, by decide +kernel⟩,
      spacesOnly_toString position⟩, by decide +kernel⟩
  | expectedNumber found position =>
    unfold message
    simp only [String.toList_append, spacesOnly_append]
    exact ⟨⟨⟨⟨by decide +kernel, spacesOnly_toString position⟩, by decide +kernel⟩,
      spacesOnly_foundText (by simpa [quoted] using solid)⟩, by decide +kernel⟩
  | invalidNumber text position =>
    unfold message
    simp only [String.toList_append, spacesOnly_append]
    exact ⟨⟨⟨⟨by decide +kernel, spacesOnly_of_solid solid⟩, by decide +kernel⟩,
      spacesOnly_toString position⟩, by decide +kernel⟩
  | expectedCharacter expected found position =>
    simp only [quoted, List.forall_mem_cons] at solid
    unfold message
    simp only [String.toList_append, spacesOnly_append]
    exact ⟨⟨⟨⟨⟨⟨by decide +kernel, singleton solid.1⟩, by decide +kernel⟩,
      spacesOnly_toString position⟩, by decide +kernel⟩,
      spacesOnly_foundText (by simpa using solid.2)⟩, by decide +kernel⟩

end Cause

def Complaint.SpacesOnly (c : Complaint) : Prop :=
  Text.SpacesOnly c.field.toList ∧ Text.SpacesOnly c.message.toList

instance (c : Complaint) : Decidable c.SpacesOnly :=
  inferInstanceAs (Decidable (_ ∧ _))

namespace Expression

variable {cs : List Char} {limit k : Nat} {s : List Glyph} {f : Fault}

theorem Within.suffix {src : Source} (h : Within src limit k s) : s <:+ src.glyphs :=
  let ⟨before, place, _⟩ := h
  ⟨before, place.symm⟩

theorem isBlank_head? (left : s <:+ (Source.ofChars cs).glyphs) :
    ∀ c ∈ s.head?.map Glyph.char, isBlank c = false := by
  intro c found
  obtain ⟨g, first, rfl⟩ := Option.mem_map.mp found
  exact Source.isBlank_of_mem_glyphs (left.subset (List.mem_of_mem_head? first))

theorem Points.isBlank_found {src : Source} {found : Char} {position : Nat}
    (solid : ∀ g ∈ src.glyphs, isBlank g.char = false) (h : Points src limit f)
    (cause : f.cause = .unexpectedCharacter found position) : isBlank found = false := by
  cases h with
  | @unexpectedCharacter _ g _ place =>
    obtain ⟨rfl, -⟩ := by simpa using cause
    exact solid g (by simp [place])
  | expectedNumber => simp at cause
  | expectedCharacter => simp at cause
  | invalidNumber => simp at cause
  | divisionByZero => simp at cause
  | negativeSquareRoot => simp at cause
  | tooDeeplyNested => simp at cause

theorem Arises.isBlank_quoted (h : Arises (Source.ofChars cs) limit f)
    (points : Points (Source.ofChars cs) limit f) : ∀ c ∈ f.cause.quoted, isBlank c = false := by
  -- what is quoted was left when the blanks were dropped, or is the bracket that is missing
  cases h with
  | number within failed =>
    obtain ⟨-, rfl⟩ | ⟨-, rfl⟩ := literal_value_error failed
    · have left := (Literal.split_suffix _).trans within.suffix
      simpa [Cause.quoted] using isBlank_head? left
    · intro c member
      obtain ⟨g, mine, rfl⟩ : ∃ g ∈ (Literal.split _).1, g.char = c := by
        simpa [Cause.quoted] using member
      exact Literal.isBlank_of_isNumeric (isNumeric_split g mine)
  | closing within =>
    refine List.forall_mem_cons.mpr ⟨by decide, ?_⟩
    simpa using isBlank_head? within.suffix
  | arithmetic cause =>
    obtain named | named := cause
    · simp [named, Cause.quoted]
    · simp [named, Cause.quoted]
  | tooDeeplyNested => simp [Cause.quoted]
  | unexpectedCharacter g =>
    have solid := points.isBlank_found (fun _ => Source.isBlank_of_mem_glyphs) rfl
    simpa [Cause.quoted] using solid

end Expression

theorem isBlank_quoted_of_evaluate {text : String} {limit : Nat} {f : Fault}
    (failed : evaluate text limit = .error f) : ∀ c ∈ f.cause.quoted, isBlank c = false := by
  by_cases nothing : (Source.ofText text).glyphs = []
  · obtain rfl := Except.error.inj ((Source.evaluate_nil nothing).symm.trans failed)
    simp [Cause.quoted]
  · have arises := Source.evaluate_error nothing (Expression.arises_whole _ limit) failed
    exact arises.isBlank_quoted
      (Source.evaluate_error nothing (Expression.sound_whole _ limit) failed)

namespace Request

variable {r : Request} {limit : Nat} {e : Rejection}

theorem Task.isBlank_quoted {t : Task} {f : Fault} (failed : t.result limit = .error f) :
    ∀ c ∈ f.cause.quoted, isBlank c = false := by
  cases t with
  | expression text => exact isBlank_quoted_of_evaluate failed
  | operation op a b =>
    rw [(Expression.apply_error failed).1]
    simp [Cause.quoted]

theorem Task.exists_of_run_error {t : Task} (h : t.run limit = .error e) :
    ∃ f, t.result limit = .error f ∧ e = .ofFault f := by
  unfold Task.run at h
  cases ended : t.result limit with
  | ok x => simp [ended] at h
  | error f =>
    rw [ended, Except.error.injEq] at h
    exact ⟨f, rfl, h.symm⟩

theorem spacesOnly_of_mem_complaints {c : Complaint} (h : c ∈ r.complaints) :
    c.SpacesOnly := by
  obtain rfl | rfl | rfl := eq_of_mem_complaints h
  · decide +kernel
  · decide +kernel
  · decide +kernel

theorem task_error (h : r.task = .error e) :
    e = .ofComplaints [operatorComplaint] ∨ e = .ofComplaints [modeComplaint] := by
  unfold task at h
  split at h
  · cases h
  · split at h
    · cases h
    · exact .inl (Except.error.inj h).symm
  · exact .inr (Except.error.inj h).symm

theorem spacesOnly_of_resolve (h : r.resolve limit = .error e) :
    ∃ cs, e.errors = .ofComplaints cs ∧ ∀ c ∈ cs, c.SpacesOnly := by
  -- the shape is complained of in fixed words, and a calculation in those of its fault
  have fixed : operatorComplaint.SpacesOnly ∧ modeComplaint.SpacesOnly := by decide +kernel
  cases valid : r.validate with
  | error e' =>
    obtain rfl := Except.error.inj ((resolve_of_invalid valid).symm.trans h)
    unfold validate at valid
    split_ifs at valid
    obtain rfl := Except.error.inj valid
    exact ⟨_, rfl, fun c member => spacesOnly_of_mem_complaints member⟩
  | ok =>
    rw [resolve_of_valid valid] at h
    cases task : r.task with
    | error e' =>
      rw [task] at h
      obtain rfl := Except.error.inj h
      obtain rfl | rfl := task_error task
      · exact ⟨_, rfl, by simpa using fixed.1⟩
      · exact ⟨_, rfl, by simpa using fixed.2⟩
    | ok t =>
      rw [task] at h
      obtain ⟨f, failed, rfl⟩ := Task.exists_of_run_error h
      have field : SpacesOnly "calculation".toList := by decide +kernel
      have message := Cause.spacesOnly_message (Task.isBlank_quoted failed)
      exact ⟨_, rfl, List.forall_mem_singleton.mpr ⟨field, message⟩⟩

end Request

namespace Report

variable {line : List Char} {lines : List String}

theorem cutLines_ended (whole : ∀ c ∈ line, isTerminator c = false) (rest : List Char) :
    cutLines (line ++ '\n' :: rest) = (line ++ ['\n']) :: cutLines rest := by
  induction line with
  | nil => rfl
  | cons c line ih =>
    rw [List.forall_mem_cons] at whole
    have not_return : c ≠ '\r' := by
      rintro rfl
      exact absurd whole.1 (by decide)
    rw [List.cons_append, cutLines, if_neg (by simp [whole.1]), ih whole.2]
    · rfl
    · simp [not_return]

theorem isBlank_of_isTerminator {c : Char} (h : isTerminator c = true) :
    isBlank c = true ∧ c ≠ ' ' := by
  simp only [isTerminator, Bool.or_eq_true, beq_iff_eq] at h
  obtain (((((rfl | rfl) | rfl) | rfl) | rfl) | rfl) | rfl := h <;> decide

theorem not_isTerminator_of_spacesOnly (h : SpacesOnly line) :
    ∀ c ∈ line, isTerminator c = false := by
  intro c member
  by_contra terminator
  obtain ⟨blank, other⟩ := isBlank_of_isTerminator (Bool.not_eq_false _ ▸ terminator)
  exact other (h c member blank)

/-- Lines that nothing breaks are the lines of the text that they make. -/
theorem cutLines_join (h : ∀ line ∈ lines, SpacesOnly line.toList) :
    cutLines (String.join (lines.map fun line => line ++ "\n")).toList =
      lines.map fun line => line.toList ++ ['\n'] := by
  induction lines with
  | nil => rfl
  | cons line lines ih =>
    rw [List.forall_mem_cons] at h
    have whole := not_isTerminator_of_spacesOnly h.1
    simp only [List.map_cons, String.join_cons, String.toList_append]
    have ended : ("\n" : String).toList = ['\n'] := rfl
    rw [ended, List.append_assoc, List.singleton_append, cutLines_ended whole, ih h.2]

def listing (errors : Ledger) : List String :=
  errors.entries.map fun c => "Error: " ++ c.message ++ " (" ++ c.field ++ ")"

theorem ofLedger_eq_join (errors : Ledger) :
    ofLedger errors = String.join ((listing errors).map fun line => line ++ "\n") := by
  have ended : (")\n" : String) = ")" ++ "\n" := rfl
  simp only [ofLedger, listing, List.map_map, Function.comp_def, ended, String.append_assoc]

theorem spacesOnly_of_mem_listing {errors : Ledger} (h : ∀ c ∈ errors.entries, c.SpacesOnly) :
    ∀ line ∈ listing errors, SpacesOnly line.toList := by
  intro line listed
  obtain ⟨c, member, rfl⟩ := List.mem_map.mp listed
  simp only [String.toList_append, spacesOnly_append]
  exact ⟨⟨⟨⟨by decide +kernel, (h c member).2⟩, by decide +kernel⟩, (h c member).1⟩,
    by decide +kernel⟩

/-- A rejection that has no source to be drawn under is written as one line for each of its messages,
in the order of the fields, whatever was typed: the only blanks in a message are spaces. -/
theorem ofRejection_unbroken {r : Request} {limit : Nat} {e : Rejection}
    (h : r.resolve limit = .error e) (inColor : Bool) :
    ofRejection none inColor e = String.join ((listing e.errors).map fun line => line ++ "\n") ∧
    cutLines (ofRejection none inColor e).toList =
      (listing e.errors).map (fun line => line.toList ++ ['\n']) ∧
    (e.errors.map Prod.fst).Pairwise
      (fun field field' => utf8 field.toList < utf8 field'.toList) ∧
    ∀ c ∈ e.errors.entries, SpacesOnly c.message.toList := by
  obtain ⟨cs, entered, worded⟩ := Request.spacesOnly_of_resolve h
  have kept : e.errors.entries.Perm cs := entered ▸ Ledger.entries_ofComplaints_perm cs
  have tidy : e.errors.Tidy := entered ▸ Ledger.tidy_ofComplaints cs
  have unbroken : ∀ c ∈ e.errors.entries, c.SpacesOnly := fun c member =>
    worded c (kept.mem_iff.mp member)
  have text : ofRejection none inColor e =
      String.join ((listing e.errors).map fun line => line ++ "\n") := ofLedger_eq_join e.errors
  refine ⟨text, ?_, ?_, fun c member => (unbroken c member).2⟩
  · rw [text, cutLines_join (spacesOnly_of_mem_listing unbroken)]
  · exact List.pairwise_map.mpr (tidy.ordered.imp utf8_lt_utf8_iff.mpr)

/-- A line separator and a next-line character are dropped before a NUL is quoted; and an unknown
name that ends in a line feed is not repeated in the two messages about its request. -/
theorem ofRejection_unbroken_separators :
    (∃ e, Request.resolve ⟨some "1\u2028\u0085\x00", none, none, some " "⟩ 50 = .error e ∧
      (cutLines (ofRejection none true e).toList).map String.ofList =
        ["Error: Unexpected character '\x00' at position 1. (calculation)\n"]) ∧
    ∃ e, Request.resolve ⟨none, some 1, none, some "+\n"⟩ 50 = .error e ∧
      (cutLines (ofRejection none false e).toList).map String.ofList =
        ["Error: Provide either an expression or operand_a, operand_b, and operator. (mode)\n",
         "Error: The selected operator is invalid. (operator)\n"] := by
  have failed : evaluate "1\u2028\u0085\x00" 50 =
      .error ⟨.unexpectedCharacter '\x00' 1, some ⟨6, 7⟩⟩ := by decide +kernel
  have blank := Request.resolve_of_evaluate_error
    (r := ⟨some "1\u2028\u0085\x00", none, none, some " "⟩) (by decide +kernel) rfl failed
  have unknown : Request.resolve ⟨none, some 1, none, some "+\n"⟩ 50 =
      .error (.ofComplaints [Request.operatorComplaint, Request.modeComplaint]) :=
    Request.resolve_of_invalid (by decide +kernel)
  refine ⟨⟨_, blank, ?_⟩, _, unknown, ?_⟩
  · rw [(ofRejection_unbroken blank true).2.1]
    decide +kernel
  · rw [(ofRejection_unbroken unknown false).2.1]
    decide +kernel

end Report

end Abacus
