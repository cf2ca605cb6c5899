import Mathlib
import Abacus.Proofs.CommandLine.Lines

/-!
A batch is the runs of its lines. What is written for an input is what is written for its lines, one
run after the other with the line as the expression; a line that is not UTF-8 ends it with a report.
Nothing is carried from one line to the next but that one of them has failed.
-/

namespace Abacus.CommandLine

namespace Transcript

variable {s t u : Transcript}

@[simp] theorem output_append : (s ++ t).output = s.output ++ t.output := rfl

@[simp] theorem errors_append : (s ++ t).errors = s.errors ++ t.errors := rfl

@[simp] theorem isOk_append : (s ++ t).isOk = (s.isOk && t.isOk) := rfl

@[ext] theorem ext' (output : s.output = t.output) (errors : s.errors = t.errors)
    (isOk : s.isOk = t.isOk) : s = t := by
  cases s
  cases t
  simp_all

theorem empty_append : empty ++ t = t := by
  ext1 <;> simp [empty]

theorem append_empty : t ++ empty = t := by
  ext1 <;> simp [empty]

theorem append_assoc : s ++ t ++ u = s ++ (t ++ u) := by
  ext1 <;> simp [String.append_assoc, Bool.and_assoc]

theorem exitCode_eq_zero_iff : t.exitCode = 0 ↔ t.isOk = true := by
  unfold exitCode
  split_ifs with ok <;> simp [ok]

def concat (ts : List Transcript) : Transcript :=
  ts.foldr (· ++ ·) empty

theorem concat_cons (t : Transcript) (ts : List Transcript) : concat (t :: ts) = t ++ concat ts :=
  rfl

theorem concat_append (ts us : List Transcript) : concat (ts ++ us) = concat ts ++ concat us := by
  induction ts with
  | nil => exact empty_append.symm
  | cons t ts ih => rw [List.cons_append, concat_cons, concat_cons, ih, append_assoc]

theorem output_concat (ts : List Transcript) :
    (concat ts).output = String.join (ts.map output) := by
  induction ts with
  | nil => rfl
  | cons t ts ih => rw [concat_cons, output_append, ih, List.map_cons, String.join_cons]

theorem errors_concat (ts : List Transcript) :
    (concat ts).errors = String.join (ts.map errors) := by
  induction ts with
  | nil => rfl
  | cons t ts ih => rw [concat_cons, errors_append, ih, List.map_cons, String.join_cons]

theorem isOk_concat (ts : List Transcript) : (concat ts).isOk = ts.all isOk := by
  induction ts with
  | nil => rfl
  | cons t ts ih => rw [concat_cons, isOk_append, ih, List.all_cons]

end Transcript

open Transcript

/-- The lines up to the first that is not UTF-8 are these texts. -/
structure Reads (lines : List (List UInt8)) (texts : List String) (bad : List (List UInt8)) :
    Prop where
  eq : lines = texts.map encoded ++ bad
  stops : ∀ line ∈ bad.head?, ∀ text, encoded text ≠ line

def nonblank (texts : List String) : List String :=
  texts.filter fun text => !Text.allBlank text.toList

theorem exists_reads (lines : List (List UInt8)) : ∃ texts bad, Reads lines texts bad := by
  induction lines with
  | nil => exact ⟨[], [], rfl, by simp⟩
  | cons line lines ih =>
    cases decoded : decode? line with
    | none =>
      refine ⟨[], line :: lines, rfl, ?_⟩
      rintro _ ⟨rfl⟩ text same
      rw [← decode?_eq_some_iff, decoded] at same
      cases same
    | some text =>
      obtain ⟨texts, bad, reads⟩ := ih
      refine ⟨text :: texts, bad, ?_, reads.stops⟩
      rw [List.map_cons, List.cons_append, ← reads.eq, decode?_eq_some_iff.mp decoded]

def textLines (text : String) : List String :=
  (lines '\n' '\r' text.toList).map String.ofList

theorem textLines_empty : textLines "" = [] := by
  simp [textLines]

theorem textLines_more {line : String} (noFeed : '\n' ∉ line.toList) (noReturn : '\r' ∉ line.toList)
    (rest : String) : textLines (line ++ "\n" ++ rest) = line :: textLines rest := by
  have kept : withoutLast '\r' line.toList = line.toList := by
    rw [withoutLast, if_neg]
    exact fun last => noReturn (List.mem_of_getLast? last)
  have text : (line ++ "\n" ++ rest).toList = line.toList ++ '\n' :: rest.toList := by
    rw [String.toList_append, String.toList_append, List.append_assoc]
    rfl
  rw [textLines, text, lines_more noFeed, kept, List.map_cons, String.ofList_toList]
  rfl

theorem reads_encoded (text : String) :
    Reads (lines lineFeed carriageReturn (encoded text)) (textLines text) [] where
  eq := by
    rw [lines_encoded, textLines, List.map_map, List.append_nil]
    rfl
  stops := by simp

def ending (console : Console) (bad : List (List UInt8)) : Transcript :=
  if bad = [] then .empty else ⟨"", console.encodingReport, false⟩

theorem ending_nil (console : Console) : ending console [] = .empty := rfl

theorem nonblank_append (texts more : List String) :
    nonblank (texts ++ more) = nonblank texts ++ nonblank more :=
  List.filter_append ..

theorem nonblank_cons (text : String) (texts : List String) : nonblank (text :: texts) =
    if Text.allBlank text.toList then nonblank texts else text :: nonblank texts := by
  unfold nonblank
  cases blank : Text.allBlank text.toList <;> simp [blank]

theorem batch_of_reads (console : Console) (limit : Nat) (isJson : Bool)
    {ls : List (List UInt8)} {texts : List String} {bad : List (List UInt8)}
    (reads : Reads (ls.map content) texts bad) :
    batch console limit isJson ls = concat ((nonblank texts).map fun text =>
      answerIn console.inColor limit isJson (.ofExpression text)) ++ ending console bad := by
  induction ls generalizing texts with
  | nil =>
    obtain ⟨noTexts, rfl⟩ := List.append_eq_nil_iff.mp reads.eq.symm
    obtain rfl := List.map_eq_nil_iff.mp noTexts
    rfl
  | cons line ls ih =>
    have eq := reads.eq
    rw [List.map_cons] at eq
    cases texts with
    | nil =>
      obtain rfl : content line :: ls.map content = bad := eq
      have undecoded : decode? (content line) = none := by
        rw [Option.eq_none_iff_forall_ne_some]
        exact fun text decoded => reads.stops _ rfl text (decode?_eq_some_iff.mp decoded)
      rw [batch, undecoded]
      rfl
    | cons text texts =>
      obtain ⟨same, further⟩ := List.cons.inj eq
      have decoded := decode?_eq_some_iff.mpr same.symm
      have more := ih ⟨further, reads.stops⟩
      rw [batch, decoded, nonblank_cons]
      dsimp only
      split_ifs
      · exact more
      · rw [more, List.map_cons, concat_cons, append_assoc]

theorem batch_cutLines {input : List UInt8} {texts : List String} {bad : List (List UInt8)}
    (reads : Reads (lines lineFeed carriageReturn input) texts bad) (console : Console)
    (limit : Nat) (isJson : Bool) : batch console limit isJson (cutLines input) =
      concat ((nonblank texts).map fun text =>
        answerIn console.inColor limit isJson (.ofExpression text)) ++ ending console bad :=
  batch_of_reads console limit isJson (map_content_cutLines input ▸ reads)

namespace Arguments

variable {a b : Arguments}

def withExpression (a : Arguments) (text : String) : Arguments :=
  { a with expression := some text }

theorem readsInput_iff : a.readsInput = true ↔
    a.expression = none ∧ a.operator = none ∧ a.operandA = none ∧ a.operandB = none := by
  simp [readsInput, and_assoc]

theorem request_of_readsInput (reads : a.readsInput = true) (text : String) :
    (a.withExpression text).request = .ofExpression text := by
  obtain ⟨-, operator, operandA, operandB⟩ := readsInput_iff.mp reads
  rw [request, withExpression, Request.ofExpression, operator, operandA, operandB]

theorem setExpression_eq_some_iff {word : String} : a.setExpression word = some b ↔
    a.expression = none ∧ a.withExpression word = b := by
  cases given : a.expression <;> simp [setExpression, fill, withExpression, given]

theorem expression_of_set {f : Flag} {value : String} (h : a.set f value = some b) :
    b.expression = a.expression := by
  cases f <;> simp only [set, Option.map_eq_some_iff, reduceCtorEq] at h
  all_goals
    obtain ⟨_, -, rfl⟩ := h
    rfl

theorem expression_of_setJson (h : a.setJson = some b) : b.expression = a.expression := by
  unfold setJson at h
  split_ifs at h
  obtain rfl := Option.some.inj h
  rfl

/-- What the first of some words does, and the words that belong to it: it makes all others
expressions, is one itself, or is a flag. -/
inductive Step (a b : Arguments) (words : List String) : Prop
  | separator {word : String} {more : List String} (eq : words = word :: more)
      (shape : shape word = .separator) (rest : more.foldlM setExpression a = some b)
  | expression {word : String} {more : List String} {next : Arguments} (eq : words = word :: more)
      (taken : a.setExpression word = some next) (rest : next.read? more = some b)
  | flag {used more : List String} {next : Arguments} (eq : words = used ++ more)
      (some_word : used ≠ []) (same : next.expression = a.expression)
      (taken : ∀ others, a.read? (used ++ others) = next.read? others)
      (rest : next.read? more = some b)

theorem step_of_read? {word : String} {more : List String} (h : a.read? (word :: more) = some b) :
    Step a b (word :: more) := by
  rw [read?] at h
  split at h
  -- the cases are the shapes of the word
  · exact .separator rfl ‹_› h
  · cases h
  · split at h
    · exact .expression rfl ‹_› h
    · cases h
  · split at h
    · exact .expression rfl ‹_› h
    · cases h
  · split at h
    · have used : word :: more = [word] ++ more := rfl
      refine .flag used (by simp) (expression_of_setJson ‹_›) ?_ h
      intro words
      rw [List.singleton_append, read?]
      simp only [*]
    · cases h
  · split at h
    · have used : word :: more = [word] ++ more := rfl
      refine .flag used (by simp) (expression_of_set ‹_›) ?_ h
      intro words
      rw [List.singleton_append, read?]
      simp only [*]
    · cases h
  · split at h
    · cases h
    · next value rest =>
      split_ifs at h
      split at h
      · have used : word :: value :: rest = [word, value] ++ rest := rfl
        refine .flag used (by simp) (expression_of_set ‹_›) ?_ h
        intro words
        rw [List.cons_append, List.singleton_append, read?]
        simp only [*, if_true]
      · cases h

theorem eq_of_foldlM_setExpression {words : List String}
    (h : words.foldlM setExpression a = some b) (none_given : b.expression = none) :
    words = [] ∧ a = b := by
  have given {words : List String} {a : Arguments} {text : String}
      (h : words.foldlM setExpression (a.withExpression text) = some b) : False := by
    cases words with
    | nil => cases Option.some.inj h ▸ none_given
    | cons word words =>
      rw [List.foldlM_cons] at h
      cases h
  cases words with
  | nil => exact ⟨rfl, Option.some.inj h⟩
  | cons word words =>
    rw [List.foldlM_cons] at h
    obtain ⟨next, taken, rest⟩ := Option.bind_eq_some_iff.mp h
    obtain ⟨-, rfl⟩ := setExpression_eq_some_iff.mp taken
    exact (given rest).elim

theorem expression_eq_none_of_read? {words : List String} (h : a.read? words = some b)
    (none_given : b.expression = none) : a.expression = none := by
  -- a flag may take the next word along, so the induction is on how many there are
  induction n : words.length using Nat.strongRecOn generalizing a words with
  | ind n ih =>
    subst n
    cases words with
    | nil => exact Option.some.inj h ▸ none_given
    | cons word words =>
      cases step_of_read? h with
      | separator _ _ rest => exact (eq_of_foldlM_setExpression rest none_given).2 ▸ none_given
      | expression _ taken _ => exact (setExpression_eq_some_iff.mp taken).1
      | @flag used more next eq some_word same _ rest =>
        rw [eq, List.length_append] at ih
        have shorter := List.length_pos_iff.mpr some_word
        rw [← same]
        exact ih more.length (by omega) rest rfl

theorem read?_separator {word : String} (separator : shape word = .separator)
    (none_given : a.expression = none) (text : String) :
    a.read? [word, text] = some (a.withExpression text) := by
  have taken : a.setExpression text = some (a.withExpression text) :=
    setExpression_eq_some_iff.mpr ⟨none_given, rfl⟩
  rw [read?, separator]
  dsimp only
  rw [List.foldlM_cons, taken]
  rfl

/-- After words that give no expression, one can be given: as the next word if every word is one by
then, and else behind the word that makes it so. -/
theorem read?_expression {words : List String} (h : a.read? words = some b)
    (none_given : b.expression = none) (text : String) :
    ∃ more, (more = [text] ∨ more = ["--", text]) ∧
      a.read? (words ++ more) = some (b.withExpression text) := by
  induction n : words.length using Nat.strongRecOn generalizing a words with
  | ind n ih =>
    subst n
    cases words with
    | nil =>
      obtain rfl := Option.some.inj h
      exact ⟨["--", text], .inr rfl, read?_separator (by decide) none_given text⟩
    | cons word words =>
      cases step_of_read? h with
      | separator eq separator rest =>
        obtain ⟨rfl, rfl⟩ := eq_of_foldlM_setExpression rest none_given
        rw [eq]
        exact ⟨[text], .inl rfl, read?_separator separator none_given text⟩
      | expression _ taken rest =>
        obtain ⟨-, rfl⟩ := setExpression_eq_some_iff.mp taken
        cases expression_eq_none_of_read? rest none_given
      | @flag used more next eq some_word same taken rest =>
        rw [eq, List.length_append] at ih
        have shorter := List.length_pos_iff.mpr some_word
        obtain ⟨last, form, read⟩ := ih more.length (by omega) rest rfl
        exact ⟨last, form, by rw [eq, List.append_assoc, taken, read]⟩

end Arguments

variable {a : Arguments} {console : Console}

theorem run_encoded (reads : a.readsInput = true) (text : String) :
    runOn console a (encoded text) = concat ((nonblank (textLines text)).map fun line =>
      answerIn console.inColor a.maxDepth a.isJson (.ofExpression line)) := by
  rw [runOn, if_pos reads, batch_cutLines (reads_encoded text), ending_nil, append_empty]

theorem run_withExpression (reads : a.readsInput = true) (text : String) (input : List UInt8) :
    runOn console (a.withExpression text) input =
      answerIn console.inColor a.maxDepth a.isJson (.ofExpression text) := by
  have no_input : (a.withExpression text).readsInput = false := rfl
  rw [runOn, if_neg (by rw [no_input]; exact Bool.false_ne_true),
    Arguments.request_of_readsInput reads]
  rfl

theorem run_of_reads (reads : a.readsInput = true) {input : List UInt8} {texts : List String}
    {bad : List (List UInt8)} (read : Reads (lines lineFeed carriageReturn input) texts bad)
    (other : List UInt8) : runOn console a input =
      concat ((nonblank texts).map fun text => runOn console (a.withExpression text) other) ++
        ending console bad := by
  rw [runOn, if_pos reads, batch_cutLines read]
  simp only [run_withExpression reads]

/-- What some runs write one after the other, and a report after that if a bad line follows. All
goes well if every run does and there is no bad line. -/
structure Joins (console : Console) (t : Transcript) (runs : List Transcript)
    (bad : List (List UInt8)) : Prop where
  output : t.output = String.join (runs.map (·.output))
  errors : t.errors =
    String.join (runs.map (·.errors)) ++ if bad = [] then "" else console.encodingReport
  exitCode : t.exitCode = 0 ↔ bad = [] ∧ ∀ run ∈ runs, run.exitCode = 0

theorem joins_concat (console : Console) (runs : List Transcript) (bad : List (List UInt8)) :
    Joins console (concat runs ++ ending console bad) runs bad := by
  unfold ending
  refine ⟨?output, ?errors, ?exitCode⟩
  case output =>
    rw [output_append, output_concat]
    split_ifs <;> exact String.append_empty
  case errors =>
    rw [errors_append, errors_concat]
    split_ifs <;> rfl
  case exitCode =>
    simp only [exitCode_eq_zero_iff, isOk_append, isOk_concat, Bool.and_eq_true, List.all_eq_true]
    split_ifs with none_bad
    · simp [none_bad, empty]
    · simp [none_bad]

theorem Reads.append {first second : List (List UInt8)} {texts more : List String}
    {bad : List (List UInt8)} (h : Reads first texts []) (h' : Reads second more bad) :
    Reads (first ++ second) (texts ++ more) bad where
  eq := by
    have eq := h.eq
    rw [List.append_nil] at eq
    rw [eq, h'.eq, List.map_append, List.append_assoc]
  stops := h'.stops

theorem encoded_injective {s t : String} (same : encoded s = encoded t) : s = t := by
  have decoded : decode? (encoded t) = some s := decode?_eq_some_iff.mpr same
  exact Option.some.inj (decoded.symm.trans (decode?_eq_some_iff.mpr rfl))

theorem Reads.unique {lines bad bad' : List (List UInt8)} {texts texts' : List String}
    (h : Reads lines texts bad) (h' : Reads lines texts' bad') : texts = texts' ∧ bad = bad' := by
  induction texts generalizing lines texts' with
  | nil =>
    cases texts' with
    | nil => exact ⟨rfl, h.eq.symm.trans h'.eq⟩
    | cons text' texts' =>
      have same := h.eq.symm.trans h'.eq
      rw [List.map_nil, List.nil_append, List.map_cons, List.cons_append] at same
      exact absurd rfl (h.stops (encoded text') (by rw [same]; rfl) text')
  | cons text texts ih =>
    have same := h.eq.symm.trans h'.eq
    cases texts' with
    | nil =>
      rw [List.map_nil, List.nil_append, List.map_cons, List.cons_append] at same
      exact absurd rfl (h'.stops (encoded text) (by rw [← same]; rfl) text)
    | cons text' texts' =>
      rw [List.map_cons, List.map_cons, List.cons_append, List.cons_append, List.cons.injEq] at same
      obtain ⟨rest, rfl⟩ := ih ⟨rfl, h.stops⟩ ⟨same.2, h'.stops⟩
      exact ⟨by rw [encoded_injective same.1, rest], rfl⟩

theorem Reads.eq_nil {lines bad : List (List UInt8)} {texts : List String}
    (h : Reads lines texts bad) (decoded : ∀ line ∈ lines, ∃ text, encoded text = line) :
    bad = [] := by
  cases bad with
  | nil => rfl
  | cons line bad =>
    have member : line ∈ lines := by
      rw [h.eq]
      simp
    obtain ⟨text, same⟩ := decoded line member
    exact absurd same (h.stops line rfl text)

/-- What is written for an input is what is written for its lines up to the first that is not UTF-8,
in runs with the same flags and a line as the expression, wherever the errors go; words that give
these flags can be continued so that they give any expression. The lines before others, even if they
fail, change nothing about the others. -/
theorem run_joins_lines (reads : a.readsInput = true) (console : Console)
    (input other : List UInt8) :
    (∃ texts bad, Reads (lines lineFeed carriageReturn input) texts bad ∧
      Joins console (runOn console a input)
        ((nonblank texts).map fun text => runOn console (a.withExpression text) other) bad) ∧
    (∀ words text, Arguments.ofWords? words = some a → ∃ more,
      (more = [text] ∨ more = ["--", text]) ∧
        Arguments.ofWords? (words ++ more) = some (a.withExpression text)) ∧
    ∀ first, (∀ line ∈ lines lineFeed carriageReturn (first ++ [lineFeed]),
        ∃ text, encoded text = line) →
      runOn console a (first ++ lineFeed :: input) =
        runOn console a (first ++ [lineFeed]) ++ runOn console a input := by
  obtain ⟨texts, bad, read⟩ := exists_reads (lines lineFeed carriageReturn input)
  refine ⟨⟨texts, bad, read, ?_⟩, fun words text parsed => ?_, fun first decoded => ?_⟩
  · rw [run_of_reads reads read other]
    exact joins_concat console _ bad
  · exact Arguments.read?_expression parsed (Arguments.readsInput_iff.mp reads).1 text
  · obtain ⟨before, _, readFirst⟩ := exists_reads (lines _ _ (first ++ [lineFeed]))
    obtain rfl := readFirst.eq_nil decoded
    have whole := readFirst.append read
    rw [← lines_append] at whole
    rw [run_of_reads reads whole other, run_of_reads reads readFirst other,
      run_of_reads reads read other, ending_nil, append_empty, nonblank_append, List.map_append,
      concat_append, append_assoc]

/-- An open bracket, a sum on the line after it, and then a byte that is no character: the first two
lines are answered, the third is reported, and the last is not looked at. -/
theorem run_bracket_then_sum :
    (⟨some 3, true, none, none, none, none⟩ : Arguments).readsInput = true ∧
    Joins .pipe
      (runOn .pipe ⟨some 3, true, none, none, none, none⟩ [40, 10, 50, 43, 51, 10, 255, 10, 49])
      [runOn .pipe ⟨some 3, true, none, none, none, some "("⟩ [],
        runOn .pipe ⟨some 3, true, none, none, none, some "2+3"⟩ []] [[255], [49]] ∧
    runOn .pipe ⟨some 3, true, none, none, none, none⟩ ([40] ++ lineFeed :: [50, 43, 51]) =
      runOn .pipe ⟨some 3, true, none, none, none, none⟩ ([40] ++ [lineFeed]) ++
        runOn .pipe ⟨some 3, true, none, none, none, none⟩ [50, 43, 51] ∧
    ∃ more, (more = ["-2"] ∨ more = ["--", "-2"]) ∧
      Arguments.ofWords? (["--json", "--max-depth", "3"] ++ more) =
        some ⟨some 3, true, none, none, none, some "-2"⟩ := by
  have reads : (⟨some 3, true, none, none, none, none⟩ : Arguments).readsInput = true := rfl
  have cut : lines lineFeed carriageReturn [40, 10, 50, 43, 51, 10, 255, 10, 49] =
      ["(", "2+3"].map encoded ++ [[255], [49]] := by decide
  have bad : ∀ text, encoded text ≠ [255] := fun text same => by
    have decoded := decode?_eq_some_iff.mpr same
    have nothing : decode? [255] = none := by decide
    rw [nothing] at decoded
    cases decoded
  have parsed : Arguments.ofWords? ["--json", "--max-depth", "3"] =
      some ⟨some 3, true, none, none, none, none⟩ := by rfl
  refine ⟨reads, ?joins, ?apart, (run_joins_lines reads .pipe [] []).2.1 _ "-2" parsed⟩
  case joins =>
    obtain ⟨⟨texts, rest, read, joins⟩, -⟩ :=
      run_joins_lines reads .pipe [40, 10, 50, 43, 51, 10, 255, 10, 49] []
    have stops : ∀ line ∈ [[255], [49]].head?, ∀ text, encoded text ≠ line := by
      rintro line ⟨rfl⟩
      exact bad
    obtain ⟨rfl, rfl⟩ := read.unique ⟨cut, stops⟩
    exact joins
  case apart =>
    have whole : lines lineFeed carriageReturn ([40] ++ [lineFeed]) = [[40]] := by decide
    have bracket : encoded "(" = [40] := by decide
    refine (run_joins_lines reads .pipe [50, 43, 51] []).2.2 [40] ?_
    rw [whole]
    exact fun line member => ⟨"(", bracket.trans (List.mem_singleton.mp member).symm⟩

end Abacus.CommandLine
