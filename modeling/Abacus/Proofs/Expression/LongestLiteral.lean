import Mathlib
import Abacus.Decimal.Text
import Abacus.Proofs.Expression.Gaps
import Abacus.Proofs.Expression.Lockstep
import Abacus.Proofs.Source.Coordinates

/-!
One literal at a time. What a number takes is told from the text as typed: all there is of digits
and points from the next character on, up to the first that is neither, a blank being neither. The
form of this run decides what comes of it, so that a reader of doubles is only asked for what it can
read.
-/

namespace Abacus

open Text Literal Expression.Routine

/-- After the byte `p` of what is left without the blanks, `run` is all there is of digits and points
with nothing between them. -/
structure RunAt (cs : List Char) (p : Nat) (before run after : List Char) : Prop where
  text_eq : cs = before ++ (run ++ after)
  place : bytes (stripped before) = p
  visible : ∀ c ∈ (run ++ after).head?, isBlank c = false
  numeric : ∀ c ∈ run, isNumeric c = true
  stops : ∀ c ∈ after.head?, isNumeric c = false

theorem exists_runAt {cs : List Char} {p : Nat} (boundary : IsBoundary (stripped cs) p) :
    ∃ before run after, RunAt cs p before run after := by
  obtain ⟨xs, ys, chars, rfl⟩ := boundary
  obtain ⟨gs, hs, place, rfl, -⟩ := Source.exists_split ((Source.chars_ofChars cs).trans chars)
  obtain ⟨before, tail, text, dropped, visible, -⟩ := Glyph.strip_eq_append place
  have parts := List.takeWhile_append_dropWhile (p := isNumeric) (l := tail)
  refine ⟨before, tail.takeWhile isNumeric, tail.dropWhile isNumeric, ?_, ?_, ?_, ?_, ?_⟩
  · rw [parts, text]
  · rw [dropped]
  · rwa [parts]
  · exact fun c => List.mem_takeWhile_imp
  · intro c first
    have head := List.head?_dropWhile_not isNumeric tail
    rwa [Option.mem_def.mp first] at head

theorem RunAt.longest {cs : List Char} {p : Nat} {before run after : List Char}
    (h : RunAt cs p before run after) {other : List Char} (prefixed : other <+: run ++ after)
    (numeric : ∀ c ∈ other, isNumeric c = true) : other <+: run := by
  obtain ⟨more, parts⟩ := prefixed
  obtain ⟨further, rfl, -⟩ | ⟨further, rfl, tail⟩ := List.append_eq_append_iff.mp parts
  · exact List.prefix_append other further
  · cases further with
    | nil => simp
    | cons c further =>
      have stops := h.stops c (by simp [tail])
      simp [numeric c (by simp)] at stops

namespace Glyph

variable {position offset : Nat}

theorem le_offset_of_mem_strip {cs : List Char} {g : Glyph} (h : g ∈ strip position offset cs) :
    offset ≤ g.offset := by
  induction cs generalizing position offset with
  | nil => simp [strip] at h
  | cons c cs ih =>
    cases blank : isBlank c with
    | true =>
      rw [strip_blank blank] at h
      exact (Nat.le_add_right _ _).trans (ih h)
    | false =>
      rw [strip_cons blank, List.mem_cons] at h
      obtain rfl | later := h
      · exact le_rfl
      · exact (Nat.le_add_right _ _).trans (ih later)

theorem after_stop {g : Glyph} {after : List Char} (ends : g.offset + 1 = offset)
    (stops : ∀ c ∈ after.head?, isNumeric c = false) :
    Literal.after g (strip position offset after) = ([], strip position offset after) := by
  cases after with
  | nil => rfl
  | cons c cs =>
    cases blank : isBlank c with
    | true =>
      rw [strip_blank blank]
      cases rest : strip position (offset + c.utf8Size) cs with
      | nil => rfl
      | cons next rest =>
        have apart := le_offset_of_mem_strip (g := next) (rest ▸ List.mem_cons_self)
        have positive := c.utf8Size_pos
        have unfollowed : g.isFollowedBy next = false := by
          simp [isFollowedBy]
          omega
        rw [Literal.after, unfollowed, Bool.and_false, if_neg Bool.false_ne_true]
    | false =>
      rw [strip_cons blank, Literal.after, stops c rfl, Bool.false_and, if_neg Bool.false_ne_true]

theorem after_run {g : Glyph} {run after : List Char} (ends : g.offset + 1 = offset)
    (numeric : ∀ c ∈ run, isNumeric c = true) (stops : ∀ c ∈ after.head?, isNumeric c = false) :
    Literal.after g (strip position offset (run ++ after)) =
      (strip position offset run, strip (position + run.length) (offset + run.length) after) := by
  induction run generalizing g position offset with
  | nil => exact after_stop ends stops
  | cons c run ih =>
    rw [List.forall_mem_cons] at numeric
    have solid := isBlank_of_isNumeric numeric.1
    have size := Expression.utf8Size_of_isNumeric numeric.1
    have followed : g.isFollowedBy ⟨c, position, offset⟩ = true := by simp [isFollowedBy, ends]
    have more : Literal.after ⟨c, position, offset⟩
        (strip (position + 1) (offset + 1) (run ++ after)) = _ := ih rfl numeric.2
    rw [List.cons_append, strip_cons solid, strip_cons solid, size, Literal.after, numeric.1,
      followed, Bool.and_true, if_pos rfl, more, List.length_cons, Nat.add_right_comm position,
      Nat.add_right_comm offset]
    rfl

theorem split_run {run after : List Char} (visible : ∀ c ∈ (run ++ after).head?, isBlank c = false)
    (numeric : ∀ c ∈ run, isNumeric c = true) (stops : ∀ c ∈ after.head?, isNumeric c = false) :
    Literal.split (strip position offset (run ++ after)) =
      (strip position offset run, strip (position + run.length) (offset + run.length) after) := by
  cases run with
  | nil =>
    cases after with
    | nil => rfl
    | cons c after =>
      rw [List.nil_append, strip_cons (visible c rfl), Literal.split, stops c rfl,
        if_neg Bool.false_ne_true]
      exact congrArg _ (strip_cons (visible c rfl) _ _ _).symm
  | cons c run =>
    rw [List.forall_mem_cons] at numeric
    have solid := isBlank_of_isNumeric numeric.1
    have size := Expression.utf8Size_of_isNumeric numeric.1
    have more : Literal.after ⟨c, position, offset⟩
        (strip (position + 1) (offset + 1) (run ++ after)) = _ := after_run rfl numeric.2 stops
    rw [List.cons_append, strip_cons solid, strip_cons solid, size, Literal.split, numeric.1,
      if_pos rfl, more, List.length_cons, Nat.add_right_comm position, Nat.add_right_comm offset]
    rfl

end Glyph

namespace RunAt

variable {cs before run after : List Char} {p : Nat} (h : RunAt cs p before run after)
include h

theorem bytes_run : bytes run = run.length := by
  have ones : ∀ cs : List Char, (∀ c ∈ cs, isNumeric c = true) → bytes cs = cs.length := by
    intro cs numeric
    induction cs with
    | nil => rfl
    | cons c cs ih =>
      rw [List.forall_mem_cons] at numeric
      rw [bytes_cons, Expression.utf8Size_of_isNumeric numeric.1, ih numeric.2, List.length_cons,
        Nat.add_comm]
  exact ones run h.numeric

theorem map_char_run (position offset : Nat) :
    (Glyph.strip position offset run).map Glyph.char = run := by
  rw [Glyph.strip_chars, List.filter_eq_self]
  intro c member
  rw [isBlank_of_isNumeric (h.numeric c member), Bool.not_false]

theorem glyphs_eq : (Source.ofChars cs).glyphs =
    Glyph.strip 0 0 before ++ Glyph.strip p (bytes before) (run ++ after) := by
  have cut := Glyph.strip_append 0 0 before (run ++ after)
  rwa [Nat.zero_add, Nat.zero_add, h.place, ← h.text_eq] at cut

theorem position_eq :
    (Source.ofChars cs).position (Glyph.strip p (bytes before) (run ++ after)) = p := by
  rw [Source.position_eq h.glyphs_eq, Glyph.strip_chars]
  exact h.place

theorem split_eq : Literal.split (Glyph.strip p (bytes before) (run ++ after)) =
    (Glyph.strip p (bytes before) run,
      Glyph.strip (p + run.length) (bytes before + run.length) after) :=
  Glyph.split_run h.visible h.numeric h.stops

theorem append_eq : Glyph.strip p (bytes before) run ++
    Glyph.strip (p + run.length) (bytes before + run.length) after =
      Glyph.strip p (bytes before) (run ++ after) := by
  have parts := Literal.split_append (Glyph.strip p (bytes before) (run ++ after))
  rwa [h.split_eq] at parts

theorem position_after : (Source.ofChars cs).position
    (Glyph.strip (p + run.length) (bytes before + run.length) after) = p + run.length := by
  have glyphs := h.glyphs_eq
  rw [← h.append_eq] at glyphs
  rw [← Source.position_add_bytes glyphs, h.append_eq, h.position_eq, h.map_char_run, h.bytes_run]

theorem head?_eq : (Glyph.strip p (bytes before) (run ++ after)).head?.map Glyph.char =
    (run ++ after).head? := by
  have visible := h.visible
  cases tail : run ++ after with
  | nil => rfl
  | cons c tail => rw [Glyph.strip_cons (visible c (by simp [tail]))]; rfl

theorem span_eq : (Source.ofChars cs).span (Glyph.strip p (bytes before) (run ++ after)) =
    ⟨bytes before, bytes before + (run ++ after).head?.elim 0 Char.utf8Size⟩ := by
  have visible := h.visible
  have text := h.text_eq
  cases tail : run ++ after with
  | nil =>
    rw [tail, List.append_nil] at text
    rw [text]
    rfl
  | cons c tail => rw [Glyph.strip_cons (visible c (by simp [tail]))]; rfl

theorem literal_span (something : run ≠ []) :
    Literal.span (Source.ofChars cs) (Glyph.strip p (bytes before) run)
        (Glyph.strip (p + run.length) (bytes before + run.length) after) =
      ⟨bytes before, bytes before + run.length⟩ := by
  have some_glyph : Glyph.strip p (bytes before) run ≠ [] := by
    intro nothing
    have chars := h.map_char_run p (bytes before)
    rw [nothing] at chars
    exact something chars.symm
  have contiguous := Expression.contiguous_split (Glyph.strip p (bytes before) (run ++ after))
  have numeric := Expression.isNumeric_split (s := Glyph.strip p (bytes before) (run ++ after))
  have glyphs := h.glyphs_eq
  rw [← h.append_eq] at glyphs
  rw [h.split_eq] at contiguous numeric
  obtain ⟨_, _, cuts, -⟩ := Expression.cuts_run glyphs some_glyph contiguous numeric
  have start : (Literal.span (Source.ofChars cs) (Glyph.strip p (bytes before) run)
      (Glyph.strip (p + run.length) (bytes before + run.length) after)).start = bytes before := by
    rw [Literal.span, h.append_eq, h.span_eq]
  have stop := cuts.stop_eq
  rw [← cuts.start_eq, start, h.map_char_run, h.bytes_run] at stop
  exact congrArg₂ Span.mk start stop

end RunAt

def valueAt (cs : List Char) (p : Nat) (before run after : List Char) : Except Fault Float :=
  Literal.value (Source.ofChars cs) (Glyph.strip p (bytes before) run)
    (Glyph.strip (p + run.length) (bytes before + run.length) after)

namespace RunAt

variable {cs before run after : List Char} {p : Nat} (h : RunAt cs p before run after)
include h

theorem valueAt_nil (nothing : run = []) : valueAt cs p before run after =
    .error ⟨.expectedNumber after.head? p,
      some ⟨bytes before, bytes before + after.head?.elim 0 Char.utf8Size⟩⟩ := by
  have head := h.head?_eq
  have span := h.span_eq
  have position := h.position_eq
  subst nothing
  rw [List.nil_append] at head span position
  have still (n : Nat) : n + ([] : List Char).length = n := rfl
  rw [valueAt, Literal.value, if_pos (by rfl), still, still, head, span, position]

theorem valueAt_numeral {x : Expression.Numeral} (text : x.text = run) :
    valueAt cs p before run after = .ok x.decimal.toFloat :=
  Expression.literal_value ((h.map_char_run _ _).trans text.symm) _ _

theorem exists_numeral {v : Float} (value : valueAt cs p before run after = .ok v) :
    ∃ x : Expression.Numeral, x.text = run := by
  obtain ⟨x, text, -⟩ := Expression.exists_of_literal_value value
  exact ⟨x, text.symm.trans (h.map_char_run _ _)⟩

theorem valueAt_invalid (something : run ≠ []) (other : ∀ x : Expression.Numeral, x.text ≠ run) :
    valueAt cs p before run after = .error ⟨.invalidNumber (String.ofList run) p,
      some ⟨bytes before, bytes before + run.length⟩⟩ := by
  have chars := h.map_char_run p (bytes before)
  have some_glyph : Glyph.strip p (bytes before) run ≠ [] := by
    intro nothing
    rw [nothing] at chars
    exact something chars.symm
  rw [valueAt, Literal.value, if_neg some_glyph, chars, Expression.Numeral.decimal?_eq_none other,
    h.append_eq, h.position_eq, h.literal_span something]

end RunAt

namespace Expression

namespace Numeral

theorem read?_text (x : Numeral) : Decimal.read? x.text = some x.decimal := by
  have stop := not_isDigit_head_fraction x.fraction
  obtain ⟨c, cs, whole⟩ := List.exists_cons_of_ne_nil x.whole_ne_nil
  unfold Decimal.read? text decimal
  rw [takeWhile_append_of_stop x.whole_isDigit stop, dropWhile_append_of_stop x.whole_isDigit stop]
  cases fraction : x.fraction with
  | none => simp [whole]
  | some ds =>
    have digits := x.fraction_isDigit ds fraction
    have taken : ds.takeWhile Char.isDigit = ds := by simpa using digits
    have dropped : ds.dropWhile Char.isDigit = [] := by simpa using digits
    simp [whole, taken, dropped]

theorem toLower_digit {c : Char} (digit : c.isDigit = true) : c.toLower = c := by
  refine Char.toLower_eq_of_not_isUpper fun upper => ?_
  simp only [Char.isUpper, Char.isDigit, Bool.and_eq_true, decide_eq_true_eq] at upper digit
  have between : 'A'.val ≤ '9'.val := UInt32.le_trans upper.1 digit.2
  exact absurd between (by decide)

theorem readFloat?_text (x : Numeral) :
    Decimal.readFloat? (String.ofList x.text) = some x.decimal.toFloat := by
  obtain ⟨c, cs, text, digit⟩ := x.exists_text_eq_cons
  have other {d : Char} (letter : d.isDigit = false) : c ≠ d := by
    rintro rfl
    simp [digit] at letter
  have unsigned : Decimal.readUnsigned? x.text = some x.decimal.toFloat := by
    have unnamed {d : Char} (letter : d.isDigit = false) (rest : List Char) :
        x.text.map Char.toLower ≠ d :: rest := by
      simp [text, toLower_digit digit, other letter]
    have infinite : ¬ (x.text.map Char.toLower = "inf".toList ∨
        x.text.map Char.toLower = "infinity".toList) := not_or.mpr ⟨unnamed rfl _, unnamed rfl _⟩
    have undefined : x.text.map Char.toLower ≠ "nan".toList := unnamed rfl _
    rw [Decimal.readUnsigned?, if_neg infinite, if_neg undefined, x.read?_text]
    rfl
  rw [Decimal.readFloat?, String.toList_ofList]
  split
  · next minus => exact absurd (List.cons.inj (text.symm.trans minus)).1 (other rfl)
  · next plus => exact absurd (List.cons.inj (text.symm.trans plus)).1 (other rfl)
  · exact unsigned

end Numeral

def isDecimal (cs : List Char) : Bool :=
  let whole := cs.takeWhile (· != '.')
  let fraction := (cs.dropWhile (· != '.')).drop 1
  !whole.isEmpty && whole.all Char.isDigit && fraction.all Char.isDigit

theorem isDecimal_iff {cs : List Char} : isDecimal cs = true ↔ ∃ x : Numeral, x.text = cs := by
  constructor
  · intro form
    simp only [isDecimal, Bool.and_eq_true, Bool.not_eq_true', List.isEmpty_eq_false_iff,
      List.all_eq_true] at form
    obtain ⟨⟨some_digit, whole⟩, fraction⟩ := form
    have parts := List.takeWhile_append_dropWhile (p := (· != '.')) (l := cs)
    cases rest : cs.dropWhile (· != '.') with
    | nil =>
      refine ⟨⟨_, none, some_digit, whole, by simp⟩, ?_⟩
      rw [rest] at parts
      exact parts
    | cons point ds =>
      have head := List.head?_dropWhile_not (· != '.') cs
      rw [rest] at head fraction parts
      obtain rfl : point = '.' := by simpa using head
      exact ⟨⟨_, some ds, some_digit, whole, by simpa using fraction⟩, parts⟩
  · rintro ⟨x, rfl⟩
    have digits : ∀ c ∈ x.whole, (c != '.') = true := by
      intro c member
      have digit := x.whole_isDigit c member
      simp only [bne_iff_ne, ne_eq]
      rintro rfl
      simp at digit
    have stop : ∀ c ∈ (x.fraction.elim [] ('.' :: ·)).head?, (c != '.') = false := by
      cases x.fraction <;> simp
    have fraction := x.fraction_isDigit
    have some_digit := x.whole_ne_nil
    have whole := x.whole_isDigit
    unfold isDecimal Numeral.text
    rw [takeWhile_append_of_stop digits stop, dropWhile_append_of_stop digits stop]
    cases written : x.fraction <;> simp_all

namespace Evaluator

variable (ev : Evaluator)

/-- A number that is checked first and then read by the reader of doubles, which has a say in it too:
it might refuse what has passed the check. -/
def checkedNumber (refused : Routine Float) : Routine Float := within .number do
  let start := (← registers).cursor
  ev.digits start ev.budget
  let stop := (← registers).cursor
  if stop = start then
    let found ← ev.peek
    ev.raise (.expectedNumber found)
  else
    let text ← ofOption (slice? start stop ev.source.chars)
    if isDecimal text then
      match Decimal.readFloat? (String.ofList text) with
      | some x => return x
      | none => refused
    else
      halt (.fault
        ⟨.invalidNumber (String.ofList text) start, some (ev.source.spanBetween start stop)⟩)

theorem checkedNumber_eq (refused : Routine Float) : ev.checkedNumber refused = ev.number := by
  unfold checkedNumber number
  refine congrArg (within .number) ?_
  refine bind_congr fun entered => bind_congr fun _ => bind_congr fun left => ?_
  dsimp only
  split_ifs with nothing
  · rfl
  refine bind_congr fun text => ?_
  by_cases form : isDecimal text = true
  · obtain ⟨x, rfl⟩ := isDecimal_iff.mp form
    simp only [if_pos form, x.readFloat?_text, x.decimal?_text]
  · have unread : Literal.decimal? text = none :=
      Numeral.decimal?_eq_none fun x written => form (isDecimal_iff.mpr ⟨x, written⟩)
    simp only [if_neg form, unread]

variable {ev} {frames : List Frame} {d p : Nat} {before run after : List Char}

theorem run_number_at (fits : ev.Fits) (h : RunAt ev.text p before run after) :
    (ev.number frames ⟨p, d⟩).result = (valueAt ev.text p before run after).mapError .fault ∧
      (ev.number frames ⟨p, d⟩).registers = ⟨p + run.length, d⟩ := by
  have ran : ev.number frames ⟨_, d⟩ = _ := run_number fits ⟨_, h.glyphs_eq.symm⟩
  rw [h.split_eq, h.position_eq, h.position_after] at ran
  rw [ran]
  exact ⟨rfl, rfl⟩

end Evaluator

/-- A number takes one literal and all of it, from any place between two characters and at any depth:
the run that the text has there and no blank interrupts. It has a value exactly when the run is a
numeral, and that is the nearest double. Any other run is refused as a whole, with the cursor after
it, and where there is no run the cursor stays. That the reader of doubles might refuse a numeral is
provided for, but it never happens; and the production does the same at its place. -/
theorem Evaluator.number_takes_longest_literal (text : String) (limit capacity p depth : Nat)
    (frames : List Frame) (text_fits : bytes (stripped text.toList) ≤ capacity)
    (limit_fits : limit ≤ capacity) (boundary : IsBoundary (stripped text.toList) p) :
    let ev : Evaluator := ⟨text.toList, limit, capacity⟩
    let ran := ev.number frames ⟨p, depth⟩
    (∃ before run after, RunAt text.toList p before run after) ∧
    (∀ before run after, RunAt text.toList p before run after →
      (∀ other, other <+: run ++ after → (∀ c ∈ other, isNumeric c = true) → other <+: run) ∧
      ran.registers = ⟨p + run.length, depth⟩ ∧
      ((∃ v, ran.result = .ok v) ↔ ∃ x : Numeral, x.text = run) ∧
      (∀ x : Numeral, x.text = run → ∃ v, ran.result = .ok v ∧ x.decimal.IsNearest v) ∧
      (run ≠ [] → (∀ x : Numeral, x.text ≠ run) → ran.result = .error (.fault
        ⟨.invalidNumber (String.ofList run) p, some ⟨bytes before, bytes before + run.length⟩⟩)) ∧
      (run = [] → ran.result = .error (.fault ⟨.expectedNumber after.head? p,
        some ⟨bytes before, bytes before + after.head?.elim 0 Char.utf8Size⟩⟩))) ∧
    (∀ refused, ev.checkedNumber refused = ev.number) ∧
    ∀ s, s <:+ ev.source.glyphs → ev.source.position s = p →
      ran.result = ((Literal.number ev.source).run s).1.mapError .fault ∧
      ran.registers.cursor = ev.source.position ((Literal.number ev.source).run s).2 := by
  intro ev ran
  have fits : ev.Fits := ⟨text_fits, limit_fits⟩
  refine ⟨exists_runAt boundary, fun before run after h => ?_, ev.checkedNumber_eq, ?_⟩
  · obtain ⟨result, registers⟩ : ran.result = _ ∧ ran.registers = _ := run_number_at fits h
    have failed {f : Fault} (error : valueAt text.toList p before run after = .error f) :
        ran.result = .error (.fault f) := result.trans (congrArg _ error)
    have numeral (x : Numeral) (written : x.text = run) :
        ran.result = .ok x.decimal.toFloat := result.trans (congrArg _ (h.valueAt_numeral written))
    refine ⟨fun other => h.longest, registers,
      ⟨fun ⟨v, ok⟩ => ?_, fun ⟨x, written⟩ => ⟨_, numeral x written⟩⟩,
      fun x written => ⟨_, numeral x written, Decimal.isNearest_iff.mpr rfl⟩,
      fun something other => failed (h.valueAt_invalid something other),
      fun nothing => failed (h.valueAt_nil nothing)⟩
    cases value : valueAt text.toList p before run after with
    | ok v => exact h.exists_numeral value
    | error f => exact absurd (ok.symm.trans (failed value)) (by simp)
  · rintro s left rfl
    have same : ran = _ := run_number fits left
    rw [same]
    exact ⟨rfl, rfl⟩

/-- A point before a blank belongs to the literal, the digit after the blank does not; and a run that
begins with a point is refused as a whole, before the letter. -/
theorem Evaluator.number_takes_point_and_refuses_run :
    RunAt "2*\u00a01. 5".toList 2 "2*\u00a0".toList "1.".toList " 5".toList ∧
    RunAt "4-.5.6x".toList 2 "4-".toList ".5.6".toList "x".toList ∧
    (let ran := Evaluator.number ⟨"2*\u00a01. 5".toList, 50, 99⟩ [] ⟨2, 0⟩
    ran.registers = ⟨4, 0⟩ ∧ ∃ v, ran.result = .ok v ∧ Decimal.IsNearest ⟨1, 0⟩ v) ∧
    let ran := Evaluator.number ⟨"4-.5.6x".toList, 50, 99⟩ [] ⟨2, 0⟩
    ran.registers = ⟨6, 0⟩ ∧
      ran.result = .error (.fault ⟨.invalidNumber ".5.6" 2, some ⟨2, 6⟩⟩) := by
  have point : RunAt "2*\u00a01. 5".toList 2 "2*\u00a0".toList "1.".toList " 5".toList :=
    ⟨by decide, by decide, by simp; decide, by simp [isNumeric], by simp [isNumeric]⟩
  have run : RunAt "4-.5.6x".toList 2 "4-".toList ".5.6".toList "x".toList :=
    ⟨by decide, by decide, by simp; decide, by simp [isNumeric], by simp [isNumeric]⟩
  have boundary : IsBoundary (stripped "2*\u00a01. 5".toList) 2 :=
    ⟨"2*".toList, "1.5".toList, by decide, by decide⟩
  have boundary' : IsBoundary (stripped "4-.5.6x".toList) 2 :=
    ⟨"4-".toList, ".5.6x".toList, by decide, by decide⟩
  obtain ⟨-, taken, -⟩ := number_takes_longest_literal "2*\u00a01. 5" 50 99 2 0 [] (by decide)
    (by decide) boundary
  obtain ⟨-, taken', -⟩ := number_takes_longest_literal "4-.5.6x" 50 99 2 0 [] (by decide)
    (by decide) boundary'
  obtain ⟨-, registers, -, valued, -⟩ := taken _ _ _ point
  obtain ⟨-, registers', -, -, refused, -⟩ := taken' _ _ _ run
  refine ⟨point, run, ⟨registers, ?_⟩, registers', refused (by decide) ?_⟩
  · exact valued ⟨['1'], some [], by simp, by simp, by simp⟩ rfl
  · intro x written
    have form := isDecimal_iff.mpr ⟨x, written⟩
    exact absurd form (by decide)

end Expression

end Abacus
