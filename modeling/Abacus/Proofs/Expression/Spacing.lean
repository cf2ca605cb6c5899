import Mathlib
import Abacus.Proofs.Expression.Alignment

/-!
Blanks and values. Blanks decide whether a text has a value only where they break a literal, and
never which value. Texts that differ in other blanks only are read side by side: every production
ends in the same value, or in the same fault of the same characters.
-/

namespace Abacus

namespace Expression

open Scan
open Literal (split)

inductive SameRange (src src' : Source) : Span → Span → Prop
  | here {s t} : Abreast src src' s t → SameRange src src' (src.span s) (src'.span t)
  | upTo {s t s' t'} {last last' : Glyph} : Abreast src src' s t →
      Abreast src src' (last :: s') (last' :: t') → last :: s' <:+ s →
      last.char.utf8Size = 1 →
      SameRange src src' ⟨(src.span s).start, last.offset + 1⟩
        ⟨(src'.span t).start, last'.offset + 1⟩

inductive SameFault (src src' : Source) : Fault → Fault → Prop
  | nowhere {cause} : SameFault src src' ⟨cause, none⟩ ⟨cause, none⟩
  | range {cause span span'} : SameRange src src' span span' →
      SameFault src src' ⟨cause, some span⟩ ⟨cause, some span'⟩

/-- From places abreast of each other to places abreast of each other, with the same value. -/
def Agree (src src' : Source) (x y : Production Float) : Prop :=
  ∀ s t, Abreast src src' s t → EndTogether x y s t
    (fun v w s' t' => v = w ∧ Abreast src src' s' t') (SameFault src src')

variable {src src' : Source} {s t : List Glyph} {limit n : Nat}

section Run

variable {run run' rest rest' : List Glyph}

theorem range_run (abreast : Abreast src src' (run ++ rest) (run' ++ rest'))
    (further : Abreast src src' rest rest') (chars : run.map Glyph.char = run'.map Glyph.char)
    (numeric : ∀ g ∈ run, Literal.isNumeric g.char = true) (some_glyph : run ≠ []) :
    SameRange src src' (Literal.span src run rest) (Literal.span src' run' rest') := by
  obtain ⟨pre, last, rfl⟩ := List.eq_nil_or_concat' run |>.resolve_left some_glyph
  obtain ⟨pre', tail', rfl, -, more⟩ :=
    List.map_eq_append_iff.mp (chars.symm.trans List.map_append)
  obtain ⟨last', nothing, rfl, -, empty⟩ := List.map_eq_cons_iff.mp more
  obtain rfl := List.map_eq_nil_iff.mp empty
  rw [List.append_assoc, List.append_assoc] at abreast
  have left : last :: rest <:+ pre ++ ([last] ++ rest) := List.suffix_append pre _
  have right : last' :: rest' <:+ pre' ++ ([last'] ++ rest') := List.suffix_append pre' _
  have abreast' := abreast.suffix left right (by simp [further.length_eq])
  have size := utf8Size_of_isNumeric (numeric last (by simp))
  simpa [Literal.span] using SameRange.upTo abreast abreast' left size

theorem value_cases (twins : Twins src src')
    (abreast : Abreast src src' (run ++ rest) (run' ++ rest'))
    (further : Abreast src src' rest rest') (chars : run.map Glyph.char = run'.map Glyph.char)
    (numeric : ∀ g ∈ run, Literal.isNumeric g.char = true) :
    (∃ v, Literal.value src run rest = .ok v ∧ Literal.value src' run' rest' = .ok v) ∨
      ∃ f f', Literal.value src run rest = .error f ∧ Literal.value src' run' rest' = .error f' ∧
        SameFault src src' f f' := by
  unfold Literal.value
  by_cases nothing : run = []
  · have nothing' : run' = [] := by
      rw [nothing] at chars
      exact List.map_eq_nil_iff.mp chars.symm
    rw [if_pos nothing, if_pos nothing', further.head?_eq twins, further.position_eq twins]
    exact .inr ⟨_, _, rfl, rfl, .range (.here further)⟩
  · have nothing' : run' ≠ [] := by
      rintro rfl
      exact nothing (List.map_eq_nil_iff.mp chars)
    rw [if_neg nothing, if_neg nothing', ← chars, abreast.position_eq twins]
    cases Literal.decimal? (run.map Glyph.char) with
    | some d => exact .inl ⟨_, rfl, rfl⟩
    | none =>
      have range := range_run abreast further chars numeric nothing
      exact .inr ⟨_, _, rfl, rfl, .range range⟩

end Run

theorem run_number (src : Source) (s : List Glyph) : (Literal.number src).run s =
    (Literal.value src (split s).1 (split s).2, (split s).2) := rfl

theorem agree_number (twins : Twins src src') :
    Agree src src' (Literal.number src) (Literal.number src') := by
  intro s t abreast
  have chars := (abreast.aligned twins).split
  have further := abreast.split_rest twins
  have whole : Abreast src src' ((split s).1 ++ (split s).2) ((split t).1 ++ (split t).2) := by
    rwa [Literal.split_append, Literal.split_append]
  obtain ⟨v, hv, hv'⟩ | ⟨f, f', hf, hf', same⟩ :=
    value_cases twins whole further chars isNumeric_split
  · exact .of_ok (by rw [run_number, hv]) (by rw [run_number, hv']) ⟨rfl, further⟩
  · exact .of_error (by rw [run_number, hf]) (by rw [run_number, hf']) same

theorem agree_closing (twins : Twins src src') (abreast : Abreast src src' s t) :
    EndTogether (closing src) (closing src') s t
      (fun last last' s' t' => s = last :: s' ∧ Abreast src src' (last :: s') (last' :: t') ∧
        last.char = ')') (SameFault src src') := by
  have head := abreast.head?_eq twins
  refine .accept ?_ ?_ ?_
  · have same := congrArg (Option.any (· == ')')) head
    simpa only [Option.any_map] using same
  · rintro last s' last' t' rfl rfl char
    exact ⟨rfl, abreast, by simpa using char⟩
  · rw [← head, ← abreast.position_eq twins]
    exact .range (.here abreast)

theorem agree_root (twins : Twins src src') {x y : Production Float} (inside : Agree src src' x y)
    (abreast : Abreast src src' s t) : EndTogether (root src x) (root src' y) s t
      (fun v w s' t' => v = w ∧ Abreast src src' s' t') (SameFault src src') := by
  refine .bind (.look (.bind (.skip (.bind ?_))))
  refine (inside _ _ (abreast.drop _)).suffix.mono ?_
  rintro v _ s' t' ⟨⟨rfl, abreast'⟩, left⟩
  refine .bind ((agree_closing twins abreast').mono ?_)
  rintro last last' s' t' ⟨rfl, abreast', char⟩
  refine .ofExcept ?_
  obtain ⟨z, hz, hz'⟩ | ⟨hz, hz'⟩ := squareRoot_cases v (some ⟨(src.span s).start, last.offset + 1⟩)
    (some ⟨(src'.span t).start, last'.offset + 1⟩)
  · exact .inl ⟨z, z, hz, hz', rfl, abreast'.tail⟩
  · have size : last.char.utf8Size = 1 := by rw [char]; decide
    have range := SameRange.upTo abreast abreast' (left.trans (List.drop_suffix _ s)) size
    exact .inr ⟨_, _, hz, hz', .range range⟩

theorem agree_group (twins : Twins src src') {x y : Production Float} (inside : Agree src src' x y)
    (abreast : Abreast src src' s t) : EndTogether (group src x) (group src' y) s t
      (fun v w s' t' => v = w ∧ Abreast src src' s' t') (SameFault src src') := by
  refine .bind (.skip (.bind ?_))
  refine (inside _ _ (abreast.drop _)).mono ?_
  rintro v _ s' t' ⟨rfl, abreast'⟩
  refine .bind ((agree_closing twins abreast').mono ?_)
  rintro last last' s' t' ⟨rfl, abreast', -⟩
  exact .pure ⟨rfl, abreast'.tail⟩

theorem agree_function (twins : Twins src src') {x y : Production Float}
    (inside : Agree src src' x y) : Agree src src' (function src x) (function src' y) := by
  intro s t abreast
  refine .bind (.look ?_)
  rw [← abreast.beginsWith_eq twins, ← abreast.beginsWith_eq twins]
  cases beginsWith rootWord s with
  | true => exact agree_root twins inside abreast
  | false =>
    cases beginsWith ['('] s with
    | true => exact agree_group twins inside abreast
    | false => exact agree_number twins s t abreast

theorem agree_unary (twins : Twins src src') {x y : Production Float}
    (inside : Agree src src' x y) : Agree src src' (unary src x) (unary src' y) := by
  intro s t abreast
  refine .bind (.takeWhile ?_)
  have length := abreast.takeWhile_length twins (· == '-')
  have further := abreast.dropWhile twins (· == '-')
  refine .bind ((agree_function twins inside _ _ further).mono ?_)
  rintro v _ s' t' ⟨rfl, abreast'⟩
  exact .pure ⟨by rw [length], abreast'⟩

theorem Abreast.cases (abreast : Abreast src src' s t) (twins : Twins src src') :
    s = [] ∧ t = [] ∨ ∃ g s' h t', s = g :: s' ∧ t = h :: t' ∧ g.char = h.char := by
  cases abreast.aligned twins with
  | nil => exact .inl ⟨rfl, rfl⟩
  | cons char _ _ _ => exact .inr ⟨_, _, _, _, rfl, rfl, char⟩

theorem operator?_congr {kind : Operator → Bool} {g h : Glyph} (char : g.char = h.char) :
    operator? kind g = operator? kind h := by
  rw [operator?, operator?, char]

theorem agree_powers (twins : Twins src src') {x y : Production Float}
    (inside : Agree src src' x y) (tower : Tower) (abreast : Abreast src src' s t) :
    EndTogether (chain (powers src x) tower) (chain (powers src' y) tower) s t
      (fun a b s' t' => a = b ∧ Abreast src src' s' t') (SameFault src src') := by
  refine .chain ⟨rfl, abreast⟩ ?_
  rintro tower _ s t ⟨rfl, abreast⟩
  obtain ⟨rfl, rfl⟩ | ⟨g, s, h, t, rfl, rfl, char⟩ := abreast.cases twins
  · exact .inl ⟨by simp, by simp⟩
  · have same : operator? (· == .power) g = operator? _ h := operator?_congr char
    cases found : operator? (· == .power) g with
    | none => exact .inl ⟨by simp [powers, found], by simp [powers, ← same, found]⟩
    | some op =>
      have joint : powers src x g = some (raise src x) := by rw [powers, found]; rfl
      have joint' : powers src' y h = some (raise src' y) := by rw [powers, ← same, found]; rfl
      refine .inr ⟨g, s, _, h, t, _, rfl, joint, rfl, joint', ?_⟩
      refine .bind ((agree_unary twins inside s t abreast.tail).mono ?_)
      rintro w _ s t ⟨rfl, abreast⟩
      exact .pure ⟨rfl, abreast⟩

theorem agree_power (twins : Twins src src') {x y : Production Float}
    (inside : Agree src src' x y) : Agree src src' (power src x) (power src' y) := by
  intro s t abreast
  refine .bind ((agree_unary twins inside s t abreast).mono ?_)
  rintro v _ s t ⟨rfl, abreast⟩
  refine .bind ((agree_powers twins inside ⟨v, []⟩ abreast).mono ?_)
  rintro tower _ s t ⟨rfl, abreast⟩
  exact .pure ⟨rfl, abreast⟩

/-- Where both operations would point. -/
def SamePlace (src src' : Source) (span span' : Glyph → Option Span) : Prop :=
  ∀ g s h t, Abreast src src' (g :: s) (h :: t) → ∀ cause,
    SameFault src src' ⟨cause, span g⟩ ⟨cause, span' h⟩

theorem agree_operations (twins : Twins src src') {kind : Operator → Bool}
    {x y : Production Float} {span span' : Glyph → Option Span} (operand : Agree src src' x y)
    (place : SamePlace src src' span span') (v : Float) (abreast : Abreast src src' s t) :
    EndTogether (chain (operations kind x span) v) (chain (operations kind y span') v) s t
      (fun a b s' t' => a = b ∧ Abreast src src' s' t') (SameFault src src') := by
  refine .chain ⟨rfl, abreast⟩ ?_
  rintro v _ s t ⟨rfl, abreast⟩
  obtain ⟨rfl, rfl⟩ | ⟨g, s, h, t, rfl, rfl, char⟩ := abreast.cases twins
  · exact .inl ⟨by simp, by simp⟩
  · have same : operator? kind g = operator? kind h := operator?_congr char
    cases found : operator? kind g with
    | none => exact .inl ⟨by simp [operations, found], by simp [operations, ← same, found]⟩
    | some op =>
      have joint : operations kind x span g = some (operation x (span g) op) := by
        rw [operations, found]; rfl
      have joint' : operations kind y span' h = some (operation y (span' h) op) := by
        rw [operations, ← same, found]; rfl
      refine .inr ⟨g, s, _, h, t, _, rfl, joint, rfl, joint', ?_⟩
      refine .bind ((operand s t abreast.tail).mono ?_)
      rintro w _ s' t' ⟨rfl, abreast'⟩
      refine .ofExcept ?_
      obtain ⟨z, hz, hz'⟩ | ⟨-, hz, hz'⟩ := apply_cases op v w (span g) (span' h)
      · exact .inl ⟨z, z, hz, hz', rfl, abreast'⟩
      · exact .inr ⟨_, _, hz, hz', place g s h t abreast _⟩

theorem agree_term (twins : Twins src src') {x y : Production Float}
    (inside : Agree src src' x y) : Agree src src' (term src x) (term src' y) := by
  intro s t abreast
  refine .bind ((agree_power twins inside s t abreast).mono ?_)
  rintro v _ s t ⟨rfl, abreast⟩
  refine agree_operations twins (agree_power twins inside) ?_ v abreast
  exact fun g s h t abreast cause => .range (.here abreast)

theorem agree_expression (twins : Twins src src') (limit n : Nat) :
    Agree src src' (expression src limit n) (expression src' limit n) := by
  induction n with
  | zero => exact fun s t abreast => .range (.here abreast)
  | succ n ih =>
    intro s t abreast
    have read : EndTogether (sum src (expression src limit n)) (sum src' (expression src' limit n))
        s t (fun v w s' t' => v = w ∧ Abreast src src' s' t') (SameFault src src') := by
      refine .bind ((agree_term twins ih s t abreast).mono ?_)
      rintro v _ s t ⟨rfl, abreast⟩
      refine agree_operations twins (agree_term twins ih) ?_ v abreast
      exact fun g s h t abreast cause => .nowhere
    exact read

theorem agree_whole (twins : Twins src src') (limit : Nat) (abreast : Abreast src src' s t) :
    EndTogether (whole src limit) (whole src' limit) s t (fun v w _ _ => v = w)
      (SameFault src src') := by
  refine .bind ((agree_expression twins limit limit s t abreast).mono ?_)
  rintro v _ s t ⟨rfl, abreast⟩
  refine .bind (.look ?_)
  have position := abreast.position_eq twins
  obtain ⟨rfl, rfl⟩ | ⟨g, s, h, t, rfl, rfl, char⟩ := abreast.cases twins
  · exact .pure rfl
  · have fault : SameFault src src' ⟨.unexpectedCharacter g.char g.position, some g.span⟩
        ⟨.unexpectedCharacter h.char h.position, some h.span⟩ := by
      rw [← char, ← show g.position = h.position from position]
      exact .range (.here abreast)
    exact .failWith fault

end Expression

open Text Expression

def Span.Covers (span : Span) (cs : List Char) (first last : Nat) : Prop :=
  ∃ before marked after, span.Cuts cs before marked after ∧ bytes (stripped before) = first ∧
    first + bytes (stripped marked) = last

/-- What two texts with the same characters have in common: a value, or a fault with its cause and
what it marks. -/
inductive SameOutcome (cs ds : List Char) : Except Fault Float → Except Fault Float → Prop
  | value {v} : SameOutcome cs ds (.ok v) (.ok v)
  | nowhere {cause} : SameOutcome cs ds (.error ⟨cause, none⟩) (.error ⟨cause, none⟩)
  | range {cause span span' first last} : Span.Covers span cs first last →
      Span.Covers span' ds first last →
      SameOutcome cs ds (.error ⟨cause, some span⟩) (.error ⟨cause, some span'⟩)

theorem Source.covers_span {cs : List Char} {gs hs : List Glyph}
    (h : (Source.ofChars cs).glyphs = gs ++ hs) : ((Source.ofChars cs).span hs).Covers cs
      (bytes (gs.map Glyph.char))
      (bytes (gs.map Glyph.char) + bytes (hs.head?.map Glyph.char).toList) := by
  obtain ⟨before, after, cuts, chars, -⟩ := Source.cuts_span h
  refine ⟨before, _, after, cuts, by rw [chars], ?_⟩
  cases hs with
  | nil => rfl
  | cons g hs =>
    have member : g ∈ (Source.ofChars cs).glyphs := by simp [h]
    simp [stripped_cons (Source.isBlank_of_mem_glyphs member)]

theorem Source.covers_between {cs : List Char} {gs hs rest : List Glyph} {last : Glyph}
    (size : last.char.utf8Size = 1)
    (h : (Source.ofChars cs).glyphs = gs ++ (hs ++ last :: rest)) :
    Span.Covers ⟨((Source.ofChars cs).span (hs ++ last :: rest)).start, last.offset + 1⟩ cs
      (bytes (gs.map Glyph.char))
      (bytes (gs.map Glyph.char) + (bytes (hs.map Glyph.char) + 1)) := by
  obtain ⟨before, inside, after, cuts, chars, chars', -⟩ := Source.cuts_between size h
  have member : last ∈ (Source.ofChars cs).glyphs := by simp [h]
  refine ⟨before, _, after, cuts, by rw [chars], ?_⟩
  rw [stripped_append, chars', stripped_cons (Source.isBlank_of_mem_glyphs member)]
  simp [size]

theorem sameRange_covers {cs ds : List Char} {span span' : Span}
    (twins : Twins (Source.ofChars cs) (Source.ofChars ds))
    (h : SameRange (Source.ofChars cs) (Source.ofChars ds) span span') :
    ∃ first last, span.Covers cs first last ∧ span'.Covers ds first last := by
  cases h with
  | here abreast =>
    obtain ⟨gs, hs, left, right, chars⟩ := abreast.before twins
    have covers := Source.covers_span left
    rw [chars, abreast.head?_eq twins] at covers
    exact ⟨_, _, covers, Source.covers_span right⟩
  | upTo abreast abreast' suffix size =>
    obtain ⟨gs, hs, left, right, chars⟩ := abreast.before twins
    obtain ⟨ms, ns, rfl, rfl, chars'⟩ := abreast.between twins abreast' suffix
    have char := Option.some.inj (abreast'.head?_eq twins)
    have covers := Source.covers_between size left
    rw [chars, chars'] at covers
    exact ⟨_, _, covers, Source.covers_between (char ▸ size) right⟩

theorem sameOutcome_of_twins {cs ds : List Char} (limit : Nat)
    (twins : Twins (Source.ofChars cs) (Source.ofChars ds)) :
    SameOutcome cs ds ((Source.ofChars cs).evaluate limit)
      ((Source.ofChars ds).evaluate limit) := by
  have start : Abreast (Source.ofChars cs) (Source.ofChars ds) _ _ :=
    ⟨List.suffix_refl _, List.suffix_refl _, twins.aligned.length_eq⟩
  by_cases nothing : (Source.ofChars cs).glyphs = []
  · have nothing' : (Source.ofChars ds).glyphs = [] := by
      rw [← List.length_eq_zero_iff, ← twins.aligned.length_eq, nothing, List.length_nil]
    rw [Source.evaluate_nil nothing, Source.evaluate_nil nothing']
    exact .nowhere
  · have nothing' : (Source.ofChars ds).glyphs ≠ [] := by
      rwa [ne_eq, ← List.length_eq_zero_iff, ← twins.aligned.length_eq, List.length_eq_zero_iff]
    obtain ⟨v, evaluated, other⟩ | ⟨f, failed, other⟩ :=
      Source.evaluate_ends nothing (agree_whole twins limit start)
    · obtain ⟨w, evaluated', rfl⟩ | ⟨f, -, impossible⟩ := Source.evaluate_ends nothing' other
      · rw [evaluated, evaluated']
        exact .value
      · exact impossible.elim
    · obtain ⟨w, -, impossible⟩ | ⟨f', failed', fault⟩ := Source.evaluate_ends nothing' other
      · exact impossible.elim
      · rw [failed, failed']
        cases fault with
        | nowhere => exact .nowhere
        | range range =>
          obtain ⟨first, last, covers, covers'⟩ := sameRange_covers twins range
          exact .range covers covers'

/-- Blanks do not change a value. Texts with the same gaps fare alike altogether, and blanks put
inside a literal leave a text without a value. -/
theorem evaluate_blanks {one two : String} (same : stripped one.toList = stripped two.toList)
    (limit : Nat) :
    (∀ v w, evaluate one limit = .ok v → evaluate two limit = .ok w → v = w) ∧
    ((∀ i, HasGap one.toList i ↔ HasGap two.toList i) →
      SameOutcome one.toList two.toList (evaluate one limit) (evaluate two limit)) ∧
    ∀ before a blanks b after, one.toList = before ++ a :: b :: after →
      two.toList = before ++ a :: (blanks ++ b :: after) → Literal.isNumeric a = true →
      Literal.isNumeric b = true → blanks ≠ [] → allBlank blanks = true →
      ∃ f, evaluate two limit = .error f := by
  refine ⟨fun v w hv hw => ?_, fun gaps => ?_, ?_⟩
  · obtain ⟨t, derived, value⟩ := Source.evaluate_ok_iff.mp hv
    obtain ⟨u, derived', value'⟩ := Source.evaluate_ok_iff.mp hw
    have chars : (Source.ofText one).chars = (Source.ofText two).chars := by
      rw [Source.ofText, Source.ofText, Source.chars_ofChars, Source.chars_ofChars]
      exact same
    obtain rfl := derived.tree_unique derived' chars
    exact Option.some.inj (value.symm.trans value')
  · exact sameOutcome_of_twins limit (twins_of_gaps same gaps)
  · intro before a blanks b after _ text ha hb some_blank blank
    have gap : HasGap two.toList _ :=
      ⟨before, a, blanks, b, after, text, rfl, ha, hb, some_blank, blank⟩
    exact gap.evaluate_error limit

theorem evaluate_spaced_sum : evaluate "1 +2" 1 = .ok 3 ∧ evaluate "1+ 2" 1 = .ok 3 ∧
    SameOutcome "1 +2".toList "1+ 2".toList (evaluate "1 +2" 1) (evaluate "1+ 2" 1) ∧
    ∃ f, evaluate "1 2" 1 = .error f := by
  have same : stripped "1 +2".toList = stripped "1+ 2".toList := by decide +kernel
  have left : Unbroken (Source.ofText "1 +2").glyphs := by unfold Unbroken; decide +kernel
  have right : Unbroken (Source.ofText "1+ 2").glyphs := by unfold Unbroken; decide +kernel
  have whole : stripped "12".toList = stripped "1 2".toList := by decide +kernel
  refine ⟨by decide +kernel, by decide +kernel, ?_, ?_⟩
  · refine (evaluate_blanks same 1).2.1 fun i => ?_
    exact iff_of_false (fun h => h.not_unbroken left) fun h => h.not_unbroken right
  · exact (evaluate_blanks whole 1).2.2 [] '1' [' '] '2' [] (by decide) (by decide) (by decide)
      (by decide) (by decide) (by decide)

end Abacus
