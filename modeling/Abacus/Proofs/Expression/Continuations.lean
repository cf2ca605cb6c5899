import Mathlib
import Abacus.Proofs.Expression.Location
import Abacus.Proofs.Expression.Places

/-!
A text and the texts that begin with it. What reading does before the end of a text it does in every
text that goes on from there, so a fault that has found a character is there to stay: no text that
begins so is an expression. The exceptions are few: the arithmetic, the limit, the end itself, and
the word for a root when the text ends inside of it.
-/

namespace Abacus

open Text

namespace Expression

open Scan

theorem Numeral.exists_of_beginning {x : Numeral} {cs ds : List Char} (text : x.text = cs ++ ds)
    (some_char : cs ≠ []) : ∃ y : Numeral, y.text = cs := by
  have of_whole : ∀ whole : List Char, whole ≠ [] → (∀ c ∈ whole, c.isDigit = true) →
      ∃ y : Numeral, y.text = whole := fun whole some_digit digits =>
    ⟨⟨whole, none, some_digit, digits, by simp⟩, by simp [Numeral.text]⟩
  obtain ⟨more, rfl, tail⟩ | ⟨more, whole, -⟩ := List.append_eq_append_iff.mp text
  · cases more with
    | nil => exact of_whole _ some_char (by simpa using x.whole_isDigit)
    | cons point more =>
      cases hf : x.fraction with
      | none => simp [hf] at tail
      | some fraction =>
        rw [hf, Option.elim_some, List.cons_append, List.cons.injEq] at tail
        obtain ⟨rfl, rfl⟩ := tail
        have digits : ∀ c ∈ more, c.isDigit = true := fun c hc =>
          x.fraction_isDigit _ hf c (List.mem_append_left ds hc)
        exact ⟨⟨x.whole, some more, x.whole_ne_nil, x.whole_isDigit, by simpa using digits⟩, rfl⟩
  · refine of_whole cs some_char fun c hc => x.whole_isDigit c ?_
    rw [whole]
    exact List.mem_append_left more hc

theorem decimal?_eq_none_of_beginning {cs ds : List Char} (none_here : Literal.decimal? cs = none)
    (le : cs <+: ds) (some_char : cs ≠ []) : Literal.decimal? ds = none := by
  obtain ⟨more, rfl⟩ := le
  refine Option.eq_none_iff_forall_ne_some.mpr fun d read => ?_
  obtain ⟨x, text, -⟩ := Numeral.exists_of_decimal? read
  obtain ⟨y, here⟩ := x.exists_of_beginning text.symm some_char
  rw [← here, y.decimal?_text] at none_here
  cases none_here

theorem after_append_right {g : Glyph} {s : List Glyph} (more : List Glyph)
    (left : (Literal.after g s).2 ≠ []) :
    Literal.after g (s ++ more) = ((Literal.after g s).1, (Literal.after g s).2 ++ more) := by
  induction s generalizing g with
  | nil => exact absurd rfl left
  | cons next s ih =>
    rw [List.cons_append, Literal.after, Literal.after] at *
    split_ifs at left ⊢
    · rw [ih left]
    · rfl

theorem after_grows (g : Glyph) (s more : List Glyph) :
    (Literal.after g s).1 <+: (Literal.after g (s ++ more)).1 := by
  induction s generalizing g with
  | nil => exact List.nil_prefix
  | cons next s ih =>
    rw [List.cons_append, Literal.after, Literal.after]
    split_ifs
    · exact List.cons_prefix_cons.mpr ⟨rfl, ih next⟩
    · exact List.nil_prefix

theorem split_append_right {s : List Glyph} (more : List Glyph) (left : (Literal.split s).2 ≠ []) :
    Literal.split (s ++ more) = ((Literal.split s).1, (Literal.split s).2 ++ more) := by
  cases s with
  | nil => exact absurd rfl left
  | cons g s =>
    rw [List.cons_append, Literal.split, Literal.split] at *
    split_ifs at left ⊢
    · rw [after_append_right more left]
    · rfl

theorem split_grows {g : Glyph} (s more : List Glyph) (numeric : Literal.isNumeric g.char = true) :
    (Literal.split (g :: s)).1 <+: (Literal.split (g :: s ++ more)).1 := by
  rw [List.cons_append, Literal.split, Literal.split, if_pos numeric, if_pos numeric]
  exact List.cons_prefix_cons.mpr ⟨rfl, after_grows g s more⟩

/-- Faults that say nothing of the texts that go on from the text they are of. -/
inductive Provisional (src : Source) : Fault → Prop
  | arithmetic {f : Fault} : f.IsArithmetic → Provisional src f
  | tooDeeplyNested {limit span} : Provisional src ⟨.tooDeeplyNested limit, span⟩
  | endForNumber {p span} : Provisional src ⟨.expectedNumber none p, span⟩
  | endForCharacter {c p span} : Provisional src ⟨.expectedCharacter c none p, span⟩
  | unfinishedWord {found before word span} : src.glyphs = before ++ word → word ≠ [] →
      word.map Glyph.char <+: rootWord → word.map Glyph.char ≠ rootWord →
      Provisional src ⟨.expectedNumber found (src.position word), span⟩

/-- What the production does with a source is foretold of another with more glyphs to read. What
fails there does not fail for the arithmetic. -/
structure Persists (src : Source) (more : List Glyph) (x y : Production Float) : Prop where
  atEnd : Ends x [] (fun _ _ => True) (Provisional src)
  foretells : ∀ s, s <:+ src.glyphs →
    Foretells (Provisional src) (fun f => ¬ f.IsArithmetic) x y s more

variable {src src' : Source} {more : List Glyph} {limit limit' n m : Nat}
  {x y : Production Float}

theorem not_isArithmetic_of_literal_value {run rest : List Glyph} {f : Fault}
    (h : Literal.value src run rest = .error f) : ¬ f.IsArithmetic := by
  obtain ⟨-, rfl⟩ | ⟨-, rfl⟩ := literal_value_error h
  · simp [Fault.IsArithmetic]
  · simp [Fault.IsArithmetic]

theorem decimal?_of_literal_value {run rest : List Glyph} {f : Fault}
    (h : Literal.value src run rest = .error f) :
    Literal.decimal? (run.map Glyph.char) = none := by
  refine Option.eq_none_iff_forall_ne_some.mpr fun d read => ?_
  obtain ⟨x, text, -⟩ := Numeral.exists_of_decimal? read
  rw [literal_value text] at h
  cases h

theorem foretells_number {g : Glyph} {s : List Glyph} :
    Foretells (Provisional src) (fun f => ¬ f.IsArithmetic) (Literal.number src)
      (Literal.number src') (g :: s) more := by
  refine ends_number.mpr ⟨fun v hv => ?_, fun f hf => .inr ?_⟩
  · by_cases left : (Literal.split (g :: s)).2 = []
    · exact .inl left
    · obtain ⟨x, text, rfl⟩ := exists_of_literal_value hv
      refine .inr (ends_number.mpr ?_)
      rw [split_append_right more left, literal_value text]
      simp
  · refine ends_number.mpr ⟨fun v hv => ?_, fun f' => not_isArithmetic_of_literal_value⟩
    obtain ⟨x, text, -⟩ := exists_of_literal_value hv
    obtain ⟨c, cs, hx, -⟩ := x.exists_text_eq_cons
    cases numeric : Literal.isNumeric g.char with
    | false => simp [Literal.split, numeric, hx] at text
    | true =>
      have grows := (split_grows s more numeric).map Glyph.char
      have none_here := decimal?_of_literal_value hf
      rw [text] at grows
      have none_there := decimal?_eq_none_of_beginning none_here grows
        (by simp [Literal.split, numeric])
      rw [x.decimal?_text] at none_there
      cases none_there

theorem foretells_closing {s : List Glyph} :
    Foretells (Provisional src) (fun f => ¬ f.IsArithmetic) (closing src) (closing src') s more :=
  .accept .endForCharacter (by simp [Fault.IsArithmetic])

theorem ends_closing_nil :
    Ends (closing src) [] (fun _ _ => True) (Provisional src) :=
  ends_closing (fun _ _ _ _ => trivial) .endForCharacter

theorem persists_root (inside : Persists src more x y) {g : Glyph} {s : List Glyph}
    (left : g :: s <:+ src.glyphs) (word : beginsWith rootWord (g :: s) = true) :
    Foretells (Provisional src) (fun f => ¬ f.IsArithmetic) (root src x) (root src' y) (g :: s)
      more := by
  have long : rootWord.length ≤ (g :: s).length := by
    obtain ⟨call, rest, parts, chars⟩ := beginsWith_iff.mp word
    rw [parts, ← chars, List.length_map, List.length_append]
    omega
  have rooted : ∀ v (span : Option Span) f, squareRoot v span = .error f → Provisional src f := by
    intro v span f failed
    rw [squareRoot_error failed]
    exact .arithmetic (.inr rfl)
  have lastly : ∀ v (span : Option Span), Ends (ofExcept (squareRoot v span)) ([] : List Glyph)
      (fun _ _ => True) (Provisional src) :=
    fun v span => ends_ofExcept.mpr ⟨fun _ _ => trivial, rooted v span⟩
  refine .look_bind (.bind (.skip long) (fun _ => ?_) fun _ rest after => ?_)
  · exact ends_bind_nil inside.atEnd fun v => ends_bind_nil ends_closing_nil fun last =>
      lastly v _
  · refine .bind (inside.foretells rest (after.trans left)) (fun v => ?_) fun v rest' _ => ?_
    · exact ends_bind_nil ends_closing_nil fun last => lastly v _
    · exact .bind foretells_closing (fun last => lastly v _) fun last _ _ =>
        .ofExcept (rooted v _)

theorem persists_group (inside : Persists src more x y) {g : Glyph} {s : List Glyph}
    (left : g :: s <:+ src.glyphs) :
    Foretells (Provisional src) (fun f => ¬ f.IsArithmetic) (group src x) (group src' y) (g :: s)
      more := by
  refine .bind (.skip (by simp)) (fun _ => ?_) fun _ rest after => ?_
  · exact ends_bind_nil inside.atEnd fun v => ends_bind_nil ends_closing_nil fun _ => trivial
  · refine .bind (inside.foretells rest (after.trans left)) (fun v => ?_) fun v rest' _ => ?_
    · exact ends_bind_nil ends_closing_nil fun _ => trivial
    · exact .bind foretells_closing (fun _ => trivial) fun _ _ _ => .pure v

/-- A text that ends inside of the word for the root: what was begun is no number, and with more
characters it may become a root. -/
theorem unfinished_number {g : Glyph} {s : List Glyph} (left : g :: s <:+ src.glyphs)
    (not_yet : beginsWith rootWord (g :: s) = false)
    (later : beginsWith rootWord (g :: s ++ more) = true) :
    Ends (function src x) (g :: s) (fun _ _ => False) (Provisional src) := by
  obtain ⟨before, place⟩ := left
  obtain ⟨call, rest, parts, chars⟩ := beginsWith_iff.mp later
  have begun : g :: s <+: call := by
    obtain ⟨tail, rfl, -⟩ | ⟨tail, longer, -⟩ := List.append_eq_append_iff.mp parts
    · exact List.prefix_append _ _
    · rw [beginsWith_iff.mpr ⟨call, tail, longer, chars⟩] at not_yet
      cases not_yet
  have starts : (g :: s).map Glyph.char <+: rootWord := chars ▸ begun.map Glyph.char
  have first : g.char = 's' := by
    obtain ⟨tail, ht⟩ := starts
    rw [rootWord_eq, List.map_cons, List.cons_append, List.cons.injEq] at ht
    exact ht.1
  have whole : (g :: s).map Glyph.char ≠ rootWord := by
    intro same
    rw [beginsWith_iff.mpr ⟨g :: s, [], by simp, same⟩] at not_yet
    cases not_yet
  have none_read : Literal.split (g :: s) = ([], g :: s) := by
    rw [Literal.split, first]
    rfl
  refine (ends_function_number not_yet (beginsWith_eq_false (by simp [first]))).mpr ?_
  rw [ends_number, none_read]
  simpa [Literal.value] using .unfinishedWord place.symm (by simp) starts whole

theorem persists_function (inside : Persists src more x y) :
    Persists src more (function src x) (function src' y) where
  atEnd := ends_function_nil.mpr .endForNumber
  foretells s left := by
    cases s with
    | nil => exact .of_nil (ends_function_nil.mpr .endForNumber)
    | cons g s =>
      cases later : beginsWith rootWord (g :: s ++ more) with
      | true =>
        cases word : beginsWith rootWord (g :: s) with
        | false =>
          exact Ends.mono (unfinished_number left word later) (fun _ _ => False.elim)
            fun _ given => .inl given
        | true =>
          refine .look_bind ?_
          rw [if_pos word, if_pos later]
          exact persists_root inside left word
      | false =>
        have word : beginsWith rootWord (g :: s) = false := by
          by_contra word
          obtain ⟨call, rest, parts, chars⟩ := beginsWith_iff.mp (by simpa using word)
          have longer : g :: s ++ more = call ++ (rest ++ more) := by rw [parts, List.append_assoc]
          rw [beginsWith_iff.mpr ⟨call, rest ++ more, longer, chars⟩] at later
          cases later
        have same : beginsWith ['('] (g :: s ++ more) = beginsWith ['('] (g :: s) := by
          simp [beginsWith]
        refine .look_bind ?_
        rw [word, later, same, if_neg Bool.false_ne_true, if_neg Bool.false_ne_true]
        cases bracket : beginsWith ['('] (g :: s) with
        | true => exact persists_group inside left
        | false => exact foretells_number

theorem persists_unary (inside : Persists src more x y) :
    Persists src more (unary src x) (unary src' y) where
  atEnd := ends_unary_nil.mpr .endForNumber
  foretells s left := by
    have inner : Persists src more (function src x) (function src' y) := persists_function inside
    refine .bind (.takeWhile _) (fun _ => ?_) fun minuses rest after => ?_
    · exact ends_bind_nil inner.atEnd fun _ => trivial
    · exact .bind (inner.foretells rest (after.trans left)) (fun _ => trivial) fun v _ _ => .pure _

theorem persists_power (inside : Persists src more x y) :
    Persists src more (power src x) (power src' y) where
  atEnd := ends_power_nil.mpr .endForNumber
  foretells s left := by
    have base : Persists src more (unary src x) (unary src' y) := persists_unary inside
    refine .bind (base.foretells s left) (fun v => ?_) fun v rest after => ?_
    · exact ends_bind_nil ((ends_powers_stop (by simp)).mpr trivial) fun _ => trivial
    · refine .bind (.chain _ fun g rest' here => ?_) (fun _ => trivial) fun tower _ _ => .pure _
      have upto := (List.suffix_cons g rest').trans (here.trans (after.trans left))
      unfold powers
      cases operator? (· == .power) g with
      | none => exact .inl ⟨rfl, rfl⟩
      | some op =>
        refine .inr ⟨_, _, rfl, rfl, fun tower => ?_⟩
        exact .bind (base.foretells rest' upto) (fun _ => trivial) fun v _ _ => .pure _

theorem foretells_operations {kind : Operator → Bool} {operand operand' : Production Float}
    {span : Glyph → Option Span} (persists : Persists src more operand operand') {s : List Glyph}
    (left : s <:+ src.glyphs) (v : Float) :
    Foretells (Provisional src) (fun f => ¬ f.IsArithmetic)
      (chain (operations kind operand span) v) (chain (operations kind operand' span) v) s more := by
  refine .chain v fun g rest here => ?_
  have upto := (List.suffix_cons g rest).trans (here.trans left)
  unfold operations
  cases operator? kind g with
  | none => exact .inl ⟨rfl, rfl⟩
  | some op =>
    have applied : ∀ a b f, op.apply a b (span g) = .error f → Provisional src f := by
      intro a b f failed
      rw [(apply_error failed).1]
      exact .arithmetic (.inl rfl)
    refine .inr ⟨_, _, rfl, rfl, fun a => ?_⟩
    refine .bind (persists.foretells rest upto) (fun b => ?_) fun b _ _ => .ofExcept (applied a b)
    exact ends_ofExcept.mpr ⟨fun _ _ => trivial, applied a b⟩

theorem ends_operations_nil {kind : Operator → Bool} {operand : Production Float}
    {span : Glyph → Option Span} (v : Float) :
    Ends (chain (operations kind operand span) v) [] (fun _ _ => True) (Provisional src) :=
  (ends_operations_stop (by simp)).mpr trivial

theorem persists_term (inside : Persists src more x y) :
    Persists src more (term src x) (term src' y) where
  atEnd := ends_term_nil.mpr .endForNumber
  foretells s left := by
    have factor : Persists src more (power src x) (power src' y) := persists_power inside
    refine .bind (factor.foretells s left) ends_operations_nil fun v rest after => ?_
    exact foretells_operations factor (after.trans left) v

theorem foretells_sum (inside : Persists src more x y) {s : List Glyph} (left : s <:+ src.glyphs) :
    Foretells (Provisional src) (fun f => ¬ f.IsArithmetic) (sum src x) (sum src' y) s more := by
  have summand : Persists src more (term src x) (term src' y) := persists_term inside
  refine .bind (summand.foretells s left) ends_operations_nil fun v rest after => ?_
  exact foretells_operations summand (after.trans left) v

/-- Also under a higher limit: what fails for the limit does not count. -/
theorem persists_expression (src src' : Source) (more : List Glyph) (limit limit' : Nat)
    (le : n ≤ m) : Persists src more (expression src limit n) (expression src' limit' m) := by
  induction n generalizing m with
  | zero => exact ⟨.tooDeeplyNested, fun s left => .inl .tooDeeplyNested⟩
  | succ n ih =>
    cases m with
    | zero => exact absurd le (by simp)
    | succ m =>
      have inner := ih (Nat.le_of_succ_le_succ le)
      exact ⟨ends_expression_nil.mpr .endForNumber, fun s left => foretells_sum inner left⟩

theorem foretells_whole (src src' : Source) (more : List Glyph) (limit limit' : Nat)
    (le : limit ≤ limit') :
    Foretells (Provisional src) (fun f => ¬ f.IsArithmetic) (whole src limit) (whole src' limit')
      src.glyphs more := by
  have first := (persists_expression src src' more limit limit' le).foretells _ (List.suffix_refl _)
  refine .bind first (fun _ => trivial) fun v rest _ => ?_
  cases rest with
  | nil => exact .of_nil trivial
  | cons g rest =>
    refine .inr ?_
    change ¬ Fault.IsArithmetic ⟨.unexpectedCharacter g.char g.position, some g.span⟩
    simp [Fault.IsArithmetic]

theorem Derives.mono {r : Rule} {gs : List Glyph} {t : Tree} (h : Derives n r gs t) (le : n ≤ m) :
    Derives m r gs t := by
  induction h generalizing m with
  | expression _ _ ihGs ihHs =>
    obtain ⟨m, rfl⟩ := Nat.exists_eq_add_of_lt le
    have le' := Nat.le_of_succ_le_succ le
    exact .expression (ihGs le') (ihHs le')
  | summandsEnd => exact .summandsEnd
  | summandsMore char additive _ _ ihGs ihHs => exact .summandsMore char additive (ihGs le) (ihHs le)
  | term _ _ ihGs ihHs => exact .term (ihGs le) (ihHs le)
  | factorsEnd => exact .factorsEnd
  | factorsMore char multiplicative _ _ ihGs ihHs =>
    exact .factorsMore char multiplicative (ihGs le) (ihHs le)
  | base _ ih => exact .base (ih le)
  | raised _ caret _ ihGs ihHs => exact .raised (ihGs le) caret (ihHs le)
  | unary run _ ih => exact .unary run (ih le)
  | root word _ closed ih => exact .root word (ih le) closed
  | group char _ closed ih => exact .group char (ih le) closed
  | number text contiguous => exact .number text contiguous

theorem not_derives_of_error {f : Fault} {t : Tree} (some_glyph : src.glyphs ≠ [])
    (failed : src.evaluate limit = .error f) (settled : ¬ Provisional src f)
    (longer : src'.glyphs = src.glyphs ++ more) : ¬ Derives n .expression src'.glyphs t := by
  intro derived
  have foretold := foretells_whole src src' more limit (max limit n) (le_max_left _ _)
  have read := (derived.mono (le_max_right limit n)).read_whole
  rw [longer] at read
  cases Source.evaluate_error some_glyph foretold failed with
  | inl provisional => exact settled provisional
  | inr fails => exact (fails.and read).elim (fun _ _ h => h.1) fun _ h => h.1 h.2.2

end Expression

open Expression

def Cause.FoundEnd : Cause → Prop
  | expectedNumber found _ | expectedCharacter _ found _ => found = none
  | _ => False

/-- A number was expected where the text breaks off inside of the word for the root. -/
def Cause.BreaksOff (cs : List Char) (c : Cause) : Prop :=
  ∃ found before word, c = .expectedNumber found (bytes before) ∧ stripped cs = before ++ word ∧
    word ≠ [] ∧ word <+: rootWord ∧ word ≠ rootWord

theorem Fault.IsArithmetic.position?_eq_none {f : Fault} (h : f.IsArithmetic) :
    f.cause.position? = none := by
  cases h with
  | inl divides => rw [divides, Cause.position?]
  | inr roots => rw [roots, Cause.position?]

namespace Expression

def Derivable (n : Nat) (cs : List Char) : Prop :=
  ∃ t, Derives n .expression (Source.ofChars cs).glyphs t

theorem derivable_of_completable {cs : List Char} {gs post : List Glyph}
    (place : (Source.ofChars cs).glyphs = gs ++ post) (h : Completable limit gs) :
    ∃ before after, cs = before ++ after ∧
      ((Source.ofChars cs).span post).start = bytes before ∧
      ∃ completion, Derivable limit (before ++ completion) := by
  obtain ⟨before, after, cuts, chars, -⟩ := Source.cuts_span place
  obtain ⟨completion, solid, finish⟩ := h
  refine ⟨before, _, cuts.text_eq, cuts.start_eq, completion, ?_⟩
  have same : Glyph.strip 0 0 before = gs := by
    have whole := place
    rw [cuts.text_eq, Source.ofChars, Glyph.strip_append] at whole
    refine (List.append_inj whole ?_).1
    rw [Glyph.length_strip, chars, List.length_map]
  obtain ⟨t, derived⟩ := finish (Glyph.strip (bytes (stripped before)) (bytes before) completion)
    (by rw [Glyph.strip_chars]; exact solid)
  refine ⟨t, ?_⟩
  rwa [Source.ofChars, Glyph.strip_append, same, Nat.zero_add, Nat.zero_add]

theorem Provisional.of_ofChars {cs : List Char} {f : Fault} {p : Nat}
    (h : Provisional (Source.ofChars cs) f) (syntactic : f.cause.position? = some p) :
    f.cause.FoundEnd ∨ f.cause.BreaksOff cs := by
  cases h with
  | arithmetic arithmetic => simp [arithmetic.position?_eq_none] at syntactic
  | tooDeeplyNested => simp [Cause.position?] at syntactic
  | endForNumber => exact .inl rfl
  | endForCharacter => exact .inl rfl
  | @unfinishedWord found before word span place some_glyph starts unfinished =>
    refine .inr ⟨found, before.map Glyph.char, word.map Glyph.char, ?_, ?_, by simpa, starts,
      unfinished⟩
    · rw [Source.position_eq place]
    · have chars := congrArg (List.map Glyph.char) place
      rwa [List.map_append, ← Source.chars, Source.chars_ofChars] at chars

end Expression

/-- A fault of the syntax is neither late nor early. What stands before it begins an expression
within the limit; and if it has found a character, no text that begins with the whole text is an
expression, with however many levels, unless the text breaks off inside of the word for the root. -/
theorem evaluate_error_neither_late_nor_early {text : String} {limit : Nat} {f : Fault} {p : Nat}
    (failed : evaluate text limit = .error f) (syntactic : f.cause.position? = some p) :
    (∃ span before after, f.span = some span ∧ text.toList = before ++ after ∧
      span.start = bytes before ∧ ∃ completion, Derivable limit (before ++ completion)) ∧
    (¬ f.cause.FoundEnd → ¬ f.cause.BreaksOff text.toList →
      ∀ more n, ¬ Derivable n (text.toList ++ more)) := by
  have some_glyph : (Source.ofText text).glyphs ≠ [] := by
    intro nothing
    have empty := failed.symm.trans (Source.evaluate_nil nothing)
    simp [Except.error.inj empty, Cause.position?] at syntactic
  constructor
  · cases Source.evaluate_error some_glyph (blamed_whole _ limit) failed with
    | arithmetic arithmetic => simp [arithmetic.position?_eq_none] at syntactic
    | tooDeeplyNested => simp [Cause.position?] at syntactic
    | @syntactic _ gs post span place completable points start =>
      obtain ⟨before, after, parts, cut, completion, derivable⟩ :=
        derivable_of_completable place completable
      exact ⟨span, before, after, points, parts, start.trans cut, completion, derivable⟩
  · rintro not_end whole more n ⟨t, derived⟩
    have settled : ¬ Provisional (Source.ofText text) f := by
      intro provisional
      cases provisional.of_ofChars syntactic with
      | inl foundEnd => exact not_end foundEnd
      | inr breaksOff => exact whole breaksOff
    have longer := Glyph.strip_append 0 0 text.toList more
    exact not_derives_of_error some_glyph failed settled longer derived

theorem evaluate_bracket_for_number :
    evaluate "(1 + ) 2" 2 = .error ⟨.expectedNumber (some ')') 3, some ⟨5, 6⟩⟩ ∧
    (∃ before after completion, "(1 + ) 2".toList = before ++ after ∧ bytes before = 5 ∧
      Derivable 2 (before ++ completion)) ∧
    ∀ more n, ¬ Derivable n ("(1 + ) 2".toList ++ more) := by
  have failed : evaluate "(1 + ) 2" 2 = .error ⟨.expectedNumber (some ')') 3, some ⟨5, 6⟩⟩ := by
    decide +kernel
  obtain ⟨⟨span, before, after, points, parts, start, completion, derivable⟩, never⟩ :=
    evaluate_error_neither_late_nor_early failed rfl
  obtain rfl := Option.some.inj points
  refine ⟨failed, ⟨before, after, completion, parts, start.symm, derivable⟩, never ?_ ?_⟩
  · simp [Cause.FoundEnd]
  · rintro ⟨-, pre, word, -, text, some_char, starts, -⟩
    cases word with
    | nil => exact some_char rfl
    | cons c word =>
      obtain rfl : c = 's' := (List.cons_prefix_cons.mp starts).1
      have member : 's' ∈ stripped "(1 + ) 2".toList := by
        rw [text]
        exact List.mem_append_right pre List.mem_cons_self
      exact absurd member (by decide)

end Abacus
