import Mathlib
import Abacus.Token
import Abacus.Proofs.Expression.Unambiguity
import Abacus.Proofs.Source

/-!
What the lexemes of a line are, apart from how they are cut. Each has the characters of its kind, and
what follows it does not belong to it: a gap and a number take as much as they can, and a letter is
unknown only where no word begins. There is one way to cut a line like that.
-/

namespace Abacus

namespace Token

open Text

def span (t : Token) : Span :=
  ⟨t.start, t.stop⟩

def Kind.Writes : Kind → List Char → Prop
  | gap, cs => cs ≠ [] ∧ ∀ c ∈ cs, isGap c = true
  | root, cs => cs = 's' :: rootTail
  | opening, cs => cs = ['(']
  | closing, cs => cs = [')']
  | number, cs => cs ≠ [] ∧ ∀ c ∈ cs, isNumeric c = true
  | operator, cs => ∃ c, cs = [c] ∧ isOperator c = true
  | unknown, cs => ∃ c, cs = [c] ∧
    (isGap c = false ∧ isNumeric c = false ∧ isOperator c = false) ∧ c ≠ '(' ∧ c ≠ ')'

/-- What follows the characters of a lexeme does not belong to it. -/
def Kind.Stops : Kind → List Char → List Char → Prop
  | gap, _, rest => ∀ c ∈ rest.head?, isGap c = false
  | number, _, rest => ∀ c ∈ rest.head?, isNumeric c = false
  | unknown, cs, rest => cs = ['s'] → ¬ rootTail <+: rest
  | root, _, _ | opening, _, _ | closing, _, _ | operator, _, _ => True

/-- The text is cut into lexemes, the first of them at the given place. -/
inductive Lexes : Nat → List Char → List Token → Prop
  | nil {start} : Lexes start [] []
  | cons {start kind cs rest ts} : Kind.Writes kind cs → Kind.Stops kind cs rest →
      Lexes (start + bytes cs) rest ts → Lexes start (cs ++ rest) (⟨kind, cs, start⟩ :: ts)

theorem Kind.Writes.ne_nil {kind : Kind} {cs : List Char} (h : kind.Writes cs) : cs ≠ [] := by
  cases kind with
  | gap => exact h.1
  | root => exact h ▸ List.cons_ne_nil _ _
  | opening => exact h ▸ List.cons_ne_nil _ _
  | closing => exact h ▸ List.cons_ne_nil _ _
  | number => exact h.1
  | operator =>
    obtain ⟨c, rfl, -⟩ := h
    exact List.cons_ne_nil _ _
  | unknown =>
    obtain ⟨c, rfl, -⟩ := h
    exact List.cons_ne_nil _ _

theorem not_isGap_of_isNumeric {c : Char} (h : isNumeric c = true) : isGap c = false := by
  obtain digit | rfl : c.isDigit = true ∨ c = '.' := by simpa [isNumeric] using h
  · obtain ⟨low, -⟩ := Char.isDigit_iff_toNat.mp digit
    have low : 48 ≤ c.toNat := low
    simp only [isGap, Bool.or_eq_false_iff, beq_eq_false_iff_ne]
    refine ⟨⟨⟨⟨?_, ?_⟩, ?_⟩, ?_⟩, ?_⟩ <;> (rintro rfl; exact absurd low (by decide))
  · decide

theorem isOperator_iff {c : Char} : isOperator c = true ↔ ∃ op : Operator, c = op.symbol := by
  constructor
  · intro h
    obtain (((rfl | rfl) | rfl) | rfl) | rfl :
        (((c = '-' ∨ c = '+') ∨ c = '*') ∨ c = '/') ∨ c = '^' := by simpa [isOperator] using h
    exacts [⟨.subtract, rfl⟩, ⟨.add, rfl⟩, ⟨.multiply, rfl⟩, ⟨.divide, rfl⟩, ⟨.power, rfl⟩]
  · rintro ⟨op, rfl⟩
    cases op <;> rfl

theorem munch_operator {c : Char} (h : isOperator c = true) (s : List Char) :
    munch c s = (.operator, 0) := by
  obtain ⟨op, rfl⟩ := isOperator_iff.mp h
  cases op <;> rfl

theorem munch_eq {c : Char} {run rest : List Char} {kind : Kind} (writes : kind.Writes (c :: run))
    (stops : kind.Stops (c :: run) rest) : munch c (run ++ rest) = (kind, run.length) := by
  cases kind with
  | gap =>
    obtain ⟨here, more⟩ := List.forall_mem_cons.mp writes.2
    rw [munch, if_pos here, Expression.takeWhile_append_of_stop more stops]
  | number =>
    obtain ⟨here, more⟩ := List.forall_mem_cons.mp writes.2
    rw [munch, if_neg (by simp [not_isGap_of_isNumeric here]), if_pos here,
      Expression.takeWhile_append_of_stop more stops]
  | root =>
    obtain ⟨rfl, rfl⟩ := List.cons.inj writes
    rfl
  | opening =>
    obtain ⟨rfl, rfl⟩ := List.cons.inj writes
    rfl
  | closing =>
    obtain ⟨rfl, rfl⟩ := List.cons.inj writes
    rfl
  | operator =>
    obtain ⟨d, same, op⟩ := writes
    obtain ⟨rfl, rfl⟩ := List.cons.inj same
    exact munch_operator op rest
  | unknown =>
    obtain ⟨d, same, ⟨notGap, notNumeric, notOperator⟩, notOpening, notClosing⟩ := writes
    obtain ⟨rfl, rfl⟩ := List.cons.inj same
    have noWord : c = 's' → ¬ rootTail <+: rest := fun same => stops (by rw [same])
    simpa [munch, notGap, notNumeric, notOperator, notOpening, notClosing] using noWord

theorem exists_munch (c : Char) (s : List Char) : ∃ kind run rest, s = run ++ rest ∧
    Kind.Writes kind (c :: run) ∧ Kind.Stops kind (c :: run) rest := by
  have longest : ∀ test : Char → Bool, test c = true →
      (∀ d ∈ c :: s.takeWhile test, test d = true) ∧
        ∀ d ∈ (s.dropWhile test).head?, test d = false := fun test here =>
    ⟨List.forall_mem_cons.mpr ⟨here, fun d hd => List.mem_takeWhile_imp hd⟩, fun d hd => by
      simpa [Option.mem_def.mp hd] using List.head?_dropWhile_not test s⟩
  by_cases gap : isGap c = true
  · obtain ⟨run, stop⟩ := longest isGap gap
    exact ⟨.gap, _, _, List.takeWhile_append_dropWhile.symm, ⟨List.cons_ne_nil _ _, run⟩, stop⟩
  by_cases numeric : isNumeric c = true
  · obtain ⟨run, stop⟩ := longest isNumeric numeric
    exact ⟨.number, _, _, List.takeWhile_append_dropWhile.symm, ⟨List.cons_ne_nil _ _, run⟩, stop⟩
  by_cases op : isOperator c = true
  · exact ⟨.operator, [], s, rfl, ⟨c, rfl, op⟩, trivial⟩
  by_cases opening : c = '('
  · exact ⟨.opening, [], s, rfl, congrArg (· :: []) opening, trivial⟩
  by_cases closing : c = ')'
  · exact ⟨.closing, [], s, rfl, congrArg (· :: []) closing, trivial⟩
  by_cases word : c = 's' ∧ rootTail <+: s
  · obtain ⟨rfl, rest, rfl⟩ := word
    exact ⟨.root, rootTail, rest, rfl, rfl, trivial⟩
  · refine ⟨.unknown, [], s, rfl, ⟨c, rfl, ?_, opening, closing⟩, fun same tail => ?_⟩
    · exact ⟨by simpa using gap, by simpa using numeric, by simpa using op⟩
    · exact word ⟨(List.cons.inj same).1, tail⟩

theorem lexemes_eq {c : Char} {run rest : List Char} {kind : Kind} (writes : kind.Writes (c :: run))
    (stops : kind.Stops (c :: run) rest) (start : Nat) : lexemes start (c :: (run ++ rest)) =
      ⟨kind, c :: run, start⟩ :: lexemes (start + bytes (c :: run)) rest := by
  rw [lexemes, munch_eq writes stops]
  simp only [List.take_left, List.drop_left]

theorem lexes_lexemes (start : Nat) (s : List Char) : Lexes start s (lexemes start s) := by
  -- a lexeme takes at least one character, and it may take more
  induction n : s.length using Nat.strongRecOn generalizing start s with
  | ind n ih =>
    subst n
    cases s with
    | nil =>
      rw [lexemes]
      exact .nil
    | cons c s =>
      obtain ⟨kind, run, rest, rfl, writes, stops⟩ := exists_munch c s
      rw [lexemes_eq writes stops]
      have shorter : rest.length < (c :: (run ++ rest)).length := by
        simp only [List.length_cons, List.length_append]
        omega
      exact .cons writes stops (ih rest.length shorter _ rest rfl)

theorem lexes_iff {start : Nat} {s : List Char} {ts : List Token} :
    Lexes start s ts ↔ ts = lexemes start s := by
  constructor
  · intro cut
    induction cut with
    | nil => rw [lexemes]
    | @cons start kind cs rest ts writes stops _ ih =>
      obtain ⟨c, run, rfl⟩ := List.exists_cons_of_ne_nil writes.ne_nil
      rw [List.cons_append, lexemes_eq writes stops, ih]
  · rintro rfl
    exact lexes_lexemes start s

theorem Lexes.flatMap_chars {start : Nat} {s : List Char} {ts : List Token}
    (h : Lexes start s ts) : ts.flatMap chars = s := by
  rw [lexes_iff.mp h, flatMap_chars_lexemes]

theorem Lexes.split {start : Nat} {s : List Char} {before after : List Token} {t : Token}
    (h : Lexes start s (before ++ t :: after)) :
    s = before.flatMap chars ++ (t.chars ++ after.flatMap chars) ∧
      t.start = start + bytes (before.flatMap chars) ∧ t.kind.Writes t.chars ∧
      t.kind.Stops t.chars (after.flatMap chars) ∧ Lexes t.stop (after.flatMap chars) after := by
  induction before generalizing start s with
  | nil =>
    cases h with
    | cons writes stops more =>
      rw [List.flatMap_nil, more.flatMap_chars]
      exact ⟨rfl, rfl, writes, stops, more⟩
  | cons u before ih =>
    cases h with
    | cons _ _ more =>
      obtain ⟨text, place, further⟩ := ih more
      refine ⟨by rw [text, List.flatMap_cons, List.append_assoc], ?_, further⟩
      rw [place, List.flatMap_cons, bytes_append, Nat.add_assoc]

theorem cuts_span {cs : List Char} {before after : List Token} {t : Token}
    (h : lexemes 0 cs = before ++ t :: after) :
    t.span.Cuts cs (before.flatMap chars) t.chars (after.flatMap chars) := by
  have place := (h ▸ lexes_lexemes 0 cs).split
  have start : t.start = bytes (before.flatMap chars) := by simpa using place.2.1
  exact ⟨place.1, start, congrArg (· + bytes t.chars) start⟩

theorem writes_of_mem {start : Nat} {s : List Char} {t : Token} (h : t ∈ lexemes start s) :
    t.kind.Writes t.chars := by
  obtain ⟨before, after, parts⟩ := List.append_of_mem h
  exact (parts ▸ lexes_lexemes start s).split.2.2.1

theorem exists_piece {ts : List Token} {xs ys : List Char} {c : Char}
    (h : ts.flatMap chars = xs ++ c :: ys) : ∃ before t after us vs, ts = before ++ t :: after ∧
      t.chars = us ++ c :: vs ∧ ys = vs ++ after.flatMap chars := by
  induction ts generalizing xs with
  | nil => simp at h
  | cons t ts ih =>
    rw [List.flatMap_cons] at h
    obtain ⟨more, rfl, rest⟩ | ⟨more, here, rest⟩ := List.append_eq_append_iff.mp h
    · obtain ⟨before, u, after, us, vs, rfl, chars, tail⟩ := ih rest
      exact ⟨t :: before, u, after, us, vs, rfl, chars, tail⟩
    · cases more with
      | nil =>
        obtain ⟨before, u, after, us, vs, rfl, chars, tail⟩ :=
          ih (rest.symm.trans (List.nil_append _).symm)
        exact ⟨t :: before, u, after, us, vs, rfl, chars, tail⟩
      | cons d more =>
        obtain ⟨rfl, tail⟩ := List.cons.inj rest
        exact ⟨[], t, ts, xs, more, rfl, here, tail⟩

inductive Kind.IsBracket : Kind → Char → Prop
  | opening : IsBracket opening '('
  | closing : IsBracket closing ')'

theorem Kind.Writes.count_bracket {kind k : Kind} {cs : List Char} {c : Char} (h : kind.Writes cs)
    (bracket : k.IsBracket c) : cs.count c = if kind = k then 1 else 0 := by
  have other : ∀ test : Char → Bool, test c = false → (∀ d ∈ cs, test d = true) → cs.count c = 0 :=
    fun test outside all => List.count_eq_zero.mpr fun member => by
      simp [all c member] at outside
  cases kind with
  | gap =>
    rw [other isGap (by cases bracket <;> rfl) h.2, if_neg (by cases bracket <;> decide)]
  | number =>
    rw [other isNumeric (by cases bracket <;> rfl) h.2, if_neg (by cases bracket <;> decide)]
  | root =>
    rw [h]
    cases bracket <;> decide
  | opening =>
    rw [h]
    cases bracket <;> decide
  | closing =>
    rw [h]
    cases bracket <;> decide
  | operator =>
    obtain ⟨d, rfl, op⟩ := h
    rw [other isOperator (by cases bracket <;> rfl) (by simpa using op),
      if_neg (by cases bracket <;> decide)]
  | unknown =>
    obtain ⟨d, rfl, -, notOpening, notClosing⟩ := h
    cases bracket <;> simp [notOpening, notClosing]

theorem count_bracket {ts : List Token} {k : Kind} {c : Char} (bracket : k.IsBracket c)
    (h : ∀ t ∈ ts, t.kind.Writes t.chars) : (ts.flatMap chars).count c = count k ts := by
  induction ts with
  | nil => rfl
  | cons t ts ih =>
    obtain ⟨here, more⟩ := List.forall_mem_cons.mp h
    rw [List.flatMap_cons, List.count_append, ih more, here.count_bracket bracket, count, count,
      List.countP_cons, Nat.add_comm]
    simp

theorem count_ofLine {k : Kind} {c : Char} (bracket : k.IsBracket c) (line : String) :
    count k (ofLine line) = line.toList.count c := by
  have all : count k (ofLine line) = count k (lexemes 0 line.toList) := by
    rw [count, ofLine, List.countP_filter, count]
    refine List.countP_congr fun t _ => ?_
    cases bracket <;> simp +contextual
  rw [all, ← count_bracket bracket fun t => writes_of_mem, flatMap_chars_lexemes]

end Token

end Abacus
