import Mathlib
import Abacus.Proofs.Expression.Unambiguity

/-!
Brackets pair up in whatever the grammar derives, so a reader who comes out of a rule has as many
brackets open as when it went in.
-/

namespace Abacus.Expression

inductive Balanced : List Char → Prop
  | nil : Balanced []
  | plain {c} : c ≠ '(' → c ≠ ')' → Balanced [c]
  | append {cs ds} : Balanced cs → Balanced ds → Balanced (cs ++ ds)
  | bracketed {cs} : Balanced cs → Balanced ('(' :: (cs ++ [')']))

theorem Balanced.count_eq {cs : List Char} (h : Balanced cs) : cs.count '(' = cs.count ')' := by
  induction h with
  | nil => rfl
  | plain notOpen notClose => simp [notOpen, notClose]
  | append _ _ ih ih' => simp only [List.count_append, ih, ih']
  | bracketed _ ih => simp [ih]

/-- Nowhere are more brackets closed than have been opened. -/
theorem Balanced.count_le {cs p : List Char} (h : Balanced cs) (begins : p <+: cs) :
    p.count ')' ≤ p.count '(' := by
  induction h generalizing p with
  | nil => simp [List.prefix_nil.mp begins]
  | @plain c _ notClose =>
    have few := begins.sublist.count_le ')'
    simp only [List.count_singleton, beq_iff_eq, if_neg notClose] at few
    omega
  | @append cs ds first _ ihFirst ihSecond =>
    obtain ⟨rest, parts⟩ := begins
    obtain ⟨more, rfl, -⟩ | ⟨more, rfl, tail⟩ := List.append_eq_append_iff.mp parts
    · exact ihFirst (List.prefix_append p more)
    · have pairs := first.count_eq
      have further := ihSecond ⟨rest, tail.symm⟩
      simp only [List.count_append]
      omega
  | @bracketed cs inner ih =>
    cases p with
    | nil => simp
    | cons c p =>
      obtain ⟨rfl, inside⟩ := List.cons_prefix_cons.mp begins
      cases List.prefix_concat_iff.mp inside with
      | inl all =>
        have pairs := inner.count_eq
        simp [all, pairs]
      | inr before =>
        have further := ih before
        simp only [List.count_cons_self, List.count_cons_of_ne (by decide : '(' ≠ ')')]
        omega

def Unclosed (cs : List Char) (k : Nat) : Prop :=
  cs.count '(' = cs.count ')' + k

/-- The characters end where an expression begins, and so many brackets are open. -/
inductive Opening : List Char → Nat → Prop
  | start : Opening [] 0
  | bracket {cs k} : Unclosed cs k → Opening (cs ++ ['(']) (k + 1)

theorem Opening.unclosed {cs : List Char} {k : Nat} (h : Opening cs k) : Unclosed cs k := by
  cases h with
  | start => rfl
  | bracket outer =>
    unfold Unclosed at *
    simp
    omega

theorem Opening.eq_nil {cs : List Char} (h : Opening cs 0) : cs = [] := by
  cases h
  rfl

theorem Unclosed.append {cs ds : List Char} {k : Nat} (h : Unclosed cs k) (balanced : Balanced ds) :
    Unclosed (cs ++ ds) k := by
  have pairs := balanced.count_eq
  unfold Unclosed at *
  simp only [List.count_append]
  omega

theorem Unclosed.past {gs hs : List Glyph} {k : Nat} (h : Unclosed (gs.map Glyph.char) k)
    (balanced : Balanced (hs.map Glyph.char)) : Unclosed ((gs ++ hs).map Glyph.char) k :=
  List.map_append ▸ h.append balanced

theorem Unclosed.opening {gs call : List Glyph} {word : List Char} {k : Nat}
    (h : Unclosed (gs.map Glyph.char) k) (chars : call.map Glyph.char = word ++ ['('])
    (balanced : Balanced word) : Opening ((gs ++ call).map Glyph.char) (k + 1) := by
  rw [List.map_append, chars, ← List.append_assoc]
  exact .bracket (h.append balanced)

theorem Balanced.of_plain {cs : List Char} (h : ∀ c ∈ cs, c ≠ '(' ∧ c ≠ ')') : Balanced cs := by
  induction cs with
  | nil => exact .nil
  | cons c cs ih =>
    have head := h c List.mem_cons_self
    exact .append (.plain head.1 head.2) (ih fun d hd => h d (List.mem_cons_of_mem c hd))

theorem balanced_symbol (op : Operator) : Balanced [op.symbol] := by
  cases op <;> exact .plain (by decide) (by decide)

theorem Balanced.after_symbol {op : Operator} {g : Glyph} {gs hs : List Glyph}
    (h : Balanced (gs.map Glyph.char)) (char : g.char = op.symbol)
    (h' : Balanced (hs.map Glyph.char)) : Balanced ((g :: (gs ++ hs)).map Glyph.char) := by
  rw [List.map_cons, List.map_append, char]
  exact (balanced_symbol op).append (h.append h')

theorem Derives.balanced {n : Nat} {r : Rule} {gs : List Glyph} {t : Tree} (h : Derives n r gs t) :
    Balanced (gs.map Glyph.char) := by
  induction h with
  | expression _ _ ih ihMore => exact List.map_append ▸ ih.append ihMore
  | summandsEnd => exact .nil
  | summandsMore char _ _ _ ih ihMore => exact ih.after_symbol char ihMore
  | term _ _ ih ihMore => exact List.map_append ▸ ih.append ihMore
  | factorsEnd => exact .nil
  | factorsMore char _ _ _ ih ihMore => exact ih.after_symbol char ihMore
  | base _ ih => exact ih
  | @raised _ gs hs _ _ g _ caret _ ih ihExponent =>
    have parts : (gs ++ g :: hs).map Glyph.char =
        gs.map Glyph.char ++ (['^'] ++ hs.map Glyph.char) := by simp [caret]
    exact parts ▸ ih.append ((balanced_symbol .power).append ihExponent)
  | @unary _ gs _ minuses run _ ih =>
    have signs : Balanced (minuses.map Glyph.char) := by
      refine .of_plain fun c hc => ?_
      obtain ⟨g, hg, rfl⟩ := List.mem_map.mp hc
      simp [run g hg]
    exact List.map_append ▸ signs.append ih
  | @root _ gs _ call close word _ closed ih =>
    have parts : (call ++ (gs ++ [close])).map Glyph.char =
        ['s', 'q', 'r', 't'] ++ ('(' :: (gs.map Glyph.char ++ [')'])) := by
      simp only [List.map_append, word, closed, List.map_cons, List.map_nil]
      rfl
    exact parts ▸ (Balanced.of_plain (by simp)).append ih.bracketed
  | @group _ gs _ bracket close opened _ closed ih =>
    have parts : (bracket :: (gs ++ [close])).map Glyph.char =
        '(' :: (gs.map Glyph.char ++ [')']) := by simp [opened, closed]
    exact parts ▸ ih.bracketed
  | @number _ gs x text _ =>
    refine .of_plain fun c hc => ?_
    have numeric := Numeral.isNumeric_of_mem (text ▸ hc)
    constructor
    · rintro rfl
      simp [Literal.isNumeric] at numeric
    · rintro rfl
      simp [Literal.isNumeric] at numeric

end Abacus.Expression
