import Mathlib
import Abacus.Proofs.Expression.Location

/-!
Blanks inside a run of digits and points. The text shows such a gap exactly where two glyphs in a
row are not adjacent, and a derivation has none: what follows a literal is never a digit or a point.
-/

namespace Abacus

open Text Literal

theorem Literal.isBlank_of_isNumeric {c : Char} (h : isNumeric c = true) : isBlank c = false := by
  obtain digit | rfl : c.isDigit = true ∨ c = '.' := by simpa [isNumeric] using h
  · obtain ⟨low, high⟩ := Char.isDigit_iff_toNat.mp digit
    have low : 48 ≤ c.toNat := low
    have high : c.toNat ≤ 57 := high
    simp [isBlank, blankRanges]
    omega
  · decide

theorem Expression.isBlank_symbol (op : Operator) : isBlank op.symbol = false := by
  cases op <;> decide

/-- Blanks were dropped after the character `i` of the stripped text, between two characters that
literals are made of. -/
def HasGap (cs : List Char) (i : Nat) : Prop :=
  ∃ before a blanks b after, cs = before ++ a :: (blanks ++ b :: after) ∧
    (stripped before).length = i ∧ isNumeric a = true ∧ isNumeric b = true ∧
      blanks ≠ [] ∧ allBlank blanks = true

theorem hasGap_iff {cs : List Char} {i : Nat} : HasGap cs i ↔
    ∃ gs g next hs, (Source.ofChars cs).glyphs = gs ++ g :: next :: hs ∧ gs.length = i ∧
      isNumeric g.char = true ∧ isNumeric next.char = true ∧ g.isFollowedBy next = false := by
  constructor
  · rintro ⟨before, a, blanks, b, after, rfl, rfl, ha, hb, some_blank, blank⟩
    have glyphs := Glyph.strip_append 0 0 before (a :: (blanks ++ b :: after))
    rw [Glyph.strip_cons (isBlank_of_isNumeric ha), Glyph.strip_blanks (allBlank_iff.mp blank),
      Glyph.strip_cons (isBlank_of_isNumeric hb)] at glyphs
    have some_byte := List.length_pos_of_ne_nil some_blank
    have := length_le_bytes blanks
    refine ⟨_, _, _, _, glyphs, Glyph.length_strip .., ha, hb, ?_⟩
    simp only [Glyph.isFollowedBy, beq_eq_false_iff_ne, Expression.utf8Size_of_isNumeric ha]
    omega
  · rintro ⟨gs, g, next, hs, glyphs, rfl, numeric, numeric', apart⟩
    obtain ⟨before, blanks, after, text, chars, dropped, offset⟩ := Source.between_neighbours glyphs
    refine ⟨before, g.char, blanks, next.char, after, text, by simp [chars], numeric, numeric', ?_,
      allBlank_iff.mpr dropped⟩
    rintro rfl
    simp [Glyph.isFollowedBy, offset, Expression.utf8Size_of_isNumeric numeric] at apart

namespace Expression

def Unbroken (gs : List Glyph) : Prop :=
  gs.IsChain fun g next => isNumeric g.char = true → isNumeric next.char = true →
    g.isFollowedBy next = true

theorem Unbroken.append {gs hs : List Glyph} (hgs : Unbroken gs) (hhs : Unbroken hs)
    (stop : (∀ g ∈ gs.getLast?, isNumeric g.char = false) ∨
      ∀ h ∈ hs.head?, isNumeric h.char = false) : Unbroken (gs ++ hs) := by
  refine List.isChain_append.mpr ⟨hgs, hhs, fun g hg h hh numeric numeric' => ?_⟩
  obtain stop | stop := stop
  · simp [stop g hg] at numeric
  · simp [stop h hh] at numeric'

theorem Unbroken.cons {g : Glyph} {gs : List Glyph} (stop : isNumeric g.char = false)
    (h : Unbroken gs) : Unbroken (g :: gs) :=
  Unbroken.append (List.isChain_singleton g) h (.inl (by simpa using stop))

theorem Unbroken.append_of_plain {gs hs : List Glyph}
    (plain : ∀ g ∈ gs, isNumeric g.char = false) (h : Unbroken hs) : Unbroken (gs ++ hs) := by
  induction gs with
  | nil => exact h
  | cons g gs ih =>
    exact .cons (plain g List.mem_cons_self) (ih fun h hh => plain h (List.mem_cons_of_mem g hh))

theorem isNumeric_symbol (op : Operator) : isNumeric op.symbol = false := by
  cases op <;> decide

theorem Derives.stop_summands {n : Nat} {t u : Tree} {hs : List Glyph}
    (h : Derives n (.summands t) hs u) : ∀ g ∈ hs.head?, isNumeric g.char = false := by
  have follows := h.mayFollow_summands (mayFollow_nil _)
  rw [List.append_nil] at follows
  exact fun g hg => not_isNumeric_of_follow (follows.head g hg)

theorem Derives.stop_factors {n : Nat} {t u : Tree} {hs : List Glyph}
    (h : Derives n (.factors t) hs u) : ∀ g ∈ hs.head?, isNumeric g.char = false := by
  have follows := h.mayFollow_factors (mayFollow_nil _)
  rw [List.append_nil] at follows
  exact fun g hg => not_isNumeric_of_follow (follows.head g hg)

theorem Derives.unbroken {n : Nat} {r : Rule} {gs : List Glyph} {t : Tree} (h : Derives n r gs t) :
    Unbroken gs := by
  induction h with
  | expression first more ih ihMore => exact ih.append ihMore (.inr more.stop_summands)
  | summandsEnd => exact List.isChain_nil
  | summandsMore char additive operand more ih ihMore =>
    exact .cons (char ▸ isNumeric_symbol _) (ih.append ihMore (.inr more.stop_summands))
  | term first more ih ihMore => exact ih.append ihMore (.inr more.stop_factors)
  | factorsEnd => exact List.isChain_nil
  | factorsMore char multiplicative operand more ih ihMore =>
    exact .cons (char ▸ isNumeric_symbol _) (ih.append ihMore (.inr more.stop_factors))
  | base _ ih => exact ih
  | raised operand caret exponent ih ihExponent =>
    have stop : isNumeric '^' = false := by decide
    exact ih.append (ihExponent.cons (caret ▸ stop)) (.inr (by simp [caret, stop]))
  | unary run operand ih =>
    exact .append_of_plain (fun g hg => by simp [run g hg, isNumeric]) ih
  | @root _ gs t call close word inner closed ih =>
    have plain : ∀ c ∈ rootWord, isNumeric c = false := by simp [rootWord_eq, isNumeric]
    have last : Unbroken (gs ++ [close]) :=
      ih.append (List.isChain_singleton close) (.inr (by simp [closed, isNumeric]))
    exact .append_of_plain (fun g hg => plain _ (word ▸ List.mem_map_of_mem hg)) last
  | @group _ gs t bracket close opened inner closed ih =>
    have last : Unbroken (gs ++ [close]) :=
      ih.append (List.isChain_singleton close) (.inr (by simp [closed, isNumeric]))
    exact .cons (by simp [opened, isNumeric]) last
  | number text contiguous => exact contiguous.imp fun g next adjacent _ _ => adjacent

end Expression

theorem HasGap.not_unbroken {cs : List Char} {i : Nat} (h : HasGap cs i) :
    ¬ Expression.Unbroken (Source.ofChars cs).glyphs := by
  intro unbroken
  obtain ⟨gs, g, next, hs, glyphs, -, numeric, numeric', apart⟩ := hasGap_iff.mp h
  rw [glyphs] at unbroken
  have adjacent := (List.isChain_append.mp unbroken).2.1
  have followed := (List.isChain_cons_cons.mp adjacent).1 numeric numeric'
  simp [apart] at followed

theorem HasGap.evaluate_error {text : String} {i : Nat} (h : HasGap text.toList i) (limit : Nat) :
    ∃ f, evaluate text limit = .error f := by
  cases evaluated : evaluate text limit with
  | error f => exact ⟨f, rfl⟩
  | ok v =>
    obtain ⟨t, derived, -⟩ := Source.evaluate_ok_iff.mp evaluated
    exact absurd derived.unbroken h.not_unbroken

theorem isFollowedBy_eq_false_iff {cs : List Char} {gs hs : List Glyph} {g next : Glyph}
    (glyphs : (Source.ofChars cs).glyphs = gs ++ g :: next :: hs)
    (numeric : isNumeric g.char = true) (numeric' : isNumeric next.char = true) :
    g.isFollowedBy next = false ↔ HasGap cs gs.length := by
  rw [hasGap_iff]
  constructor
  · intro apart
    exact ⟨gs, g, next, hs, glyphs, rfl, numeric, numeric', apart⟩
  · rintro ⟨gs', g', next', hs', glyphs', length, -, -, apart⟩
    obtain ⟨-, same⟩ := List.append_inj (glyphs.symm.trans glyphs') length.symm
    simp only [List.cons.injEq] at same
    obtain ⟨rfl, rfl, -⟩ := same
    exact apart

end Abacus
