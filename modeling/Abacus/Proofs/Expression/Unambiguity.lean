import Mathlib
import Abacus.Proofs.Expression.Grammar

/-!
No text has two trees, however its characters are spaced. The grammar can be read with one character
of lookahead: what a rule begins with and what may follow it decide which alternative was taken, so
two derivations of the same characters, each followed by what may follow it, end at the same place
with the same tree. Adjacency plays no part in this: a literal ends before the first character that
is neither digit nor point.
-/

namespace Abacus.Expression

open Literal (isNumeric)

/-- The characters that may stand after what the rule derives; the end may always. -/
def Rule.follow : Rule → List Char
  | expression | summands _ => [')']
  | term | factors _ => [')', '+', '-']
  | power => [')', '+', '-', '*', '/']
  | unary | function => [')', '+', '-', '*', '/', '^']

def Rule.MayFollow (r : Rule) (rest : List Char) : Prop :=
  ∀ c ∈ rest.head?, c ∈ r.follow

@[simp] theorem mayFollow_nil (r : Rule) : r.MayFollow [] := by
  simp [Rule.MayFollow]

@[simp] theorem mayFollow_cons {r : Rule} {c : Char} {rest : List Char} :
    r.MayFollow (c :: rest) ↔ c ∈ r.follow := by
  simp [Rule.MayFollow]

theorem Rule.MayFollow.mono {r r' : Rule} {rest : List Char} (h : r.MayFollow rest)
    (le : r.follow ⊆ r'.follow) : r'.MayFollow rest :=
  fun c hc => le (h c hc)

theorem Rule.MayFollow.head {r : Rule} {rest : List Glyph} (h : r.MayFollow (rest.map Glyph.char)) :
    ∀ g ∈ rest.head?, g.char ∈ r.follow := by
  intro g hg
  exact h g.char (by simp [Option.mem_def.mp hg])

theorem symbol_mem_follow_term {op : Operator} (h : op.isAdditive = true) :
    op.symbol ∈ Rule.term.follow := by
  cases op <;> simp_all [Operator.isAdditive, Operator.symbol, Rule.follow]

theorem symbol_mem_follow_power {op : Operator} (h : op.isMultiplicative = true) :
    op.symbol ∈ Rule.power.follow := by
  cases op <;> simp_all [Operator.isMultiplicative, Operator.symbol, Rule.follow]

theorem symbol_not_mem_follow_expression (op : Operator) : op.symbol ∉ Rule.expression.follow := by
  cases op <;> decide

theorem symbol_not_mem_follow_term {op : Operator} (h : op.isMultiplicative = true) :
    op.symbol ∉ Rule.term.follow := by
  cases op <;> simp_all [Operator.isMultiplicative, Operator.symbol, Rule.follow]

theorem not_isNumeric_of_follow {r : Rule} {c : Char} (h : c ∈ r.follow) : isNumeric c = false := by
  have all : ∀ c ∈ Rule.function.follow, isNumeric c = false := by
    simp [Rule.follow, isNumeric]
  apply all
  cases r <;> simp_all [Rule.follow] <;> tauto

theorem takeWhile_append_of_stop {α : Type} {p : α → Bool} {l rest : List α}
    (run : ∀ a ∈ l, p a = true) (stop : ∀ a ∈ rest.head?, p a = false) :
    (l ++ rest).takeWhile p = l := by
  rw [List.takeWhile_append_of_pos run]
  cases rest with
  | nil => simp
  | cons a rest => simp [stop a rfl]

theorem dropWhile_append_of_stop {α : Type} {p : α → Bool} {l rest : List α}
    (run : ∀ a ∈ l, p a = true) (stop : ∀ a ∈ rest.head?, p a = false) :
    (l ++ rest).dropWhile p = rest := by
  have whole := List.takeWhile_append_dropWhile (p := p) (l := l ++ rest)
  rw [takeWhile_append_of_stop run stop] at whole
  exact List.append_cancel_left whole

theorem append_inj_of_stop {α : Type} {p : α → Bool} {l l' rest rest' : List α}
    (eq : l ++ rest = l' ++ rest') (run : ∀ a ∈ l, p a = true) (run' : ∀ a ∈ l', p a = true)
    (stop : ∀ a ∈ rest.head?, p a = false) (stop' : ∀ a ∈ rest'.head?, p a = false) :
    l = l' ∧ rest = rest' := by
  have same : l = l' := by
    rw [← takeWhile_append_of_stop run stop, eq, takeWhile_append_of_stop run' stop']
  subst same
  exact ⟨rfl, List.append_cancel_left eq⟩

namespace Numeral

theorem isNumeric_of_mem {x : Numeral} {c : Char} (h : c ∈ x.text) : isNumeric c = true := by
  unfold isNumeric
  unfold text at h
  cases hf : x.fraction with
  | none =>
    simp only [hf, Option.elim_none, List.append_nil] at h
    simp [x.whole_isDigit c h]
  | some ds =>
    simp only [hf, Option.elim_some, List.mem_append, List.mem_cons] at h
    obtain h | rfl | h := h
    · simp [x.whole_isDigit c h]
    · simp
    · simp [x.fraction_isDigit ds hf c h]

theorem not_isDigit_head_fraction (fraction : Option (List Char)) :
    ∀ c ∈ (fraction.elim [] ('.' :: ·)).head?, c.isDigit = false := by
  cases fraction with
  | none => simp
  | some ds => simp

theorem text_inj {x y : Numeral} (h : x.text = y.text) : x = y := by
  obtain ⟨whole, fraction⟩ := append_inj_of_stop h x.whole_isDigit y.whole_isDigit
    (not_isDigit_head_fraction x.fraction) (not_isDigit_head_fraction y.fraction)
  refine Numeral.ext whole ?_
  cases hx : x.fraction <;> cases hy : y.fraction <;> simp_all

theorem exists_text_eq_cons (x : Numeral) : ∃ c cs, x.text = c :: cs ∧ c.isDigit = true := by
  obtain ⟨c, cs, h⟩ := List.exists_cons_of_ne_nil x.whole_ne_nil
  exact ⟨c, cs ++ x.fraction.elim [] ('.' :: ·), by simp [text, h], x.whole_isDigit c (by simp [h])⟩

end Numeral

theorem isNumeric_of_text {gs : List Glyph} {x : Numeral} (h : gs.map Glyph.char = x.text) :
    ∀ g ∈ gs, isNumeric g.char = true :=
  fun _ hg => Numeral.isNumeric_of_mem (h ▸ List.mem_map_of_mem hg)

def Tree.BeginsWith : Tree → Char → Prop
  | root _, c => c = 's'
  | group _, c => c = '('
  | _, c => c.isDigit = true

theorem Derives.exists_function_eq_cons {n : Nat} {gs : List Glyph} {t : Tree}
    (h : Derives n .function gs t) : ∃ g rest, gs = g :: rest ∧ t.BeginsWith g.char := by
  cases h with
  | @root _ gs t call close word inner closed =>
    obtain ⟨g, more, rfl, head, -⟩ := List.map_eq_cons_iff.mp (show call.map _ = 's' :: _ from word)
    exact ⟨g, _, rfl, head⟩
  | group opened inner closed => exact ⟨_, _, rfl, opened⟩
  | @number _ _ x text contiguous =>
    obtain ⟨c, cs, hx, digit⟩ := x.exists_text_eq_cons
    obtain ⟨g, more, rfl, rfl, -⟩ := List.map_eq_cons_iff.mp (text.trans hx)
    exact ⟨g, more, rfl, digit⟩

theorem Derives.not_minus {n : Nat} {gs : List Glyph} {t : Tree} (h : Derives n .function gs t)
    (rest : List Char) : ∀ c ∈ (gs.map Glyph.char ++ rest).head?, (c == '-') = false := by
  obtain ⟨g, more, rfl, begins⟩ := h.exists_function_eq_cons
  suffices g.char ≠ '-' by simpa using this
  intro minus
  rw [minus] at begins
  cases t <;> simp [Tree.BeginsWith] at begins

theorem Derives.beginsWith {n : Nat} {gs : List Glyph} {t : Tree} {c : Char} {cs rest : List Char}
    (h : Derives n .function gs t) (eq : c :: cs = gs.map Glyph.char ++ rest) : t.BeginsWith c := by
  obtain ⟨g, more, rfl, begins⟩ := h.exists_function_eq_cons
  rwa [(List.cons.inj eq).1]

theorem Derives.mayFollow_summands {n : Nat} {t u : Tree} {hs : List Glyph} {rest : List Char}
    (h : Derives n (.summands t) hs u) (hrest : Rule.expression.MayFollow rest) :
    Rule.term.MayFollow (hs.map Glyph.char ++ rest) := by
  cases h with
  | summandsEnd => exact hrest.mono (by decide)
  | summandsMore char additive _ _ => simp [char, symbol_mem_follow_term additive]

theorem Derives.mayFollow_factors {n : Nat} {t u : Tree} {hs : List Glyph} {rest : List Char}
    (h : Derives n (.factors t) hs u) (hrest : Rule.term.MayFollow rest) :
    Rule.power.MayFollow (hs.map Glyph.char ++ rest) := by
  cases h with
  | factorsEnd => exact hrest.mono (by decide)
  | factorsMore char multiplicative _ _ => simp [char, symbol_mem_follow_power multiplicative]

/-- Whatever else the rule derives of the same characters, each of the two followed by what may
follow it, ends at the same place and has the same tree. -/
def Determines (r : Rule) (cs : List Char) (t : Tree) : Prop :=
  ∀ ⦃m gs t' rest rest'⦄, Derives m r gs t' → cs ++ rest = gs.map Glyph.char ++ rest' →
    r.MayFollow rest → r.MayFollow rest' → cs = gs.map Glyph.char ∧ t = t'

section Determines

variable {cs ds : List Char} {t u v : Tree} {op : Operator}

theorem Determines.append {r : Rule} (tail : Tree → Rule) (first : Determines r cs t)
    (more : Determines (tail t) ds u) {n m : Nat} {gs hs : List Glyph} {t' u' : Tree}
    {rest rest' : List Char} (first' : Derives n r gs t') (more' : Derives m (tail t') hs u')
    (eq : cs ++ (ds ++ rest) = gs.map Glyph.char ++ (hs.map Glyph.char ++ rest'))
    (between : r.MayFollow (ds ++ rest)) (between' : r.MayFollow (hs.map Glyph.char ++ rest'))
    (hrest : (tail t).MayFollow rest) (hrest' : (tail t').MayFollow rest') :
    cs ++ ds = gs.map Glyph.char ++ hs.map Glyph.char ∧ u = u' := by
  obtain ⟨same, rfl⟩ := first first' eq between between'
  rw [same] at eq ⊢
  obtain ⟨same', rfl⟩ := more more' (List.append_cancel_left eq) hrest hrest'
  exact ⟨by rw [same'], rfl⟩

theorem determines_expression (first : Determines .term cs t) (more : Determines (.summands t) ds u)
    (between : ∀ {rest}, Rule.expression.MayFollow rest → Rule.term.MayFollow (ds ++ rest)) :
    Determines .expression (cs ++ ds) u := by
  intro m gs' t' rest rest' h' eq hrest hrest'
  cases h' with
  | expression first' more' =>
    simp only [List.map_append, List.append_assoc] at eq ⊢
    exact first.append .summands more first' more' eq (between hrest)
      (more'.mayFollow_summands hrest') hrest hrest'

theorem determines_summandsEnd : Determines (.summands t) [] t := by
  intro m gs' t' rest rest' h' eq hrest hrest'
  cases h' with
  | summandsEnd => exact ⟨rfl, rfl⟩
  | summandsMore char additive _ _ =>
    -- where one derivation goes on, the other is followed by an operator, which it may not be
    obtain rfl : rest = _ := eq
    exact absurd (char ▸ mayFollow_cons.mp hrest) (symbol_not_mem_follow_expression _)

theorem determines_summandsMore (operand : Determines .term cs u)
    (more : Determines (.summands (.binary op t u)) ds v)
    (between : ∀ {rest}, Rule.expression.MayFollow rest → Rule.term.MayFollow (ds ++ rest)) :
    Determines (.summands t) (op.symbol :: (cs ++ ds)) v := by
  intro m gs' t' rest rest' h' eq hrest hrest'
  cases h' with
  | summandsEnd =>
    obtain rfl : _ = rest' := eq
    exact absurd (mayFollow_cons.mp hrest') (symbol_not_mem_follow_expression _)
  | summandsMore char' additive' operand' more' =>
    simp only [List.map_cons, List.map_append, List.cons_append, List.cons.injEq,
      List.append_assoc] at eq ⊢
    obtain ⟨symbol, eq⟩ := eq
    obtain rfl := Operator.symbol_injective (symbol.trans char')
    obtain ⟨same, tree⟩ := operand.append (fun w => .summands (.binary op t w)) more
      operand' more' eq (between hrest) (more'.mayFollow_summands hrest') hrest hrest'
    exact ⟨⟨symbol, same⟩, tree⟩

theorem determines_term (first : Determines .power cs t) (more : Determines (.factors t) ds u)
    (between : ∀ {rest}, Rule.term.MayFollow rest → Rule.power.MayFollow (ds ++ rest)) :
    Determines .term (cs ++ ds) u := by
  intro m gs' t' rest rest' h' eq hrest hrest'
  cases h' with
  | term first' more' =>
    simp only [List.map_append, List.append_assoc] at eq ⊢
    exact first.append .factors more first' more' eq (between hrest)
      (more'.mayFollow_factors hrest') hrest hrest'

theorem determines_factorsEnd : Determines (.factors t) [] t := by
  intro m gs' t' rest rest' h' eq hrest hrest'
  cases h' with
  | factorsEnd => exact ⟨rfl, rfl⟩
  | factorsMore char multiplicative _ _ =>
    obtain rfl : rest = _ := eq
    exact absurd (char ▸ mayFollow_cons.mp hrest) (symbol_not_mem_follow_term multiplicative)

theorem determines_factorsMore (multiplicative : op.isMultiplicative = true)
    (operand : Determines .power cs u) (more : Determines (.factors (.binary op t u)) ds v)
    (between : ∀ {rest}, Rule.term.MayFollow rest → Rule.power.MayFollow (ds ++ rest)) :
    Determines (.factors t) (op.symbol :: (cs ++ ds)) v := by
  intro m gs' t' rest rest' h' eq hrest hrest'
  cases h' with
  | factorsEnd =>
    obtain rfl : _ = rest' := eq
    exact absurd (mayFollow_cons.mp hrest') (symbol_not_mem_follow_term multiplicative)
  | factorsMore char' multiplicative' operand' more' =>
    simp only [List.map_cons, List.map_append, List.cons_append, List.cons.injEq,
      List.append_assoc] at eq ⊢
    obtain ⟨symbol, eq⟩ := eq
    obtain rfl := Operator.symbol_injective (symbol.trans char')
    obtain ⟨same, tree⟩ := operand.append (fun w => .factors (.binary op t w)) more
      operand' more' eq (between hrest) (more'.mayFollow_factors hrest') hrest hrest'
    exact ⟨⟨symbol, same⟩, tree⟩

theorem determines_base (operand : Determines .unary cs t) : Determines .power cs t := by
  intro m gs' t' rest rest' h' eq hrest hrest'
  cases h' with
  | base operand' => exact operand operand' eq (hrest.mono (by decide)) (hrest'.mono (by decide))
  | raised operand' caret' exponent' =>
    simp only [List.map_append, List.map_cons, List.append_assoc, List.cons_append] at eq
    obtain ⟨same, rfl⟩ :=
      operand operand' eq (hrest.mono (by decide)) (by simp [caret', Rule.follow])
    rw [same] at eq
    obtain rfl := List.append_cancel_left eq
    simp [caret', Rule.follow] at hrest

theorem determines_raised (operand : Determines .unary cs t) (exponent : Determines .power ds u) :
    Determines .power (cs ++ '^' :: ds) (.binary .power t u) := by
  intro m gs' t' rest rest' h' eq hrest hrest'
  rw [List.append_assoc, List.cons_append] at eq
  cases h' with
  | base operand' =>
    obtain ⟨same, rfl⟩ := operand operand' eq (by simp [Rule.follow]) (hrest'.mono (by decide))
    rw [same] at eq
    obtain rfl := List.append_cancel_left eq
    simp [Rule.follow] at hrest'
  | raised operand' caret' exponent' =>
    simp only [List.map_append, List.map_cons, List.append_assoc, List.cons_append] at eq ⊢
    obtain ⟨same, rfl⟩ :=
      operand operand' eq (by simp [Rule.follow]) (by simp [caret', Rule.follow])
    rw [same] at eq ⊢
    obtain ⟨symbol, eq⟩ := List.cons.inj (List.append_cancel_left eq)
    obtain ⟨same', rfl⟩ := exponent exponent' eq hrest hrest'
    exact ⟨by rw [symbol, same'], rfl⟩

theorem determines_unary {minuses : List Char} (run : ∀ c ∈ minuses, c = '-')
    (stop : ∀ rest, ∀ c ∈ (cs ++ rest).head?, (c == '-') = false)
    (operand : Determines .function cs t) :
    Determines .unary (minuses ++ cs) (.signs minuses.length t) := by
  intro m gs' t' rest rest' h' eq hrest hrest'
  cases h' with
  | unary run' operand' =>
    simp only [List.map_append, List.append_assoc] at eq ⊢
    obtain ⟨signs, more⟩ := append_inj_of_stop (p := (· == '-')) eq (by simpa using run)
      (by simpa using run') (stop rest) (operand'.not_minus _)
    obtain ⟨same, rfl⟩ := operand operand' more hrest hrest'
    exact ⟨by rw [signs, same], by rw [signs, List.length_map]⟩

theorem determines_root (inside : Determines .expression cs t) :
    Determines .function (rootWord ++ (cs ++ [')'])) (.root t) := by
  intro m gs' t' rest rest' h' eq hrest hrest'
  have begins : t'.BeginsWith 's' := h'.beginsWith eq
  cases h' with
  | group => simp [Tree.BeginsWith] at begins
  | number => simp [Tree.BeginsWith] at begins
  | root word' inner' closed' =>
    simp only [List.map_append, List.map_cons, List.map_nil, List.append_assoc,
      List.cons_append, List.nil_append, word', closed'] at eq ⊢
    obtain ⟨same, rfl⟩ := inside inner' (List.append_cancel_left eq) (by simp [Rule.follow])
      (by simp [Rule.follow])
    exact ⟨by rw [same], rfl⟩

theorem determines_group (inside : Determines .expression cs t) :
    Determines .function ('(' :: (cs ++ [')'])) (.group t) := by
  intro m gs' t' rest rest' h' eq hrest hrest'
  have begins : t'.BeginsWith '(' := h'.beginsWith eq
  cases h' with
  | root => simp [Tree.BeginsWith] at begins
  | number => simp [Tree.BeginsWith] at begins
  | group opened' inner' closed' =>
    simp only [List.map_append, List.map_cons, List.map_nil, List.append_assoc,
      List.cons_append, List.nil_append, opened', closed', List.cons.injEq, true_and] at eq ⊢
    obtain ⟨same, rfl⟩ := inside inner' eq (by simp [Rule.follow]) (by simp [Rule.follow])
    exact ⟨by rw [same], rfl⟩

theorem determines_number (x : Numeral) : Determines .function x.text (.literal x) := by
  intro m gs' t' rest rest' h' eq hrest hrest'
  obtain ⟨c, cs, hx, digit⟩ := x.exists_text_eq_cons
  have begins : t'.BeginsWith c := h'.beginsWith (by rw [← eq, hx, List.cons_append])
  cases h' with
  | root => simp [show c = 's' from begins] at digit
  | group => simp [show c = '(' from begins] at digit
  | number text' contiguous' =>
    rw [text'] at eq ⊢
    obtain ⟨same, -⟩ := append_inj_of_stop eq (fun c => Numeral.isNumeric_of_mem)
      (fun c => Numeral.isNumeric_of_mem) (fun c hc => not_isNumeric_of_follow (hrest c hc))
      fun c hc => not_isNumeric_of_follow (hrest' c hc)
    exact ⟨same, congrArg Tree.literal (Numeral.text_inj same)⟩

end Determines

theorem Derives.unique {n : Nat} {r : Rule} {gs : List Glyph} {t : Tree} (h : Derives n r gs t) :
    Determines r (gs.map Glyph.char) t := by
  -- by induction on the one derivation; for each rule the other is taken apart in its lemma
  induction h with
  | expression first more ih ihMore =>
    rw [List.map_append]
    exact determines_expression ih ihMore more.mayFollow_summands
  | summandsEnd => exact determines_summandsEnd
  | summandsMore char additive operand more ih ihMore =>
    rw [List.map_cons, List.map_append, char]
    exact determines_summandsMore ih ihMore more.mayFollow_summands
  | term first more ih ihMore =>
    rw [List.map_append]
    exact determines_term ih ihMore more.mayFollow_factors
  | factorsEnd => exact determines_factorsEnd
  | factorsMore char multiplicative operand more ih ihMore =>
    rw [List.map_cons, List.map_append, char]
    exact determines_factorsMore multiplicative ih ihMore more.mayFollow_factors
  | base operand ih => exact determines_base ih
  | raised operand caret exponent ih ihExponent =>
    rw [List.map_append, List.map_cons, caret]
    exact determines_raised ih ihExponent
  | @unary n gs t minuses run operand ih =>
    have run' : ∀ c ∈ minuses.map Glyph.char, c = '-' := by simpa using run
    have signs := determines_unary run' operand.not_minus ih
    rwa [List.length_map, ← List.map_append] at signs
  | root word inner closed ih =>
    simp only [List.map_append, List.map_cons, List.map_nil, word, closed]
    exact determines_root ih
  | group opened inner closed ih =>
    simp only [List.map_append, List.map_cons, List.map_nil, opened, closed]
    exact determines_group ih
  | @number n gs x text contiguous =>
    rw [text]
    exact determines_number x

end Abacus.Expression
