import Mathlib
import Abacus.Proofs.Expression.Completeness
import Abacus.Proofs.Source

/-!
The places where productions are entered. What stands before such a place is part of an expression:
whatever the rule derives there can be followed by characters that finish it. A fault of the syntax
is blamed on such a place, so the glyphs before it are the beginning of an expression.
-/

namespace Abacus.Expression

open Scan

def Opens (gs : List Glyph) : Prop :=
  gs.map Glyph.char = rootWord ∨ gs.map Glyph.char = ['(']

theorem Derives.bracketed {n : Nat} {opening gs : List Glyph} {close : Glyph} {t : Tree}
    (opens : Opens opening) (inner : Derives n .expression gs t) (closed : close.char = ')') :
    ∃ u, Derives n .function (opening ++ (gs ++ [close])) u := by
  cases opens with
  | inl word => exact ⟨.root t, .root word inner closed⟩
  | inr bracket =>
    obtain ⟨g, tail, rfl, char, tail_nil⟩ := List.map_eq_cons_iff.mp bracket
    rw [List.map_eq_nil_iff.mp tail_nil]
    exact ⟨.group t, .group char inner closed⟩

/-- Reading under the limit, the rule may be entered after the glyphs, with so many levels left.
What stands before an operator is part of a chain that goes on with any tail. -/
inductive Entered (limit : Nat) : Nat → Rule → List Glyph → Prop
  | start : Entered limit limit .expression []
  | term {n before} : Entered limit (n + 1) .expression before → Entered limit n .term before
  | summand {n before gs t} {op : Operator} {g : Glyph} : Entered limit (n + 1) .expression before →
      (∀ hs u, Derives n (.summands t) hs u → Derives (n + 1) .expression (gs ++ hs) u) →
      g.char = op.symbol → op.isAdditive = true → Entered limit n .term (before ++ (gs ++ [g]))
  | power {n before} : Entered limit n .term before → Entered limit n .power before
  | factor {n before gs t} {op : Operator} {g : Glyph} : Entered limit n .term before →
      (∀ hs u, Derives n (.factors t) hs u → Derives n .term (gs ++ hs) u) →
      g.char = op.symbol → op.isMultiplicative = true →
      Entered limit n .power (before ++ (gs ++ [g]))
  | exponent {n before gs t} {g : Glyph} : Entered limit n .power before → Derives n .unary gs t →
      g.char = '^' → Entered limit n .power (before ++ (gs ++ [g]))
  | unary {n before} : Entered limit n .power before → Entered limit n .unary before
  | function {n before} {minuses : List Glyph} : Entered limit n .unary before →
      (∀ g ∈ minuses, g.char = '-') → Entered limit n .function (before ++ minuses)
  | inside {n before opening} : Entered limit n .function before → Opens opening →
      Entered limit n .expression (before ++ opening)

/-- Whatever the rule derives after the glyphs becomes an expression within the limit when the right
characters follow it, none of them blank. -/
def Expects (limit n : Nat) (r : Rule) (before : List Glyph) : Prop :=
  ∃ closers : List Char, Text.stripped closers = closers ∧ ∀ gs t hs, Derives n r gs t →
    hs.map Glyph.char = closers → ∃ u, Derives limit .expression (before ++ (gs ++ hs)) u

theorem Expects.of_part {limit n m : Nat} {r r' : Rule} {before : List Glyph}
    (h : Expects limit n r before) (more : List Glyph)
    (part : ∀ gs t, Derives m r' gs t → ∃ u, Derives n r (more ++ gs) u) :
    Expects limit m r' (before ++ more) := by
  obtain ⟨closers, solid, finish⟩ := h
  refine ⟨closers, solid, fun gs t hs derived chars => ?_⟩
  obtain ⟨u, whole⟩ := part gs t derived
  simpa using finish _ u hs whole chars

theorem Expects.inside {limit n : Nat} {before opening : List Glyph}
    (h : Expects limit n .function before) (opens : Opens opening) :
    Expects limit n .expression (before ++ opening) := by
  obtain ⟨closers, solid, finish⟩ := h
  refine ⟨')' :: closers, by rw [Text.stripped_cons rfl, solid], fun gs t hs inner chars => ?_⟩
  obtain ⟨close, more, rfl, closed, chars⟩ := List.map_eq_cons_iff.mp chars
  obtain ⟨u, whole⟩ := inner.bracketed opens closed
  simpa using finish _ u more whole chars

theorem Entered.expects {limit n : Nat} {r : Rule} {before : List Glyph}
    (h : Entered limit n r before) : Expects limit n r before := by
  induction h with
  | start =>
    refine ⟨[], rfl, fun gs t hs derived chars => ⟨t, ?_⟩⟩
    simpa [List.map_eq_nil_iff.mp chars] using derived
  | term _ ih =>
    have part := ih.of_part [] fun gs t first =>
      ⟨t, by simpa using Derives.expression first .summandsEnd⟩
    simpa using part
  | @summand n before gs t op g _ chain char additive ih =>
    refine ih.of_part _ fun hs u operand => ⟨.binary op t u, ?_⟩
    simpa using chain _ _ (.summandsMore char additive operand .summandsEnd)
  | power _ ih =>
    have part := ih.of_part [] fun gs t first =>
      ⟨t, by simpa using Derives.term first .factorsEnd⟩
    simpa using part
  | @factor n before gs t op g _ chain char multiplicative ih =>
    refine ih.of_part _ fun hs u operand => ⟨.binary op t u, ?_⟩
    simpa using chain _ _ (.factorsMore char multiplicative operand .factorsEnd)
  | @exponent n before gs t g _ base caret ih =>
    refine ih.of_part _ fun hs u power => ⟨.binary .power t u, ?_⟩
    simpa using Derives.raised base caret power
  | unary _ ih =>
    have part := ih.of_part [] fun gs t operand => ⟨t, .base operand⟩
    simpa using part
  | function _ run ih => exact ih.of_part _ fun gs t operand => ⟨_, .unary run operand⟩
  | inside _ opens ih => exact ih.inside opens

def Completable (limit : Nat) (before : List Glyph) : Prop :=
  ∃ completion : List Char, Text.stripped completion = completion ∧ ∀ hs : List Glyph,
    hs.map Glyph.char = completion → ∃ u, Derives limit .expression (before ++ hs) u

theorem Expects.completable {limit n : Nat} {r : Rule} {before gs : List Glyph} {t : Tree}
    (h : Expects limit n r before) (derived : Derives n r gs t) :
    Completable limit (before ++ gs) := by
  obtain ⟨closers, solid, finish⟩ := h
  refine ⟨closers, solid, fun hs chars => ?_⟩
  simpa using finish gs t hs derived chars

theorem Entered.completable {limit n : Nat} {before : List Glyph}
    (h : Entered limit n .function before) : Completable limit before := by
  -- any number will do where a function is expected
  obtain ⟨closers, solid, finish⟩ := h.expects
  refine ⟨'1' :: closers, by rw [Text.stripped_cons rfl, solid], fun hs chars => ?_⟩
  obtain ⟨g, more, rfl, one, chars⟩ := List.map_eq_cons_iff.mp chars
  let x : Numeral := ⟨['1'], none, by simp, by simp, by simp⟩
  have text : [g].map Glyph.char = x.text := by simp [x, Numeral.text, one]
  exact finish [g] _ more (.number text (List.isChain_singleton g)) chars

theorem Entered.completable_inside {limit n : Nat} {before opening gs : List Glyph} {t : Tree}
    (h : Entered limit n .function before) (opens : Opens opening)
    (inner : Derives n .expression gs t) : Completable limit (before ++ (opening ++ gs)) := by
  -- a bracket that was opened can be closed
  rw [← List.append_assoc]
  exact (h.expects.inside opens).completable inner

/-- What a fault is blamed on. A fault of the syntax points right after what could be finished. -/
inductive Blamed (src : Source) (limit : Nat) : Fault → Prop
  | arithmetic {f : Fault} : f.IsArithmetic → Blamed src limit f
  | tooDeeplyNested {span} : Blamed src limit ⟨.tooDeeplyNested limit, span⟩
  | syntactic {f : Fault} {before after span} : src.glyphs = before ++ after →
      Completable limit before → f.span = some span → span.start = (src.span after).start →
      Blamed src limit f

def Taken (n : Nat) (r : Rule) (s rest : List Glyph) : Prop :=
  ∃ gs t, s = gs ++ rest ∧ Derives n r gs t

/-- Entered where the rule is, the production takes what the rule derives, or there is a place to
blame. -/
def Blames (src : Source) (limit : Nat) (x : Production Float) (n : Nat) (r : Rule) : Prop :=
  ∀ before s, src.glyphs = before ++ s → Entered limit n r before →
    Ends x s (fun _ => Taken n r s) (Blamed src limit)

variable {src : Source} {limit n : Nat}

theorem blames_number : Blames src limit (Literal.number src) n .function := by
  intro before s place entered
  have parts := Literal.split_append s
  refine ends_number.mpr ⟨fun v hv => ?_, fun f hf => ?_⟩
  · obtain ⟨x, text, -⟩ := exists_of_literal_value hv
    exact ⟨(Literal.split s).1, .literal x, parts.symm, .number text (contiguous_split s)⟩
  · obtain ⟨nothing, rfl⟩ | ⟨-, rfl⟩ := literal_value_error hf
    · rw [nothing, List.nil_append] at parts
      exact .syntactic place entered.completable rfl (by rw [parts])
    · have start := congrArg (fun gs => (src.span gs).start) parts
      exact .syntactic place entered.completable rfl start

theorem blames_closing {Q : Glyph → List Glyph → Prop} {before opening gs after : List Glyph}
    {t : Tree} (place : src.glyphs = before ++ (opening ++ (gs ++ after)))
    (entered : Entered limit n .function before) (opens : Opens opening)
    (inner : Derives n .expression gs t)
    (closed : ∀ close rest, after = close :: rest → close.char = ')' → Q close rest) :
    Ends (closing src) after Q (Blamed src limit) := by
  have place' : src.glyphs = (before ++ (opening ++ gs)) ++ after := by simp [place]
  exact ends_closing closed (.syntactic place' (entered.completable_inside opens inner) rfl rfl)

theorem blames_root (inside : Blames src limit (expression src limit n) n .expression)
    {before call s : List Glyph} (place : src.glyphs = before ++ (call ++ s))
    (entered : Entered limit n .function before) (word : call.map Glyph.char = rootWord) :
    Ends (root src (expression src limit n)) (call ++ s) (fun _ => Taken n .function (call ++ s))
      (Blamed src limit) := by
  have length : call.length = rootWord.length := by rw [← word, List.length_map]
  refine ends_root.mpr ?_
  rw [← length, List.drop_left]
  refine Ends.imp (inside (before ++ call) s (by simp [place]) (entered.inside (.inl word))) ?_
  rintro x rest ⟨gs, t, rfl, inner⟩
  refine blames_closing place entered (.inl word) inner fun close more hrest closed => ?_
  subst hrest
  refine ⟨fun y _ => ⟨call ++ (gs ++ [close]), .root t, by simp, .root word inner closed⟩, ?_⟩
  intro f failed
  rw [squareRoot_error failed]
  exact .arithmetic (.inr rfl)

theorem blames_group (inside : Blames src limit (expression src limit n) n .expression)
    {before s : List Glyph} {g : Glyph} (place : src.glyphs = before ++ g :: s)
    (entered : Entered limit n .function before) (char : g.char = '(') :
    Ends (group src (expression src limit n)) (g :: s) (fun _ => Taken n .function (g :: s))
      (Blamed src limit) := by
  have opens : Opens [g] := .inr (by simp [char])
  refine ends_group.mpr ?_
  refine Ends.imp (inside (before ++ [g]) s (by simp [place]) (entered.inside opens)) ?_
  rintro x rest ⟨gs, t, rfl, inner⟩
  have place' : src.glyphs = before ++ ([g] ++ (gs ++ rest)) := place
  refine blames_closing place' entered opens inner fun close more hrest closed => ?_
  exact ⟨g :: (gs ++ [close]), .group t, by simp [hrest], .group char inner closed⟩

theorem blames_function (inside : Blames src limit (expression src limit n) n .expression) :
    Blames src limit (function src (expression src limit n)) n .function := by
  intro before s place entered
  refine ends_function (fun call rest taken word => ?_) (fun g rest taken char => ?_)
    (blames_number before s place entered)
  · rw [taken] at place ⊢
    exact blames_root inside place entered word
  · rw [taken] at place ⊢
    exact blames_group inside place entered char

theorem blames_unary (inside : Blames src limit (expression src limit n) n .expression) :
    Blames src limit (unary src (expression src limit n)) n .unary := by
  intro before s place entered
  have parts := List.takeWhile_append_dropWhile (p := fun g : Glyph => g.char == '-') (l := s)
  have run : ∀ g ∈ s.takeWhile fun g : Glyph => g.char == '-', g.char = '-' := fun g hg => by
    simpa using List.mem_takeWhile_imp hg
  have place' : src.glyphs = (before ++ s.takeWhile fun g : Glyph => g.char == '-') ++
      s.dropWhile fun g : Glyph => g.char == '-' := by rw [List.append_assoc, parts, place]
  refine ends_unary.mpr (Ends.imp (blames_function inside _ _ place' (entered.function run)) ?_)
  rintro v rest ⟨gs, t, taken, derived⟩
  refine ⟨_ ++ gs, _, ?_, .unary run derived⟩
  rw [List.append_assoc, ← taken, parts]

/-- The operands of a tower have been read up to its top; below it a power was entered, and whatever
power the top belongs to, the bases can be put under it. -/
def Towers (limit n : Nat) (before s rest : List Glyph) : Prop :=
  ∃ below gs t, s = below ++ (gs ++ rest) ∧ Derives n .unary gs t ∧
    Entered limit n .power (before ++ below) ∧
    ∀ hs u, Derives n .power hs u → ∃ w, Derives n .power (below ++ hs) w

theorem blames_power (inside : Blames src limit (expression src limit n) n .expression) :
    Blames src limit (power src (expression src limit n)) n .power := by
  intro before s place entered
  refine ends_power.mpr (Ends.imp (blames_unary inside before s place entered.unary) ?_)
  rintro x rest ⟨gs, t, rfl, first⟩
  have towers : Towers limit n before (gs ++ rest) rest :=
    ⟨[], gs, t, rfl, first, by simpa using entered, fun hs u power => ⟨u, power⟩⟩
  refine Ends.imp (Q := fun _ => Towers limit n before (gs ++ rest)) (ends_powers towers ?_) ?_
  · rintro tower g rest' ⟨below, us, u, taken, operand, lower, finish⟩ caret
    have higher := lower.exponent operand caret
    refine Ends.imp (blames_unary inside _ rest' ?_ higher.unary) ?_
    · simp [place, taken]
    · rintro y more ⟨vs, v, rfl, exponent⟩
      refine ⟨below ++ (us ++ [g]), vs, v, by simp [taken], exponent, by simpa using higher, ?_⟩
      intro hs w power
      obtain ⟨w', power'⟩ := finish _ _ (.raised operand caret power)
      exact ⟨w', by simpa using power'⟩
  · rintro tower rest' ⟨below, us, u, taken, operand, -, finish⟩
    obtain ⟨w, power⟩ := finish us u (.base operand)
    exact ⟨below ++ us, w, by simp [taken], power⟩

def Links (n m : Nat) (r : Rule) (tail : Tree → Rule) (s rest : List Glyph) : Prop :=
  ∃ gs t, s = gs ++ rest ∧ ∀ hs u, Derives m (tail t) hs u → Derives n r (gs ++ hs) u

theorem blames_operations {m : Nat} {kind : Operator → Bool} {operand : Production Float}
    {span : Glyph → Option Span} {r r' : Rule} {tail : Tree → Rule} {before s rest : List Glyph}
    (blames : Blames src limit operand m r') (place : src.glyphs = before ++ s)
    (enter : ∀ {gs t op} {g : Glyph},
      (∀ hs u, Derives m (tail t) hs u → Derives n r (gs ++ hs) u) → g.char = op.symbol →
      kind op = true → Entered limit m r' (before ++ (gs ++ [g])))
    (done : ∀ t, Derives m (tail t) [] t)
    (more : ∀ {t u v op gs hs} {g : Glyph}, g.char = op.symbol → kind op = true →
      Derives m r' gs u → Derives m (tail (.binary op t u)) hs v →
      Derives m (tail t) (g :: (gs ++ hs)) v)
    (start : Links n m r tail s rest) (x : Float) :
    Ends (chain (operations kind operand span) x) rest (fun _ => Taken n r s)
      (Blamed src limit) := by
  -- what has been read so far goes in front of any tail, and that is kept from link to link
  refine Ends.imp (Q := fun _ => Links n m r tail s) (ends_operations start ?_) ?_
  · rintro v g rest' op ⟨gs, t, rfl, link⟩ char isKind
    refine Ends.imp (blames _ rest' (by simp [place]) (enter link char isKind)) ?_
    rintro y after ⟨us, u, rfl, derived⟩
    refine ⟨fun z _ => ⟨gs ++ g :: us, .binary op t u, by simp, fun hs w tail => ?_⟩, ?_⟩
    · simpa using link _ _ (more char isKind derived tail)
    · intro f failed
      rw [(apply_error failed).1]
      exact .arithmetic (.inl rfl)
  · rintro v rest' ⟨gs, t, taken, link⟩
    exact ⟨gs, t, taken, by simpa using link [] t (done t)⟩

theorem blames_term (inside : Blames src limit (expression src limit n) n .expression) :
    Blames src limit (term src (expression src limit n)) n .term := by
  intro before s place entered
  have factor := blames_power inside
  refine ends_term.mpr (Ends.imp (factor before s place entered.power) ?_)
  rintro x rest ⟨gs, t, taken, first⟩
  exact blames_operations factor place (fun link => entered.factor link) (fun _ => .factorsEnd)
    .factorsMore ⟨gs, t, taken, fun hs u => .term first⟩ x

theorem blames_sum (inside : Blames src limit (expression src limit n) n .expression) :
    Blames src limit (expression src limit (n + 1)) (n + 1) .expression := by
  intro before s place entered
  have summand := blames_term inside
  refine ends_expression_succ.mpr (ends_sum.mpr (Ends.imp (summand before s place entered.term) ?_))
  rintro x rest ⟨gs, t, taken, first⟩
  exact blames_operations summand place (fun link => entered.summand link) (fun _ => .summandsEnd)
    .summandsMore ⟨gs, t, taken, fun hs u => .expression first⟩ x

theorem blames_expression (src : Source) (limit n : Nat) :
    Blames src limit (expression src limit n) n .expression := by
  induction n with
  | zero =>
    intro before s place entered
    exact ends_expression_zero.mpr .tooDeeplyNested
  | succ n ih => exact blames_sum ih

theorem blamed_whole (src : Source) (limit : Nat) :
    Ends (whole src limit) src.glyphs (fun _ _ => True) (Blamed src limit) := by
  have blames := blames_expression src limit limit [] src.glyphs rfl .start
  refine ends_whole.mpr (Ends.imp blames ?_)
  rintro v rest ⟨gs, t, taken, derived⟩
  refine ⟨fun _ => trivial, fun g more hrest => ?_⟩
  have done : Completable limit gs :=
    ⟨[], rfl, fun hs chars => ⟨t, by simpa [List.map_eq_nil_iff.mp chars] using derived⟩⟩
  exact .syntactic taken done rfl (by simp [hrest])

end Abacus.Expression
