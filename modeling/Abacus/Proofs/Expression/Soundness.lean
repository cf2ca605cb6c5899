import Mathlib
import Abacus.Proofs.Expression.Brackets
import Abacus.Proofs.Expression.Completeness

/-!
What a production makes of any list of glyphs of the source. A value comes with a derivation of what
was taken and is the value of its tree; a fault says where it points. The glyphs before the list are
carried along for the faults: they tell how many brackets are open.
-/

namespace Abacus.Expression

open Scan

/-- What a fault says and where it points, by its cause. -/
inductive Points (src : Source) (limit : Nat) : Fault → Prop
  | unexpectedCharacter {before g after} : src.glyphs = before ++ g :: after →
      Points src limit ⟨.unexpectedCharacter g.char g.position, some g.span⟩
  | expectedNumber {before after} : src.glyphs = before ++ after →
      Points src limit ⟨.expectedNumber (after.head?.map Glyph.char) (src.position after),
        some (src.span after)⟩
  | expectedCharacter {before after c} : src.glyphs = before ++ after →
      Points src limit ⟨.expectedCharacter c (after.head?.map Glyph.char) (src.position after),
        some (src.span after)⟩
  | invalidNumber {before run after} : src.glyphs = before ++ (run ++ after) → run ≠ [] →
      Contiguous run → (∀ g ∈ run, Literal.isNumeric g.char = true) →
      Points src limit ⟨.invalidNumber (String.ofList (run.map Glyph.char))
        (src.position (run ++ after)), some (Literal.span src run after)⟩
  | divisionByZero {before g after} : src.glyphs = before ++ g :: after → g.char = '/' →
      Points src limit ⟨.divisionByZero, some g.span⟩
  | negativeSquareRoot {before call inner close after} :
      src.glyphs = before ++ (call ++ (inner ++ close :: after)) →
      call.map Glyph.char = rootWord → Balanced (inner.map Glyph.char) → close.char = ')' →
      Points src limit ⟨.negativeSquareRoot,
        some ⟨(src.span (call ++ (inner ++ close :: after))).start, close.offset + 1⟩⟩
  | tooDeeplyNested {before after} : src.glyphs = before ++ after →
      Opening (before.map Glyph.char) limit →
      Points src limit ⟨.tooDeeplyNested limit, some (src.span after)⟩

def Past (n : Nat) (r : Rule) (s : List Glyph) (v : Float) (rest : List Glyph) : Prop :=
  ∃ gs t, s = gs ++ rest ∧ Derives n r gs t ∧ t.value = some v

/-- With so many brackets open, the production takes what the rule derives or points at a fault. -/
def Sound (src : Source) (limit k : Nat) (x : Production Float) (n : Nat) (r : Rule) : Prop :=
  ∀ before s, src.glyphs = before ++ s → Unclosed (before.map Glyph.char) k →
    Ends x s (Past n r s) (Points src limit)

def SoundInside (src : Source) (limit k n : Nat) : Prop :=
  ∀ before s, src.glyphs = before ++ s → Opening (before.map Glyph.char) k →
    Ends (expression src limit n) s (Past n .expression s) (Points src limit)

variable {src : Source} {limit k n : Nat}

theorem sound_number : Sound src limit k (Literal.number src) n .function := by
  intro before s place _
  have parts := Literal.split_append s
  refine ends_number.mpr ⟨fun v hv => ?_, fun f hf => ?_⟩
  · obtain ⟨x, text, rfl⟩ := exists_of_literal_value hv
    exact ⟨(Literal.split s).1, .literal x, parts.symm, .number text (contiguous_split s), rfl⟩
  · obtain ⟨nothing, rfl⟩ | ⟨something, rfl⟩ := literal_value_error hf
    · rw [nothing, List.nil_append] at parts
      exact .expectedNumber (place.trans (by rw [parts]))
    · rw [← parts] at place
      exact .invalidNumber place something (contiguous_split s) isNumeric_split

theorem sound_root (inside : SoundInside src limit (k + 1) n) {before call s : List Glyph}
    (place : src.glyphs = before ++ (call ++ s)) (unclosed : Unclosed (before.map Glyph.char) k)
    (word : call.map Glyph.char = rootWord) :
    Ends (root src (expression src limit n)) (call ++ s) (Past n .function (call ++ s))
      (Points src limit) := by
  have length : call.length = rootWord.length := by rw [← word, List.length_map]
  have parts : rootWord = ['s', 'q', 'r', 't'] ++ ['('] := rfl
  have opening := unclosed.opening (word.trans parts) (.of_plain (by simp))
  refine ends_root.mpr ?_
  rw [← length, List.drop_left]
  refine Ends.imp (inside _ s (by simp [place]) opening) ?_
  rintro x rest ⟨gs, t, rfl, inner, value⟩
  refine ends_closing (fun close after hrest closed => ?_) ?_
  · subst hrest
    refine ⟨fun y hy => ?_, fun f hf => ?_⟩
    · refine ⟨call ++ (gs ++ [close]), .root t, by simp, .root word inner closed, ?_⟩
      rw [value_root value, hy]
      rfl
    · rw [squareRoot_error hf]
      exact .negativeSquareRoot place word inner.balanced closed
  · have place' : src.glyphs = (before ++ (call ++ gs)) ++ rest := by simp [place]
    exact .expectedCharacter place'

theorem sound_group (inside : SoundInside src limit (k + 1) n) {before s : List Glyph} {g : Glyph}
    (place : src.glyphs = before ++ g :: s) (unclosed : Unclosed (before.map Glyph.char) k)
    (char : g.char = '(') :
    Ends (group src (expression src limit n)) (g :: s) (Past n .function (g :: s))
      (Points src limit) := by
  have parts : [g].map Glyph.char = [] ++ ['('] := by simp [char]
  have opening := unclosed.opening parts .nil
  refine ends_group.mpr (Ends.imp (inside _ s (by simp [place]) opening) ?_)
  rintro x rest ⟨gs, t, rfl, inner, value⟩
  refine ends_closing (fun close after hrest closed => ?_) ?_
  · subst hrest
    exact ⟨g :: (gs ++ [close]), .group t, by simp, .group char inner closed, value⟩
  · have place' : src.glyphs = (before ++ g :: gs) ++ rest := by simp [place]
    exact .expectedCharacter place'

theorem sound_function (inside : SoundInside src limit (k + 1) n) :
    Sound src limit k (function src (expression src limit n)) n .function := by
  intro before s place unclosed
  refine ends_function (fun call rest taken word => ?_) (fun g rest taken char => ?_)
    (sound_number before s place unclosed)
  · rw [taken] at place ⊢
    exact sound_root inside place unclosed word
  · rw [taken] at place ⊢
    exact sound_group inside place unclosed char

theorem sound_unary (inside : SoundInside src limit (k + 1) n) :
    Sound src limit k (unary src (expression src limit n)) n .unary := by
  intro before s place unclosed
  have parts := List.takeWhile_append_dropWhile (p := fun g : Glyph => g.char == '-') (l := s)
  have run : ∀ g ∈ s.takeWhile fun g : Glyph => g.char == '-', g.char = '-' := fun g hg => by
    simpa using List.mem_takeWhile_imp hg
  have signs : Balanced ((s.takeWhile fun g : Glyph => g.char == '-').map Glyph.char) := by
    refine .of_plain fun c hc => ?_
    obtain ⟨g, hg, rfl⟩ := List.mem_map.mp hc
    simp [run g hg]
  refine ends_unary.mpr (Ends.imp (sound_function inside (before ++ s.takeWhile _) _
    (by rw [List.append_assoc, parts, place]) (unclosed.past signs)) ?_)
  rintro v rest ⟨gs, t, taken, derived, value⟩
  refine ⟨_ ++ gs, _, ?_, .unary run derived, ?_⟩
  · rw [List.append_assoc, ← taken, parts]
  · simp [Tree.value, value]

/-- The operands of a tower have been read up to its top; whatever power the top belongs to, the
bases can be put under it. -/
def Climbs (n : Nat) (s : List Glyph) (tower : Tower) (rest : List Glyph) : Prop :=
  ∃ below gs t, s = below ++ (gs ++ rest) ∧ Derives n .unary gs t ∧ t.value = some tower.top ∧
    ∀ hs u y, Derives n .power hs u → u.value = some y → ∃ w, Derives n .power (below ++ hs) w ∧
      w.value = some (Tower.value ⟨y, tower.bases⟩)

theorem sound_power (inside : SoundInside src limit (k + 1) n) :
    Sound src limit k (power src (expression src limit n)) n .power := by
  intro before s place unclosed
  refine ends_power.mpr (Ends.imp (sound_unary inside before s place unclosed) ?_)
  rintro x rest ⟨gs, t, rfl, first, value⟩
  have climbs : Climbs n (gs ++ rest) ⟨x, []⟩ rest :=
    ⟨[], gs, t, rfl, first, value, fun hs u y power hy => ⟨u, power, hy⟩⟩
  refine Ends.imp (Q := Climbs n (gs ++ rest)) (ends_powers climbs ?_) ?_
  · rintro tower g rest' ⟨below, us, u, taken, operand, hu, finish⟩ caret
    obtain ⟨w, power, -⟩ := finish us u _ (.base operand) hu
    have balanced : Balanced (_ ++ ['^']) := power.balanced.append (balanced_symbol .power)
    refine Ends.imp (sound_unary inside (before ++ (below ++ (us ++ [g]))) rest' ?_ ?_) ?_
    · simp [place, taken]
    · refine unclosed.past ?_
      simpa [caret] using balanced
    · -- the top becomes the last base, and what is read now the top
      rintro y more ⟨vs, v, rfl, exponent, hv⟩
      refine ⟨below ++ (us ++ [g]), vs, v, by simp [taken], exponent, hv, ?_⟩
      intro hs w z power hz
      have raised := Derives.raised operand caret power
      obtain ⟨w', power', hw'⟩ := finish _ _ _ raised (value_binary hu hz none)
      exact ⟨w', by simpa using power', hw'⟩
  · rintro tower rest' ⟨below, us, u, taken, operand, hu, finish⟩
    obtain ⟨w, power, hw⟩ := finish us u _ (.base operand) hu
    exact ⟨below ++ us, w, by simp [taken], power, hw⟩

/-- What has been read so far goes in front of any tail that goes on from its tree. -/
def Joined (n : Nat) (tail : Tree → Rule) (t : Tree) (s : List Glyph) (v : Float)
    (rest : List Glyph) : Prop :=
  ∃ gs u, s = gs ++ rest ∧ u.value = some v ∧ Balanced (gs.map Glyph.char) ∧
    ∀ hs w, Derives n (tail u) hs w → Derives n (tail t) (gs ++ hs) w

theorem sound_operations {kind : Operator → Bool} {operand : Production Float}
    {span : Glyph → Option Span} {r : Rule} {tail : Tree → Rule}
    (sound : Sound src limit k operand n r) (done : ∀ t, Derives n (tail t) [] t)
    (more : ∀ {t u v op gs hs} {g : Glyph}, g.char = op.symbol → kind op = true →
      Derives n r gs u → Derives n (tail (.binary op t u)) hs v →
      Derives n (tail t) (g :: (gs ++ hs)) v)
    (fault : ∀ {before g rest op x y f}, src.glyphs = before ++ g :: rest → g.char = op.symbol →
      kind op = true → op.apply x y (span g) = .error f → Points src limit f)
    {before s : List Glyph} {t : Tree} {x : Float} (place : src.glyphs = before ++ s)
    (unclosed : Unclosed (before.map Glyph.char) k) (value : t.value = some x) :
    Ends (chain (operations kind operand span) x) s (Past n (tail t) s) (Points src limit) := by
  have start : Joined n tail t s x s := ⟨[], t, rfl, value, .nil, fun hs w tail => tail⟩
  refine Ends.imp (Q := Joined n tail t s) (ends_operations start ?_) ?_
  · rintro v g rest op ⟨gs, u, rfl, hu, balanced, join⟩ char isKind
    have signs : Balanced ((gs ++ [g]).map Glyph.char) := by
      rw [List.map_append, List.map_singleton, char]
      exact balanced.append (balanced_symbol op)
    refine Ends.imp (sound (before ++ (gs ++ [g])) rest (by simp [place])
      (unclosed.past signs)) ?_
    rintro y rest' ⟨us, w, rfl, derived, hw⟩
    refine ⟨fun z hz => ?_, fun f hf => ?_⟩
    · refine ⟨gs ++ g :: us, .binary op u w, by simp, ?_, ?_, fun hs w' tail => ?_⟩
      · rw [value_binary hu hw (span g), hz]
        rfl
      · simpa using signs.append derived.balanced
      · simpa using join _ _ (more char isKind derived tail)
    · have place' : src.glyphs = (before ++ gs) ++ g :: (us ++ rest') := by simp [place]
      exact fault place' char isKind hf
  · rintro v rest ⟨gs, u, taken, hu, -, join⟩
    exact ⟨gs, u, taken, by simpa using join [] u (done u), hu⟩

theorem sound_term (inside : SoundInside src limit (k + 1) n) :
    Sound src limit k (term src (expression src limit n)) n .term := by
  intro before s place unclosed
  refine ends_term.mpr (Ends.imp (sound_power inside before s place unclosed) ?_)
  rintro x rest ⟨gs, t, rfl, first, value⟩
  rw [← List.append_assoc] at place
  refine Ends.imp (sound_operations (sound_power inside) (fun _ => .factorsEnd) .factorsMore ?_
    place (unclosed.past first.balanced) value) ?_
  · intro before g rest op x y f place char _ failed
    obtain ⟨rfl, rfl⟩ := apply_error failed
    exact .divisionByZero place char
  · rintro v rest ⟨hs, u, rfl, more, value⟩
    exact ⟨gs ++ hs, u, by simp, .term first more, value⟩

theorem sound_expression (inside : SoundInside src limit (k + 1) n) :
    SoundInside src limit k (n + 1) := by
  intro before s place opening
  refine ends_expression_succ.mpr (ends_sum.mpr
    (Ends.imp (sound_term inside before s place opening.unclosed) ?_))
  rintro x rest ⟨gs, t, rfl, first, value⟩
  rw [← List.append_assoc] at place
  refine Ends.imp (sound_operations (sound_term inside) (fun _ => .summandsEnd) .summandsMore ?_
    place (opening.unclosed.past first.balanced) value) ?_
  · intro before g rest op x y f _ _ additive failed
    obtain ⟨-, rfl⟩ := apply_error failed
    simp [Operator.isAdditive] at additive
  · rintro v rest ⟨hs, u, rfl, more, value⟩
    exact ⟨gs ++ hs, u, by simp, .expression first more, value⟩

theorem sound_inside (h : k + n = limit) : SoundInside src limit k n := by
  -- what is open and what may still be opened make up the limit
  induction n generalizing k with
  | zero =>
    intro before s place opening
    obtain rfl : k = limit := h
    exact ends_expression_zero.mpr (.tooDeeplyNested place opening)
  | succ n ih => exact sound_expression (ih (by omega))

end Abacus.Expression
