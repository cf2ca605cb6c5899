import Mathlib
import Abacus.Proofs.Expression.Recording
import Abacus.Proofs.Expression.Literals
import Abacus.Proofs.Token.Lexemes

/-!
What a recording writes down cuts the glyphs that have been read into terminals: each has the
characters of its kind, only the word for the root may have blanks in it, and a number goes on as
long as it can.
-/

namespace Abacus

open Expression Scan

/-- The glyphs make up a terminal of the kind, which does not go on in what is left after them. -/
structure Spells (kind : Token.Kind) (gs rest : List Glyph) : Prop where
  visible : kind ≠ .gap ∧ kind ≠ .unknown
  writes : kind.Writes (gs.map Glyph.char)
  contiguous : kind ≠ .root → Contiguous gs
  stops : kind = .number → ∀ last ∈ gs.getLast?, ∀ next ∈ rest.head?,
    Literal.isNumeric next.char = true → last.isFollowedBy next = false

inductive Segments : List Glyph → List Terminal → List Glyph → Prop
  | nil {s} : Segments s [] s
  | cons {kind gs rest ts s} : Spells kind gs rest → Segments rest ts s →
      Segments (gs ++ rest) (.of kind gs :: ts) s

section

variable {kind : Token.Kind} {g : Glyph} {gs s s' s'' : List Glyph} {ts us : List Terminal}

theorem Segments.append (h : Segments s ts s') (h' : Segments s' us s'') :
    Segments s (ts ++ us) s'' := by
  induction h with
  | nil => exact h'
  | cons spells _ ih => exact .cons spells (ih h')

theorem Segments.single (h : Spells kind gs s) : Segments (gs ++ s) [.of kind gs] s :=
  .cons h .nil

theorem Segments.visible (h : Segments s ts s') : ∀ t ∈ ts, t.kind ≠ .unknown := by
  induction h with
  | nil => simp
  | cons spells _ ih => exact List.forall_mem_cons.mpr ⟨spells.visible.2, ih⟩

theorem spells_operator {op : Operator} (char : g.char = op.symbol) : Spells .operator [g] s where
  visible := ⟨by decide, by decide⟩
  writes := ⟨g.char, rfl, Token.isOperator_iff.mpr ⟨op, char⟩⟩
  contiguous _ := List.isChain_singleton g
  stops other := by cases other

theorem spells_bracket {c : Char} (bracket : kind.IsBracket c) (char : g.char = c) :
    Spells kind [g] s where
  visible := by cases bracket <;> exact ⟨by decide, by decide⟩
  writes := by cases bracket <;> exact congrArg (· :: []) char
  contiguous _ := List.isChain_singleton g
  stops other := by cases bracket <;> cases other

theorem spells_root (chars : gs.map Glyph.char = 's' :: Token.rootTail) : Spells .root gs s where
  visible := ⟨by decide, by decide⟩
  writes := chars
  contiguous other := absurd rfl other
  stops other := by cases other

theorem stops_after (g : Glyph) (s : List Glyph) : ∀ last ∈ (g :: (Literal.after g s).1).getLast?,
    ∀ next ∈ (Literal.after g s).2.head?, Literal.isNumeric next.char = true →
      last.isFollowedBy next = false := by
  induction s generalizing g with
  | nil => simp [Literal.after]
  | cons next s ih =>
    rw [Literal.after]
    split_ifs with joined
    · simpa using ih next
    · rintro _ ⟨⟩ _ ⟨⟩ numeric
      simpa [numeric] using joined

theorem spells_number {src : Source} {v : Float}
    (h : Literal.value src (Literal.split s).1 (Literal.split s).2 = .ok v) :
    Spells .number (Literal.split s).1 (Literal.split s).2 where
  visible := ⟨by decide, by decide⟩
  writes := by
    obtain ⟨x, text, -⟩ := exists_of_literal_value h
    obtain ⟨c, cs, some_char, -⟩ := x.exists_text_eq_cons
    rw [text]
    exact ⟨by simp [some_char], fun d => x.isNumeric_of_mem⟩
  contiguous _ := contiguous_split s
  stops _ := by
    cases s with
    | nil => simp [Literal.split]
    | cons g s =>
      rw [Literal.split]
      split_ifs
      · exact stops_after g s
      · simp

end

namespace Recording

variable {α β : Type} {s : List Glyph}

section Ends

variable {E : Fault → Prop}

theorem ends_pure {a : α} {Q : α × List Terminal → List Glyph → Prop} :
    Ends (pure a : Recording α).run s Q E ↔ Q (a, []) s := Iff.rfl

theorem ends_bind {x : Recording α} {f : α → Recording β}
    {Q : β × List Terminal → List Glyph → Prop} : Ends (x >>= f).run s Q E ↔
      Ends x.run s (fun e rest => Ends (f e.1).run rest
        (fun e' rest' => Q (e'.1, e.2 ++ e'.2) rest') E) E := by
  have run : (x >>= f).run =
      x.run >>= fun e => (f e.1).run >>= fun e' => pure (e'.1, e.2 ++ e'.2) := rfl
  simp only [run, Scan.ends_bind, Scan.ends_pure]

theorem ends_lift {x : Production α} {Q : α × List Terminal → List Glyph → Prop} :
    Ends (lift x).run s Q E ↔ Ends x s (fun a rest => Q (a, []) rest) E := by
  have run : (lift x).run = x >>= fun a => pure (a, []) := rfl
  simp only [run, Scan.ends_bind, Scan.ends_pure]

theorem ends_tell {ts : List Terminal} {Q : Unit × List Terminal → List Glyph → Prop} :
    Ends (tell ts : Recording Unit).run s Q E ↔ Q ((), ts) s := Iff.rfl

end Ends

def Takes (kind : Token.Kind) (x : Production α) (s : List Glyph) : Prop :=
  Ends x s (fun _ rest => ∃ gs, s = gs ++ rest ∧ Spells kind gs rest) fun _ => True

/-- What is read is cut into what is written down. -/
def Records (x : Recording α) (s : List Glyph) : Prop :=
  Ends x.run s (fun e rest => Segments s e.2 rest) fun _ => True

theorem records_pure {a : α} : Records (pure a) s := .nil

theorem Records.bind {x : Recording α} {f : α → Recording β} (first : Records x s)
    (more : ∀ a rest, Records (f a) rest) : Records (x >>= f) s := by
  refine ends_bind.mpr (Ends.imp first fun e rest cut => ?_)
  exact Ends.imp (more e.1 rest) fun e' rest' further => cut.append further

theorem records_look_bind {f : List Glyph → Recording β} (h : Records (f s) s) :
    Records (lift look >>= f) s := by
  simpa only [Records, ends_bind, ends_lift, ends_look, List.nil_append] using h

theorem records_ofExcept {r : Except Fault α} : Records (lift (ofExcept r)) s :=
  ends_lift.mpr (ends_ofExcept.mpr ⟨fun _ _ => .nil, fun _ _ => trivial⟩)

theorem ends_taking {kind : Token.Kind} {x : Production α} {E : Fault → Prop}
    {Q : α × List Terminal → List Glyph → Prop} : Ends (taking kind x).run s Q E ↔
      Ends x s (fun a rest => Q (a, [.of kind (s.take (s.length - rest.length))]) rest) E := by
  simp only [taking, ends_bind, ends_lift, ends_look, ends_tell, ends_pure, List.nil_append,
    List.append_nil]

theorem records_taking {kind : Token.Kind} {x : Production α} (h : Takes kind x s) :
    Records (taking kind x) s := by
  refine ends_taking.mpr (Ends.imp h fun a rest ⟨gs, parts, spells⟩ => ?_)
  subst parts
  simpa using Segments.single spells

theorem Records.skip {kind : Token.Kind} {gs rest : List Glyph} {x : Recording β}
    (h : Records x rest) (spells : Spells kind gs rest) :
    Records (taking kind (Scan.skip gs.length) >>= fun _ => x) (gs ++ rest) := by
  refine ends_bind.mpr (ends_taking.mpr (ends_skip.mpr ?_))
  rw [List.drop_left]
  refine Ends.imp h fun e rest' cut => ?_
  simpa using (Segments.single spells).append cut

theorem Records.opening {g : Glyph} {x : Recording β} (h : Records x s) (char : g.char = '(') :
    Records (taking .opening (Scan.skip 1) >>= fun _ => x) (g :: s) := by
  have read : Records (taking .opening (Scan.skip [g].length) >>= fun _ => x) ([g] ++ s) :=
    h.skip (spells_bracket .opening char)
  exact read

/-- A chain takes the joint itself, so its links write it down. -/
def Joins (link : α → Recording α) (g : Glyph) : Prop :=
  ∀ a s, Ends (link a).run s (fun e rest => Segments (g :: s) e.2 rest) fun _ => True

theorem joins_operator {g : Glyph} {op : Operator} {x : α → Recording α}
    (char : g.char = op.symbol) (records : ∀ a s, Records (x a) s) :
    Joins (fun a => do tell [.of .operator [g]]; x a) g := by
  intro a s
  refine ends_bind.mpr (ends_tell.mpr (Ends.imp (records a s) fun e rest cut => ?_))
  exact (Segments.single (spells_operator char)).append cut

theorem records_chain {join : Glyph → Option (α → Recording α)}
    (links : ∀ g link, join g = some link → Joins link g) (a : α) : Records (chain join a) s := by
  refine Scan.ends_chain (Q := fun (e : α × List Terminal) rest => Segments s e.2 rest) .nil ?_
  intro e g rest link' cut joined
  obtain ⟨link, here, rfl⟩ := Option.map_eq_some_iff.mp joined
  refine Scan.ends_bind.mpr (Ends.imp (links g link here e.1 rest) fun e' rest' further => ?_)
  exact cut.append further

section Productions

variable {src : Source} {nested : Recording Float}

theorem records_closing : Records (closing src) s := by
  refine records_taking (ends_closing (fun g rest parts char => ?_) trivial)
  exact ⟨[g], parts, spells_bracket .closing char⟩

theorem records_number : Records (taking .number (Literal.number src)) s := by
  refine records_taking (ends_number.mpr ⟨fun v read => ?_, fun _ _ => trivial⟩)
  exact ⟨(Literal.split s).1, (Literal.split_append s).symm, spells_number read⟩

theorem records_group (inside : ∀ s, Records nested s) {g : Glyph} (char : g.char = '(') :
    Records (group src nested) (g :: s) := by
  refine Records.opening ?_ char
  exact (inside s).bind fun value rest => records_closing.bind fun _ _ => records_pure

theorem records_root (inside : ∀ s, Records nested s) {call : List Glyph}
    (word : call.map Glyph.char = rootWord) : Records (root src nested) (call ++ s) := by
  have parts : rootWord = ('s' :: Token.rootTail) ++ ['('] := rfl
  obtain ⟨name, brackets, rfl, letters, bracket⟩ := List.map_eq_append_iff.mp (word.trans parts)
  obtain ⟨g, tail, rfl, char, nothing⟩ := List.map_eq_cons_iff.mp bracket
  have length : name.length = 4 := by rw [← List.length_map Glyph.char, letters]; rfl
  rw [List.map_eq_nil_iff.mp nothing, List.append_assoc]
  refine records_look_bind ?_
  rw [← length]
  refine Records.skip ?_ (spells_root letters)
  refine Records.opening ?_ char
  exact (inside s).bind fun value rest => records_closing.bind fun _ _ => records_ofExcept

theorem records_function (inside : ∀ s, Records nested s) : Records (function src nested) s := by
  refine records_look_bind ?_
  split_ifs with word bracket
  · obtain ⟨call, rest, rfl, chars⟩ := beginsWith_iff.mp word
    exact records_root inside chars
  · obtain ⟨taken, rest, rfl, chars⟩ := beginsWith_iff.mp bracket
    obtain ⟨g, tail, rfl, char, nothing⟩ := List.map_eq_cons_iff.mp chars
    rw [List.map_eq_nil_iff.mp nothing]
    exact records_group inside char
  · exact records_number

theorem segments_signs {minuses : List Glyph} (run : ∀ g ∈ minuses, g.char = '-')
    (rest : List Glyph) : Segments (minuses ++ rest) (minuses.map fun g => .of .operator [g]) rest := by
  induction minuses with
  | nil => exact .nil
  | cons g minuses ih =>
    obtain ⟨minus, more⟩ := List.forall_mem_cons.mp run
    have char : g.char = Operator.subtract.symbol := minus
    exact .cons (spells_operator char) (ih more)

theorem records_unary (inside : ∀ s, Records nested s) : Records (unary src nested) s := by
  have run : ∀ g ∈ s.takeWhile fun g : Glyph => g.char == '-', g.char = '-' := fun g hg => by
    simpa using List.mem_takeWhile_imp hg
  have signs := segments_signs run (s.dropWhile fun g => g.char == '-')
  rw [List.takeWhile_append_dropWhile] at signs
  refine ends_bind.mpr (ends_lift.mpr (ends_takeWhile.mpr (ends_bind.mpr (ends_tell.mpr ?_))))
  refine ends_bind.mpr (Ends.imp (records_function inside) fun e rest cut => ends_pure.mpr ?_)
  simpa using signs.append cut

theorem records_power (inside : ∀ s, Records nested s) : Records (power src nested) s := by
  refine (records_unary inside).bind fun first rest => ?_
  refine (records_chain (fun g link joined => ?_) _).bind fun tower rest => records_pure
  obtain ⟨op, isPower, rfl⟩ := Option.map_eq_some_iff.mp joined
  refine joins_operator (operator?_eq_some_iff.mp isPower).1 fun tower s => ?_
  exact (records_unary inside).bind fun exponent rest => records_pure

theorem records_operations {kind : Operator → Bool} {span : Glyph → Option Span}
    (operand : ∀ s, Records nested s) (left : Float) :
    Records (chain (operations kind nested span) left) s := by
  refine records_chain (fun g link joined => ?_) left
  obtain ⟨op, isKind, rfl⟩ := Option.map_eq_some_iff.mp joined
  refine joins_operator (operator?_eq_some_iff.mp isKind).1 fun left s => ?_
  exact (operand s).bind fun right rest => records_ofExcept

theorem records_sum (inside : ∀ s, Records nested s) : Records (sum src nested) s := by
  have factor : ∀ s, Records (power src nested) s := fun s => records_power inside
  have summand : ∀ s, Records (term src nested) s := fun s =>
    (factor s).bind fun first rest => records_operations factor first
  exact (summand s).bind fun first rest => records_operations summand first

end Productions

theorem records_expression (src : Source) (limit n : Nat) :
    ∀ s, Records (expression src limit n) s := by
  induction n with
  | zero => exact fun s => ends_lift.mpr (ends_failWith.mpr trivial)
  | succ n ih => exact fun s => records_sum ih

theorem records_whole (src : Source) (limit : Nat) : Ends (whole src limit).run s
    (fun e rest => rest = [] ∧ Segments s e.2 []) fun _ => True := by
  refine ends_bind.mpr (Ends.imp (records_expression src limit limit s) fun e rest cut => ?_)
  refine ends_bind.mpr (ends_lift.mpr (ends_look.mpr ?_))
  cases rest with
  | nil => exact ends_pure.mpr ⟨rfl, by simpa using cut⟩
  | cons g rest => exact ends_lift.mpr (ends_fail.mpr trivial)

end Recording

variable {text : String} {limit : Nat}

theorem segments_of_record {v : Float} {ts : List Terminal}
    (h : record text limit = .ok (v, ts)) : Segments (Source.ofText text).glyphs ts [] := by
  have cut := Recording.records_whole (s := (Source.ofText text).glyphs) (Source.ofText text) limit
  unfold record Source.record at h
  split_ifs at h
  unfold Scan.Ends at cut
  cases ran : (Recording.whole (Source.ofText text) limit).run.run (Source.ofText text).glyphs with
  | mk result rest =>
    rw [ran] at h cut
    obtain rfl : result = .ok (v, ts) := h
    exact cut.2

end Abacus
