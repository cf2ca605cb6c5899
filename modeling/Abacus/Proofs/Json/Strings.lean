import Mathlib
import Abacus.Json.Written
import Abacus.Proofs.Json.Meaning
import Abacus.Proofs.Scan

/-!
Strings of JSON. A literal of the grammar is taken up to its closing quote, and read as the
characters that it stands for; if it stands for none, for half of a character is missing, reading
fails, and only skipping it does not. What is written of a text is a literal that stands for that
text. The same notions, of characters that a reader takes and leaves the rest, serve for all other
values.
-/

namespace Abacus.Json

open Scan

/-- No number goes on here. -/
def Closes (rest : List Char) : Prop :=
  ∀ c ∈ rest.head?, c.isDigit = false ∧ c ≠ '.' ∧ c ≠ 'e' ∧ c ≠ 'E'

/-- The reader takes the characters, whatever follows that is no more of them, and makes a value of
them. -/
def Takes {α : Type} (read : Reader α) (cs : List Char) (a : α) : Prop :=
  ∀ rest, Closes rest → read.run (cs ++ rest) = (.ok a, rest)

/-- From these characters the reader makes the value, with the rest left, or it fails so. -/
def ComesTo {α : Type} (read : Reader α) (s : List Char) : Except Failure α → List Char → Prop
  | .ok a, rest => read.run s = (.ok a, rest)
  | .error f, _ => ∃ left, read.run s = (.error f, left)

namespace ComesTo

variable {α β : Type} {read : Reader α} {s t rest : List Char} {result : Except Failure α}

theorem congr {other : Reader α} (same : read.run s = other.run t)
    (h : ComesTo other t result rest) : ComesTo read s result rest := by
  cases result with
  | ok a => exact same.trans h
  | error f =>
    obtain ⟨left, failed⟩ := h
    exact ⟨left, same.trans failed⟩

theorem of_error {f : Failure} {left : List Char} (h : read.run s = (.error f, left)) :
    ComesTo read s (.error f) rest :=
  ⟨left, h⟩

theorem bind {f : α → Reader β} {g : α → Except Failure β} {last : List Char}
    (first : ComesTo read s result rest)
    (next : ∀ a, result = .ok a → ComesTo (f a) rest (g a) last) :
    ComesTo (read >>= f) s (result >>= g) last := by
  cases result with
  | ok a => exact congr (run_bind_of_ok first) (next a rfl)
  | error e =>
    obtain ⟨left, failed⟩ := first
    exact of_error (run_bind_of_error failed)

theorem map (first : ComesTo read s result rest) (f : α → β) :
    ComesTo (do return f (← read)) s (result.map f) rest := by
  have whole := first.bind (f := fun a => pure (f a)) (g := fun a => .ok (f a))
    fun a _ => show ComesTo (pure (f a)) rest (.ok (f a)) rest from rfl
  cases result <;> exact whole

end ComesTo

namespace Reader

variable {α β : Type} {c : Char} {s rest : List Char}

theorem run_ahead (h : isBlank c = false) : ahead.run (c :: s) = (.ok (some c), c :: s) := by
  have here : (c :: s).dropWhile isBlank = c :: s := List.dropWhile_cons_of_neg (by simp [h])
  change (Except.ok ((c :: s).dropWhile isBlank).head?, (c :: s).dropWhile isBlank) = _
  rw [here]
  rfl

theorem run_ahead_bind {f : Option Char → Reader α} (h : isBlank c = false) :
    (ahead >>= f).run (c :: s) = (f (some c)).run (c :: s) :=
  run_bind_of_ok (run_ahead h)

theorem dropWhile_solid (solid : ∀ c ∈ s.head?, isBlank c = false) :
    s.dropWhile isBlank = s := by
  cases s with
  | nil => rfl
  | cons c s => exact List.dropWhile_cons_of_neg (by simp [solid c rfl])

theorem run_symbol (c : Char) (s : List Char) : (symbol c).run (c :: s) = (.ok (), s) := by
  rw [symbol, run_bind, run_accept_cons, if_pos BEq.rfl]
  rfl

theorem run_symbol_error {d : Char} (other : d ≠ c) (s : List Char) :
    (symbol c).run (d :: s) = (.error .malformed, d :: s) := by
  rw [symbol, run_bind, run_accept_cons, if_neg (by simpa using other)]
  rfl

theorem run_word (cs s : List Char) : (word cs).run (cs ++ s) = (.ok (), s) := by
  induction cs with
  | nil => rfl
  | cons c cs ih => exact (run_bind_of_ok (run_symbol c (cs ++ s))).trans ih

theorem hexValue?_char (d : HexDigit) : hexValue? d.char = some d.value := by
  obtain ⟨value, isCapital⟩ := d
  have small : ∀ value : Fin 16, hexValue? (HexDigit.mk value false).char = some value := by decide
  have capital : ∀ value : Fin 16, hexValue? (HexDigit.mk value true).char = some value := by decide
  cases isCapital with
  | false => exact small value
  | true => exact capital value

theorem run_codeUnit (u : CodeUnit) (s : List Char) :
    codeUnit.run (u.digits ++ s) = (.ok u.number, s) := by
  have read : ((u.digits ++ s).take 4).mapM hexValue? =
      some [u.first.value.val, u.second.value.val, u.third.value.val, u.fourth.value.val] := by
    simp [CodeUnit.digits, hexValue?_char]
  rw [codeUnit, run_bind_of_ok rfl, read]
  rfl

theorem run_escaped_short (byNumber : Reader Char) (e : Short) (s : List Char) :
    (escaped byNumber).run (e.letter :: s) = (.ok e.char, s) := by
  cases e <;> rfl

theorem run_chain_escaped {byNumber : Reader Char} (h : (escaped byNumber).run s = (.ok c, rest))
    (read : List Char) : (chain (nextCharacter byNumber) read).run ('\\' :: s) =
      (chain (nextCharacter byNumber) (c :: read)).run rest := by
  have link : nextCharacter byNumber '\\' = some fun read => do
      return (← escaped byNumber) :: read := rfl
  have added : (do return (← escaped byNumber) :: read : Reader (List Char)).run s =
      (.ok (c :: read), rest) := run_bind_of_ok h
  rw [run_chain_link link, run_bind_of_ok added]

theorem run_chain_escaped_error {byNumber : Reader Char} {f : Failure}
    (h : (escaped byNumber).run s = (.error f, rest)) (read : List Char) :
    (chain (nextCharacter byNumber) read).run ('\\' :: s) = (.error f, rest) := by
  have link : nextCharacter byNumber '\\' = some fun read => do
      return (← escaped byNumber) :: read := rfl
  have failed : (do return (← escaped byNumber) :: read : Reader (List Char)).run s =
      (.error f, rest) := run_bind_of_error h
  rw [run_chain_link link, run_bind_of_error failed]

theorem run_chain_plain {byNumber : Reader Char} (h : IsPlain c) (read : List Char) :
    (chain (nextCharacter byNumber) read).run (c :: s) =
      (chain (nextCharacter byNumber) (c :: read)).run s := by
  have link : nextCharacter byNumber c = some fun read => if c = '\\' then do
        return (← escaped byNumber) :: read
      else if c.toNat < 0x20 then Scan.fail .malformed else return c :: read := if_neg h.quote
  rw [run_chain_link link, if_neg h.backslash, if_neg h.control, run_bind, run_pure]

theorem run_chain_short {byNumber : Reader Char} (e : Short) (read : List Char) :
    (chain (nextCharacter byNumber) read).run ((Piece.short e).text ++ s) =
      (chain (nextCharacter byNumber) (e.char :: read)).run s :=
  run_chain_escaped (run_escaped_short byNumber e s) read

theorem run_escaped_unit (byNumber : Reader Char) (s : List Char) :
    (escaped byNumber).run ('u' :: s) = byNumber.run s := rfl

theorem run_chain_unit {byNumber : Reader Char} {u : CodeUnit}
    (h : byNumber.run (u.digits ++ s) = (.ok c, rest)) (read : List Char) :
    (chain (nextCharacter byNumber) read).run ((Piece.unit u).text ++ s) =
      (chain (nextCharacter byNumber) (c :: read)).run rest :=
  run_chain_escaped ((run_escaped_unit byNumber _).trans h) read

theorem run_chain_unit_error {byNumber : Reader Char} {u : CodeUnit} {f : Failure}
    (h : byNumber.run (u.digits ++ s) = (.error f, rest)) (read : List Char) :
    (chain (nextCharacter byNumber) read).run ((Piece.unit u).text ++ s) = (.error f, rest) :=
  run_chain_escaped_error ((run_escaped_unit byNumber _).trans h) read

section

variable {u v : CodeUnit}

theorem run_numbered_alone (trailing : isTrailing u.number ≠ true)
    (leading : isLeading u.number ≠ true) (s : List Char) :
    numbered.run (u.digits ++ s) = (.ok (Char.ofNat u.number), s) := by
  rw [numbered, run_bind_of_ok (run_codeUnit u s), if_neg trailing, if_neg leading, run_pure]

theorem run_numbered_trailing (trailing : isTrailing u.number = true) (s : List Char) :
    numbered.run (u.digits ++ s) = (.error .malformed, s) := by
  rw [numbered, run_bind_of_ok (run_codeUnit u s), if_pos trailing, run_fail]

theorem run_numbered_leading (trailing : isTrailing u.number ≠ true)
    (leading : isLeading u.number = true) (s : List Char) :
    numbered.run (u.digits ++ s) = (word ['\\', 'u'] >>= fun _ => codeUnit >>= fun m =>
      if isTrailing m then
        return Char.ofNat (0x10000 + (u.number - 0xD800) * 0x400 + (m - 0xDC00))
      else Scan.fail .malformed).run s := by
  rw [numbered, run_bind_of_ok (run_codeUnit u s), if_neg trailing, if_pos leading]

theorem run_word_unit (v : CodeUnit) (s : List Char) :
    (word ['\\', 'u']).run ((Piece.unit v).text ++ s) = (.ok (), v.digits ++ s) :=
  run_word ['\\', 'u'] (v.digits ++ s)

theorem run_numbered_pair (trailing : isTrailing u.number ≠ true)
    (leading : isLeading u.number = true) (second : isTrailing v.number = true) (s : List Char) :
    numbered.run (u.digits ++ ((Piece.unit v).text ++ s)) =
      (.ok (Char.ofNat (0x10000 + (u.number - 0xD800) * 0x400 + (v.number - 0xDC00))), s) := by
  rw [run_numbered_leading trailing leading, run_bind_of_ok (run_word_unit v s),
    run_bind_of_ok (run_codeUnit v s), if_pos second, run_pure]

theorem run_numbered_unpaired (trailing : isTrailing u.number ≠ true)
    (leading : isLeading u.number = true) (second : isTrailing v.number ≠ true) (s : List Char) :
    numbered.run (u.digits ++ ((Piece.unit v).text ++ s)) = (.error .malformed, s) := by
  rw [run_numbered_leading trailing leading, run_bind_of_ok (run_word_unit v s),
    run_bind_of_ok (run_codeUnit v s), if_neg second, run_fail]

theorem word_fails {ps : List Piece} (other : ∀ v more, ps ≠ .unit v :: more) : ∃ left,
    (word ['\\', 'u']).run (ps.flatMap Piece.text ++ '"' :: s) = (.error .malformed, left) := by
  cases ps with
  | nil => exact ⟨_, run_bind_of_error (run_symbol_error (by decide) s)⟩
  | cons p more =>
    cases p with
    | plain c isPlain => exact ⟨_, run_bind_of_error (run_symbol_error isPlain.backslash _)⟩
    | unit v => exact absurd rfl (other v more)
    | short e =>
      have letter : e.letter ≠ 'u' := by cases e <;> decide
      exact ⟨_, (run_bind_of_ok (run_symbol '\\' _)).trans
        (run_bind_of_error (run_symbol_error letter _))⟩

theorem run_numbered_lone {ps : List Piece} (trailing : isTrailing u.number ≠ true)
    (leading : isLeading u.number = true) (other : ∀ v more, ps ≠ .unit v :: more) : ∃ left,
      numbered.run (u.digits ++ (ps.flatMap Piece.text ++ '"' :: s)) =
        (.error .malformed, left) := by
  obtain ⟨left, failed⟩ := word_fails (s := s) other
  exact ⟨left, (run_numbered_leading trailing leading _).trans (run_bind_of_error failed)⟩

end

/-- All pieces are read up to the closing quote, and added to what has been read before. -/
theorem comesTo_pieces (ps : List Piece) (read s : List Char) :
    ComesTo (chain (nextCharacter numbered) read) (ps.flatMap Piece.text ++ '"' :: s)
      ((orFail .malformed (Piece.chars? ps)).map fun cs => cs.reverse ++ read) ('"' :: s) := by
  have added (c : Char) (o : Option (List Char)) (read : List Char) :
      (orFail Failure.malformed (o.map (c :: ·))).map (fun cs => cs.reverse ++ read) =
        (orFail .malformed o).map fun cs => cs.reverse ++ c :: read := by
    cases o <;> simp [orFail, Except.map]
  fun_induction Piece.chars? ps generalizing read with
  | case1 => exact run_chain_stop rfl read s
  | case2 c isPlain more ih =>
    rw [added]
    exact (ih (c :: read)).congr (run_chain_plain isPlain read)
  | case3 e more ih =>
    rw [added, List.flatMap_cons, List.append_assoc]
    exact (ih (e.char :: read)).congr (run_chain_short e read)
  | case4 u more trailing =>
    rw [List.flatMap_cons, List.append_assoc]
    exact .of_error (run_chain_unit_error (run_numbered_trailing trailing _) read)
  | case5 u trailing leading v more second ih =>
    rw [added, List.flatMap_cons, List.append_assoc, List.flatMap_cons, List.append_assoc]
    exact (ih _).congr (run_chain_unit (run_numbered_pair trailing leading second _) read)
  | case6 u trailing leading v more second =>
    rw [List.flatMap_cons, List.append_assoc, List.flatMap_cons, List.append_assoc]
    exact .of_error (run_chain_unit_error (run_numbered_unpaired trailing leading second _) read)
  | case7 u more trailing leading other =>
    rw [List.flatMap_cons, List.append_assoc]
    obtain ⟨left, failed⟩ := run_numbered_lone trailing leading other
    exact .of_error (run_chain_unit_error failed read)
  | case8 u more trailing leading ih =>
    rw [added, List.flatMap_cons, List.append_assoc]
    exact (ih _).congr (run_chain_unit (run_numbered_alone trailing leading _) read)

theorem comesTo_quoted {byNumber : Reader Char} {l : Literal} {result : Except Failure (List Char)}
    (pieces : ComesTo (chain (nextCharacter byNumber) [])
      (l.pieces.flatMap Piece.text ++ '"' :: rest) result ('"' :: rest)) :
    ComesTo (quoted byNumber) (l.text ++ rest) (result.map List.reverse) rest := by
  have closing (read : List Char) : ComesTo (symbol '"' >>= fun _ => pure read.reverse)
      ('"' :: rest) (.ok read.reverse) rest :=
    run_bind_of_ok (run_symbol '"' rest)
  have read := pieces.bind fun cs _ => closing cs
  rw [Literal.text, List.cons_append, List.append_assoc, List.singleton_append, quoted]
  refine ComesTo.congr (run_bind_of_ok (run_symbol '"' _)) ?_
  cases result <;> exact read

theorem comesTo_characters (l : Literal) (rest : List Char) :
    ComesTo characters (l.text ++ rest) (orFail .malformed (Piece.chars? l.pieces)) rest := by
  have read := comesTo_quoted (comesTo_pieces l.pieces [] rest)
  have reversed : ((orFail Failure.malformed (Piece.chars? l.pieces)).map
      fun cs => cs.reverse ++ []).map List.reverse = orFail .malformed (Piece.chars? l.pieces) := by
    cases Piece.chars? l.pieces <;> simp [orFail, Except.map]
  rw [reversed] at read
  exact read

theorem run_skipCharacters (l : Literal) (rest : List Char) :
    skipCharacters.run (l.text ++ rest) = (.ok (), rest) := by
  have pieces (ps : List Piece) (read : List Char) : ∃ cs,
      ComesTo (chain (nextCharacter (do let _ ← codeUnit; return '0')) read)
        (ps.flatMap Piece.text ++ '"' :: rest) (.ok cs) ('"' :: rest) := by
    induction ps generalizing read with
    | nil => exact ⟨_, run_chain_stop rfl read rest⟩
    | cons p more ih =>
      rw [List.flatMap_cons, List.append_assoc]
      cases p with
      | plain c isPlain =>
        obtain ⟨cs, ran⟩ := ih (c :: read)
        exact ⟨cs, ran.congr (run_chain_plain isPlain read)⟩
      | short e =>
        obtain ⟨cs, ran⟩ := ih (e.char :: read)
        exact ⟨cs, ran.congr (run_chain_short e read)⟩
      | unit u =>
        obtain ⟨cs, ran⟩ := ih ('0' :: read)
        have number := run_codeUnit u (more.flatMap Piece.text ++ '"' :: rest)
        exact ⟨cs, ran.congr (run_chain_unit (run_bind_of_ok number) read)⟩
  obtain ⟨cs, ran⟩ := pieces l.pieces []
  exact run_bind_of_ok (comesTo_quoted ran)

end Reader

theorem exists_piece (c : Char) : ∃ p : Piece, p.text = escape c ∧
    ∀ more, Piece.chars? (p :: more) = (Piece.chars? more).map (c :: ·) := by
  unfold escape
  split
  case h_8 quote backslash _ _ _ _ _ =>
    by_cases control : c.toNat < 0x20
    · rw [if_pos control]
      obtain ⟨u, digits, number⟩ : ∃ u : CodeUnit, u.digits =
          ['0', '0', hexDigit (c.toNat / 16), hexDigit (c.toNat % 16)] ∧ u.number = c.toNat := by
        refine ⟨⟨⟨0, false⟩, ⟨0, false⟩, ⟨⟨c.toNat / 16, by omega⟩, false⟩,
          ⟨⟨c.toNat % 16, by omega⟩, false⟩⟩, rfl, ?_⟩
        simp [CodeUnit.number]
        omega
      have trailing : ¬ Reader.isTrailing u.number = true := by
        simp only [Reader.isTrailing, Bool.and_eq_true, decide_eq_true_eq, number]
        omega
      have leading : ¬ Reader.isLeading u.number = true := by
        simp only [Reader.isLeading, Bool.and_eq_true, decide_eq_true_eq, number]
        omega
      refine ⟨.unit u, by rw [Piece.text, digits], fun more => ?_⟩
      rw [Piece.chars?.eq_def]
      dsimp only
      rw [if_neg trailing, if_neg leading, number, Char.ofNat_toNat]
    · rw [if_neg control]
      exact ⟨.plain c ⟨quote, backslash, control⟩, rfl, fun more => rfl⟩
  case h_1 => exact ⟨.short .quote, rfl, fun more => rfl⟩
  case h_2 => exact ⟨.short .backslash, rfl, fun more => rfl⟩
  case h_3 => exact ⟨.short .backspace, rfl, fun more => rfl⟩
  case h_4 => exact ⟨.short .formFeed, rfl, fun more => rfl⟩
  case h_5 => exact ⟨.short .lineFeed, rfl, fun more => rfl⟩
  case h_6 => exact ⟨.short .carriageReturn, rfl, fun more => rfl⟩
  case h_7 => exact ⟨.short .tab, rfl, fun more => rfl⟩

theorem toList_string (text : String) :
    (string text).toList = '"' :: (text.toList.flatMap escape ++ ['"']) := by
  rw [string, String.toList_ofList, List.cons_append]

theorem exists_literal (text : String) :
    ∃ l : Literal, (string text).toList = l.text ∧ l.Names text := by
  have pieces (cs : List Char) : ∃ ps : List Piece, ps.flatMap Piece.text = cs.flatMap escape ∧
      Piece.chars? ps = some cs := by
    induction cs with
    | nil => exact ⟨[], rfl, rfl⟩
    | cons c cs ih =>
      obtain ⟨p, written, stands⟩ := exists_piece c
      obtain ⟨ps, more, further⟩ := ih
      refine ⟨p :: ps, ?_, ?_⟩
      · rw [List.flatMap_cons, List.flatMap_cons, written, more]
      · rw [stands, further, Option.map_some]
  obtain ⟨ps, written, stands⟩ := pieces text.toList
  refine ⟨⟨ps⟩, ?_, stands⟩
  rw [toList_string, Literal.text, written]

end Abacus.Json
