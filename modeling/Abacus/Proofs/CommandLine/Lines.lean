import Mathlib
import Abacus.CommandLine

/-!
The lines of an input. An input is empty, or one piece without a line feed, or such a piece with a
line feed and an input after it; what is said of lines is proved along these three cases. Since no
other character than the line feed has its byte, a text has the same lines before and after it is
encoded.
-/

namespace Abacus.CommandLine

section

variable {α : Type} [DecidableEq α]

def withoutLast (a : α) (line : List α) : List α :=
  if line.getLast? = some a then line.dropLast else line

/-- The lines that the pieces between the line feeds stand for. The piece after the last line feed
is a line if there is anything in it, and keeps its end. -/
def linesOfPieces (carriageReturn : α) : List (List α) → List (List α)
  | [] => []
  | [last] => if last = [] then [] else [last]
  | piece :: more => withoutLast carriageReturn piece :: linesOfPieces carriageReturn more

def lines (lineFeed carriageReturn : α) (input : List α) : List (List α) :=
  linesOfPieces carriageReturn (input.splitOn lineFeed)

variable {feed back : α} {piece rest : List α}

theorem linesOfPieces_cons {pieces : List (List α)} (h : pieces ≠ []) :
    linesOfPieces back (piece :: pieces) =
      withoutLast back piece :: linesOfPieces back pieces := by
  cases pieces with
  | nil => exact absurd rfl h
  | cons next more => rfl

@[simp] theorem lines_nil : lines feed back [] = [] := by
  rw [lines, List.splitOn_nil]
  rfl

theorem lines_last (whole : feed ∉ piece) (some_byte : piece ≠ []) :
    lines feed back piece = [piece] := by
  rw [lines, List.splitOn_eq_singleton whole, linesOfPieces, if_neg some_byte]

theorem lines_more (whole : feed ∉ piece) : lines feed back (piece ++ feed :: rest) =
    withoutLast back piece :: lines feed back rest := by
  have pieces : rest.splitOn feed ≠ [] := List.splitOnP_ne_nil _ rest
  rw [lines, List.splitOn_append_cons_self, List.splitOn_eq_singleton whole, List.singleton_append,
    linesOfPieces_cons pieces]
  rfl

/-- What holds of the empty input, of a piece without a line feed, and with every such piece before
a line feed, holds of all inputs. -/
theorem input_induction (feed : α) {P : List α → Prop} (nil : P [])
    (last : ∀ piece, feed ∉ piece → piece ≠ [] → P piece)
    (more : ∀ piece rest, feed ∉ piece → P rest → P (piece ++ feed :: rest)) (input : List α) :
    P input := by
  induction n : input.length using Nat.strongRecOn generalizing input with
  | ind n ih =>
    subst n
    by_cases member : feed ∈ input
    · obtain ⟨piece, rest, rfl, whole⟩ := List.eq_append_cons_of_mem member
      exact more piece rest whole (ih rest.length (by simp; omega) rest rfl)
    · by_cases empty : input = []
      · exact empty ▸ nil
      · exact last input member empty

theorem lines_append (first : List α) : lines feed back (first ++ feed :: rest) =
    lines feed back (first ++ [feed]) ++ lines feed back rest := by
  induction first using input_induction feed with
  | nil =>
    rw [List.nil_append, List.nil_append, ← List.nil_append (feed :: rest),
      lines_more List.not_mem_nil, ← List.nil_append [feed], lines_more List.not_mem_nil, lines_nil]
    rfl
  | last piece whole _ =>
    rw [lines_more whole, lines_more whole, lines_nil]
    rfl
  | more piece further whole ih =>
    rw [List.append_assoc, List.append_assoc, List.cons_append, List.cons_append, lines_more whole,
      lines_more whole, ih, List.cons_append]

end

theorem cutLines_last {piece : List UInt8} (whole : lineFeed ∉ piece) (some_byte : piece ≠ []) :
    cutLines piece = [piece] := by
  induction piece with
  | nil => exact absurd rfl some_byte
  | cons b piece ih =>
    rw [List.mem_cons, not_or] at whole
    rw [cutLines, if_neg (Ne.symm whole.1)]
    cases piece with
    | nil => rfl
    | cons next piece => rw [ih whole.2 (by simp)]

theorem cutLines_more {piece : List UInt8} (whole : lineFeed ∉ piece) (rest : List UInt8) :
    cutLines (piece ++ lineFeed :: rest) = (piece ++ [lineFeed]) :: cutLines rest := by
  induction piece with
  | nil => rw [List.nil_append, cutLines, if_pos rfl, List.nil_append]
  | cons b piece ih =>
    rw [List.mem_cons, not_or] at whole
    rw [List.cons_append, cutLines, if_neg (Ne.symm whole.1), ih whole.2]
    rfl

theorem content_last {piece : List UInt8} (whole : lineFeed ∉ piece) : content piece = piece := by
  rw [content, if_neg]
  exact fun ended => whole (List.mem_of_getLast? ended)

theorem content_more (piece : List UInt8) :
    content (piece ++ [lineFeed]) = withoutLast carriageReturn piece := by
  rw [content, if_pos List.getLast?_concat, List.dropLast_concat]
  rfl

theorem map_content_cutLines (input : List UInt8) :
    (cutLines input).map content = lines lineFeed carriageReturn input := by
  induction input using input_induction lineFeed with
  | nil => rfl
  | last piece whole some_byte =>
    rw [cutLines_last whole some_byte, lines_last whole some_byte, List.map_singleton,
      content_last whole]
  | more piece rest whole ih =>
    rw [cutLines_more whole, lines_more whole, List.map_cons, content_more, ih]

def encoded (text : String) : List UInt8 :=
  text.toUTF8.data.toList

theorem encoded_eq (text : String) : encoded text = text.toList.flatMap String.utf8EncodeChar := by
  rw [encoded, ← String.ofList_toList (s := text), String.toUTF8_eq_toByteArray,
    String.toByteArray_ofList, List.utf8Encode, List.toList_data_toByteArray, String.ofList_toList]

theorem decode?_eq_some_iff {line : List UInt8} {text : String} :
    decode? line = some text ↔ encoded text = line := by
  unfold decode? String.fromUTF8?
  constructor
  · intro decoded
    split_ifs at decoded
    rw [← Option.some.inj decoded]
    rfl
  · rintro rfl
    exact dif_pos text.isValidUTF8

theorem utf8EncodeChar_cases (c : Char) :
    (c.toNat < 128 ∧ String.utf8EncodeChar c = [UInt8.ofNat c.toNat]) ∨
      128 ≤ c.toNat ∧ ∀ b ∈ String.utf8EncodeChar c, 128 ≤ b.toNat := by
  have number : c.val.toNat = c.toNat := rfl
  rw [String.utf8EncodeChar.eq_1, number]
  split_ifs with one two three
  · exact .inl ⟨by omega, rfl⟩
  all_goals
    refine .inr ⟨by omega, ?_⟩
    simp only [List.forall_mem_cons, List.not_mem_nil, false_implies, implies_true, and_true,
      UInt8.toNat_ofNat']
    omega

structure Spells (b : UInt8) (c : Char) : Prop where
  low : b.toNat < 128
  number : c.toNat = b.toNat

theorem spells_lineFeed : Spells lineFeed '\n' := ⟨by decide, rfl⟩

theorem spells_carriageReturn : Spells carriageReturn '\r' := ⟨by decide, rfl⟩

namespace Spells

variable {b : UInt8} {c : Char} (h : Spells b c)

include h

theorem utf8EncodeChar_eq : String.utf8EncodeChar c = [b] := by
  obtain ⟨-, eq⟩ | ⟨high, -⟩ := utf8EncodeChar_cases c
  · rw [eq, h.number, UInt8.ofNat_toNat]
  · exact absurd (h.number ▸ h.low) (Nat.not_lt.mpr high)

theorem mem_utf8EncodeChar_iff {d : Char} : b ∈ String.utf8EncodeChar d ↔ d = c := by
  constructor
  · intro member
    obtain ⟨low, eq⟩ | ⟨-, high⟩ := utf8EncodeChar_cases d
    · rw [eq, List.mem_singleton] at member
      have number := h.number
      rw [member, UInt8.toNat_ofNat', Nat.mod_eq_of_lt (by omega)] at number
      exact (Char.toNat_inj.mp number).symm
    · exact absurd h.low (Nat.not_lt.mpr (high b member))
  · rintro rfl
    rw [h.utf8EncodeChar_eq]
    exact List.mem_singleton_self b

theorem mem_flatMap_iff {cs : List Char} : b ∈ cs.flatMap String.utf8EncodeChar ↔ c ∈ cs := by
  simp [List.mem_flatMap, h.mem_utf8EncodeChar_iff]

theorem withoutLast_flatMap (cs : List Char) : withoutLast b (cs.flatMap String.utf8EncodeChar) =
    (withoutLast c cs).flatMap String.utf8EncodeChar := by
  cases cs using List.reverseRecOn with
  | nil => rfl
  | append_singleton cs d _ =>
    rw [withoutLast, withoutLast, List.getLast?_concat, List.dropLast_concat, List.flatMap_append,
      List.flatMap_singleton]
    by_cases same : d = c
    · rw [same, h.utf8EncodeChar_eq, List.getLast?_concat, if_pos rfl, if_pos rfl,
        List.dropLast_concat]
    · have other :
          (cs.flatMap String.utf8EncodeChar ++ String.utf8EncodeChar d).getLast? ≠ some b := by
        intro last
        rw [List.getLast?_append_of_ne_nil _ String.utf8EncodeChar_ne_nil] at last
        exact same (h.mem_utf8EncodeChar_iff.mp (List.mem_of_getLast? last))
      rw [if_neg other, if_neg (by simpa using same), List.flatMap_append, List.flatMap_singleton]

end Spells

/-- The lines of a text, encoded, are the lines of the encoded text. -/
theorem lines_encoded (text : String) : lines lineFeed carriageReturn (encoded text) =
    (lines '\n' '\r' text.toList).map fun line => encoded (String.ofList line) := by
  have general : ∀ cs : List Char,
      lines lineFeed carriageReturn (cs.flatMap String.utf8EncodeChar) =
      (lines '\n' '\r' cs).map (List.flatMap String.utf8EncodeChar) := by
    intro cs
    induction cs using input_induction '\n' with
    | nil => simp
    | last piece whole some_char =>
      have whole' : lineFeed ∉ piece.flatMap String.utf8EncodeChar := by
        rwa [spells_lineFeed.mem_flatMap_iff]
      have some_byte := List.exists_mem_of_ne_nil piece some_char
      rw [lines_last whole some_char, lines_last whole' (by simpa using some_byte),
        List.map_singleton]
    | more piece rest whole ih =>
      have whole' : lineFeed ∉ piece.flatMap String.utf8EncodeChar := by
        rwa [spells_lineFeed.mem_flatMap_iff]
      rw [lines_more whole, List.flatMap_append, List.flatMap_cons,
        spells_lineFeed.utf8EncodeChar_eq, List.singleton_append, lines_more whole', ih,
        spells_carriageReturn.withoutLast_flatMap, List.map_cons]
  rw [encoded_eq, general]
  refine List.map_congr_left fun line _ => ?_
  rw [encoded_eq, String.toList_ofList]

end Abacus.CommandLine
