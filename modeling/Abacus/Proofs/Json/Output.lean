import Mathlib
import Abacus.Proofs.Json.Numbers

/-!
What is written is JSON of the grammar, on one line. A string is a literal that stands for the text,
a number one whose value is the double, a list and an object hold what their parts are; and nothing
that is written has a control character in it, whatever text it was given.
-/

namespace Abacus.Json

open Decimal (isFinite)

/-- The text is the datum, without a blank before or after it. -/
def Prints (text : String) (d : Datum) : Prop :=
  Writes (.value d) text.toList

theorem exists_prints_string (text : String) :
    ∃ d : Datum, Prints (string text) d ∧ d.IsString text := by
  obtain ⟨l, written, names⟩ := exists_literal text
  refine ⟨.string l, ?_, l, rfl, names⟩
  rw [Prints, written]
  exact .string l

theorem prints_null : Prints null .null := by
  have letters : null.toList = ['n', 'u', 'l', 'l'] := by decide
  rw [Prints, letters]
  exact .null

theorem exists_prints_number (x : Float) : ∃ d : Datum, Prints (number x) d ∧ d.IsNumber x := by
  unfold Datum.IsNumber
  by_cases finite : isFinite x = true
  · obtain ⟨f, written, value⟩ := exists_figure finite
    refine ⟨.number f, ?_, by rw [if_pos finite]; exact ⟨f, rfl, value⟩⟩
    rw [Prints, written]
    exact .number f
  · refine ⟨.null, ?_, by rw [if_neg finite]⟩
    rw [number, if_neg finite]
    exact prints_null

theorem Prints.item {text : String} {d : Datum} (h : Prints text d) :
    Writes (.item d) text.toList := by
  have item := Writes.item isBlank_nil h isBlank_nil
  rwa [List.nil_append, List.append_nil] at item

theorem Prints.isText {text : String} {d : Datum} (h : Prints text d) : IsText d text := h.item

theorem writes_items {texts : List String} {ds : List Datum} (h : List.Forall₂ Prints texts ds)
    (some_item : texts ≠ []) : Writes (.items ds) (String.intercalate "," texts).toList := by
  induction h with
  | nil => exact absurd rfl some_item
  | @cons text d texts ds first others ih =>
    cases texts with
    | nil =>
      cases others
      rw [String.intercalate_singleton]
      exact .lastItem first.item
    | cons next more =>
      rw [String.intercalate_cons_cons, String.toList_append, String.toList_append,
        List.append_assoc]
      exact .nextItem first.item (ih (by simp))

theorem prints_list {texts : List String} {ds : List Datum} (h : List.Forall₂ Prints texts ds) :
    Prints (list texts) (.list ds) := by
  have written : (list texts).toList = '[' :: ((String.intercalate "," texts).toList ++ [']']) := by
    rw [list, String.toList_append, String.toList_append, List.append_assoc]
    rfl
  rw [Prints, written]
  cases texts with
  | nil =>
    cases h
    exact @Writes.emptyList [] isBlank_nil
  | cons text texts => exact .list (writes_items h (by simp))

def memberText (p : String × String) : String :=
  string p.1 ++ ":" ++ p.2

theorem object_eq (ps : List (String × String)) :
    object ps = "\x7b" ++ String.intercalate "," (ps.map memberText) ++ "\x7d" := rfl

structure IsMember (p : String × String) (m : Member) : Prop where
  key : (string p.1).toList = m.1.text
  names : m.1.Names p.1
  value : Prints p.2 m.2

theorem exists_isMember (key : String) {text : String} {d : Datum} (value : Prints text d) :
    ∃ l : Literal, IsMember (key, text) (l, d) := by
  obtain ⟨l, written, names⟩ := exists_literal key
  exact ⟨l, written, names, value⟩

theorem IsMember.writes {p : String × String} {m : Member} (h : IsMember p m) :
    Writes (.member m) (memberText p).toList := by
  rw [memberText, String.toList_append, String.toList_append, h.key, List.append_assoc]
  exact (Writes.member (l := m.1) isBlank_nil isBlank_nil h.value.item :)

theorem writes_members {ps : List (String × String)} {ms : List Member}
    (h : List.Forall₂ IsMember ps ms) (some_member : ps ≠ []) :
    Writes (.members ms) (String.intercalate "," (ps.map memberText)).toList := by
  induction h with
  | nil => exact absurd rfl some_member
  | @cons p m ps ms first others ih =>
    cases ps with
    | nil =>
      cases others
      rw [List.map_singleton, String.intercalate_singleton]
      exact .lastMember first.writes
    | cons next more =>
      rw [List.map_cons, List.map_cons, String.intercalate_cons_cons, String.toList_append,
        String.toList_append, List.append_assoc]
      exact .nextMember first.writes (ih (by simp))

theorem prints_object {ps : List (String × String)} {ms : List Member}
    (h : List.Forall₂ IsMember ps ms) : Prints (object ps) (.object ms) := by
  have written : (object ps).toList =
      '\x7b' :: ((String.intercalate "," (ps.map memberText)).toList ++ ['\x7d']) := by
    rw [object_eq, String.toList_append, String.toList_append, List.append_assoc]
    rfl
  rw [Prints, written]
  cases ps with
  | nil =>
    cases h
    exact @Writes.emptyObject [] isBlank_nil
  | cons p ps => exact .object (writes_members h (by simp))

def HasNoControl (text : String) : Prop :=
  ∀ c ∈ text.toList, ¬ c.toNat < 0x20

theorem HasNoControl.append {s t : String} (hs : HasNoControl s) (ht : HasNoControl t) :
    HasNoControl (s ++ t) := by
  rw [HasNoControl, String.toList_append]
  exact List.forall_mem_append.mpr ⟨hs, ht⟩

theorem hasNoControl_intercalate {texts : List String} (h : ∀ text ∈ texts, HasNoControl text) :
    HasNoControl (String.intercalate "," texts) := by
  have comma : HasNoControl "," := by simp [HasNoControl]
  induction texts with
  | nil => simp [HasNoControl]
  | cons text texts ih =>
    rw [List.forall_mem_cons] at h
    cases texts with
    | nil =>
      rw [String.intercalate_singleton]
      exact h.1
    | cons next more =>
      rw [String.intercalate_cons_cons]
      exact (h.1.append comma).append (ih h.2)

theorem not_control_escape (c : Char) : ∀ d ∈ escape c, ¬ d.toNat < 0x20 := by
  have digit : ∀ n < 16, ¬ (hexDigit n).toNat < 0x20 := by decide
  unfold escape
  split
  case h_8 =>
    split_ifs with control
    · simp only [List.forall_mem_cons]
      exact ⟨by decide, by decide, by decide, by decide, digit _ (by omega), digit _ (by omega),
        by simp⟩
    · simpa using control
  all_goals simp

theorem hasNoControl_string (text : String) : HasNoControl (string text) := by
  rw [HasNoControl, toList_string]
  refine List.forall_mem_cons.mpr ⟨by decide, List.forall_mem_append.mpr ⟨?_, by simp⟩⟩
  intro d there
  obtain ⟨c, -, written⟩ := List.mem_flatMap.mp there
  exact not_control_escape c d written

theorem not_control_of_isDigit {cs : List Char} (h : ∀ c ∈ cs, c.isDigit = true) :
    ∀ c ∈ cs, ¬ c.toNat < 0x20 := by
  intro c there
  have digit := (Char.isDigit_iff_toNat.mp (h c there)).1
  have zero : '0'.toNat = 48 := rfl
  omega

theorem Exponent.not_control (e : Exponent) : ∀ c ∈ e.text, ¬ c.toNat < 0x20 := by
  have signs : ∀ c ∈ e.sign.toList, ¬ c.toNat < 0x20 := by
    intro c there
    obtain rfl | rfl : c = '-' ∨ c = '+' := by
      simpa using e.sign_mem c (Option.mem_toList.mp there)
    all_goals decide
  have letter : ¬ e.letter.toNat < 0x20 := by
    obtain letter | letter : e.letter = 'e' ∨ e.letter = 'E' := by simpa using e.letter_mem
    all_goals
      rw [letter]
      decide
  exact List.forall_mem_cons.mpr
    ⟨letter, List.forall_mem_append.mpr ⟨signs, not_control_of_isDigit e.digits_isDigit⟩⟩

theorem Parts.not_control (p : Parts) : ∀ c ∈ p.text, ¬ c.toNat < 0x20 := by
  have fraction : ∀ c ∈ p.fractionText, ¬ c.toNat < 0x20 := by
    rw [fractionText]
    split_ifs
    · simp
    · exact List.forall_mem_cons.mpr ⟨by decide, not_control_of_isDigit p.fraction_isDigit⟩
  have exponent : ∀ c ∈ p.exponentText, ¬ c.toNat < 0x20 := by
    rw [exponentText]
    cases p.exponent with
    | none => simp
    | some e => exact e.not_control
  exact List.forall_mem_append.mpr
    ⟨not_control_of_isDigit p.whole_isDigit, List.forall_mem_append.mpr ⟨fraction, exponent⟩⟩

theorem Figure.not_control (f : Figure) : ∀ c ∈ f.text, ¬ c.toNat < 0x20 := by
  rw [text]
  split_ifs
  · exact List.forall_mem_cons.mpr ⟨by decide, f.parts.not_control⟩
  · exact f.parts.not_control

theorem hasNoControl_null : HasNoControl null := by
  simp [HasNoControl, null]

theorem hasNoControl_number (x : Float) : HasNoControl (number x) := by
  by_cases finite : isFinite x = true
  · obtain ⟨f, written, -⟩ := exists_figure finite
    rw [HasNoControl, written]
    exact f.not_control
  · rw [number, if_neg finite]
    exact hasNoControl_null

theorem hasNoControl_list {texts : List String} (h : ∀ text ∈ texts, HasNoControl text) :
    HasNoControl (list texts) := by
  have bracket : HasNoControl "[" := by simp [HasNoControl]
  have close : HasNoControl "]" := by simp [HasNoControl]
  exact (bracket.append (hasNoControl_intercalate h)).append close

theorem hasNoControl_object {ps : List (String × String)} (h : ∀ p ∈ ps, HasNoControl p.2) :
    HasNoControl (object ps) := by
  have brace : HasNoControl "\x7b" := by simp [HasNoControl]
  have close : HasNoControl "\x7d" := by simp [HasNoControl]
  have colon : HasNoControl ":" := by simp [HasNoControl]
  have members : ∀ text ∈ ps.map memberText, HasNoControl text := by
    intro text there
    obtain ⟨p, member, rfl⟩ := List.mem_map.mp there
    exact ((hasNoControl_string p.1).append colon).append (h p member)
  exact (brace.append (hasNoControl_intercalate members)).append close

/-- The text is such a datum, and it has no character below U+0020. -/
structure OneLine (is : Datum → Prop) (text : String) : Prop where
  noControl : HasNoControl text
  prints : ∃ d, Prints text d ∧ is d

theorem OneLine.imp {is is' : Datum → Prop} {text : String} (h : OneLine is text)
    (imp : ∀ d, is d → is' d) : OneLine is' text := by
  obtain ⟨d, prints, holds⟩ := h.prints
  exact ⟨h.noControl, d, prints, imp d holds⟩

theorem oneLine_string (text : String) : OneLine (Datum.IsString text) (string text) :=
  ⟨hasNoControl_string text, exists_prints_string text⟩

theorem oneLine_number (x : Float) : OneLine (Datum.IsNumber x) (number x) :=
  ⟨hasNoControl_number x, exists_prints_number x⟩

theorem oneLine_null : OneLine (· = .null) null :=
  ⟨hasNoControl_null, .null, prints_null, rfl⟩

theorem oneLine_nullable {α : Type} {is : α → Datum → Prop} {write : α → String}
    (h : ∀ a, OneLine (is a) (write a)) (o : Option α) :
    OneLine (Datum.IsOptional is o) (nullable write o) := by
  cases o with
  | none => exact oneLine_null
  | some a => exact h a

theorem oneLine_list {items : List (Datum → Prop)} {texts : List String}
    (h : List.Forall₂ OneLine items texts) : OneLine (Datum.IsList items) (list texts) := by
  have parts : (∀ text ∈ texts, HasNoControl text) ∧ ∃ ds, List.Forall₂ Prints texts ds ∧
      List.Forall₂ (fun item d => item d) items ds := by
    induction h with
    | nil => exact ⟨by simp, [], .nil, .nil⟩
    | cons first _ ih =>
      obtain ⟨noControl, d, prints, is⟩ := first
      obtain ⟨others, ds, printed, are⟩ := ih
      exact ⟨List.forall_mem_cons.mpr ⟨noControl, others⟩, d :: ds, .cons prints printed,
        .cons is are⟩
  obtain ⟨noControl, ds, printed, are⟩ := parts
  exact ⟨hasNoControl_list noControl, .list ds, prints_list printed, ds, rfl, are⟩

theorem oneLine_object {fields : List (String × (Datum → Prop))} {ps : List (String × String)}
    (h : List.Forall₂ (fun field p => field.1 = p.1 ∧ OneLine field.2 p.2) fields ps) :
    OneLine (Datum.IsObject fields) (object ps) := by
  have parts : (∀ p ∈ ps, HasNoControl p.2) ∧ ∃ ms, List.Forall₂ IsMember ps ms ∧
      List.Forall₂ (fun field (m : Member) => m.1.Names field.1 ∧ field.2 m.2) fields ms := by
    induction h with
    | nil => exact ⟨by simp, [], .nil, .nil⟩
    | @cons field p _ _ first _ ih =>
      obtain ⟨same, noControl, d, prints, is⟩ := first
      obtain ⟨others, ms, members, are⟩ := ih
      obtain ⟨l, isMember⟩ := exists_isMember p.1 prints
      refine ⟨List.forall_mem_cons.mpr ⟨noControl, others⟩, (l, d) :: ms, .cons isMember members,
        .cons ⟨?_, is⟩ are⟩
      exact same ▸ isMember.names
  obtain ⟨noControl, ms, members, are⟩ := parts
  exact ⟨hasNoControl_object noControl, .object ms, prints_object members, ms, rfl, are⟩

end Abacus.Json
