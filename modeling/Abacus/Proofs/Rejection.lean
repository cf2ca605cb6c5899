import Mathlib
import Abacus.Proofs.Resolution
import Abacus.Proofs.Source.Coordinates

/-!
A rejection repeats its complaints and nothing else. The ledger has the fields in the order of their
bytes and under each the messages that speak of it, as they were found; so complaints of different
fields may change places, and the summary alone shows which of them came first.
-/

namespace Abacus

namespace Text

theorem ofNat_cons_lt_ofNat_cons {m n : Nat} (hm : m < 256) (hn : n < 256) {xs ys : List UInt8} :
    UInt8.ofNat m :: xs < UInt8.ofNat n :: ys ↔ m < n ∨ m = n ∧ xs < ys := by
  rw [List.cons_lt_cons_iff, UInt8.lt_iff_toNat_lt, ← UInt8.toNat_inj,
    UInt8.toNat_ofNat_of_lt' hm, UInt8.toNat_ofNat_of_lt' hn]

theorem utf8EncodeChar_append_lt {c d : Char} (h : c < d) (xs ys : List UInt8) :
    String.utf8EncodeChar c ++ xs < String.utf8EncodeChar d ++ ys := by
  -- the first byte tells how many there are, and more of them are needed for a later character
  have less : c.val.toNat < d.val.toNat := h
  have last : d.val.toNat < 1114112 := by
    have valid := d.valid
    simp only [UInt32.isValidChar, Nat.isValidChar] at valid
    omega
  rw [String.utf8EncodeChar.eq_1 c, String.utf8EncodeChar.eq_1 d]
  split_ifs <;>
    simp (disch := omega) only [List.cons_append, List.nil_append, ofNat_cons_lt_ofNat_cons,
      Nat.mod_eq_of_lt] <;>
    omega

theorem utf8_cons (c : Char) (cs : List Char) : utf8 (c :: cs) = String.utf8EncodeChar c ++ utf8 cs :=
  rfl

theorem utf8_lt_of_lt {cs ds : List Char} (h : cs < ds) : utf8 cs < utf8 ds := by
  induction cs generalizing ds with
  | nil =>
    cases ds with
    | nil => exact absurd h (List.lt_irrefl [])
    | cons d ds =>
      have some_byte : utf8 (d :: ds) ≠ [] := by
        rw [← List.length_pos_iff_ne_nil, length_utf8, bytes_cons]
        exact Nat.add_pos_left d.utf8Size_pos _
      obtain ⟨b, more, eq⟩ := List.exists_cons_of_ne_nil some_byte
      rw [eq]
      exact List.nil_lt_cons b more
  | cons c cs ih =>
    cases ds with
    | nil => exact absurd h (List.not_lt_nil _)
    | cons d ds =>
      rw [utf8_cons, utf8_cons]
      obtain less | ⟨rfl, rest⟩ := List.cons_lt_cons_iff.mp h
      · exact utf8EncodeChar_append_lt less _ _
      · exact List.append_left_lt (ih rest)

theorem utf8_lt_utf8_iff {s t : String} : utf8 s.toList < utf8 t.toList ↔ s < t := by
  refine ⟨fun before => ?_, fun before => utf8_lt_of_lt (String.lt_iff.mp before)⟩
  obtain less | rfl | more := lt_trichotomy s t
  · exact less
  · exact absurd before (List.lt_irrefl _)
  · exact absurd before (List.lt_asymm (utf8_lt_of_lt (String.lt_iff.mp more)))

end Text

namespace Ledger

variable {c : Complaint} {cs : List Complaint} {ledger ledger' : Ledger} {field : String}
  {messages : List String}

def under (field : String) (ledger : Ledger) : List String :=
  (ledger.lookup field).getD []

/-- The fields in order and without repetition, each with a message. -/
structure Tidy (ledger : Ledger) : Prop where
  ordered : ledger.Pairwise fun entry entry' => entry.1 < entry'.1
  filled : ∀ entry ∈ ledger, entry.2 ≠ []

theorem under_cons_self (field : String) (messages : List String) (rest : Ledger) :
    under field ((field, messages) :: rest) = messages := by
  rw [under, List.lookup_cons_self, Option.getD_some]

theorem under_cons_of_ne {other : String} (h : field ≠ other) (messages : List String)
    (rest : Ledger) : under field ((other, messages) :: rest) = under field rest := by
  rw [under, List.lookup_cons, beq_false_of_ne h]
  rfl

theorem under_eq_nil (h : ∀ entry ∈ ledger, entry.1 ≠ field) : under field ledger = [] := by
  induction ledger with
  | nil => rfl
  | cons entry rest ih =>
    rw [List.forall_mem_cons] at h
    rw [under_cons_of_ne (Ne.symm h.1), ih h.2]

theorem tidy_cons {rest : Ledger} : Tidy ((field, messages) :: rest) ↔
    (∀ entry ∈ rest, field < entry.1) ∧ messages ≠ [] ∧ rest.Tidy := by
  constructor
  · rintro ⟨ordered, filled⟩
    rw [List.pairwise_cons] at ordered
    rw [List.forall_mem_cons] at filled
    exact ⟨ordered.1, filled.1, ordered.2, filled.2⟩
  · rintro ⟨later, some_message, tidy⟩
    exact ⟨List.pairwise_cons.mpr ⟨later, tidy.ordered⟩,
      List.forall_mem_cons.mpr ⟨some_message, tidy.filled⟩⟩

theorem Tidy.mem_iff (h : ledger.Tidy) :
    (field, messages) ∈ ledger ↔ messages ≠ [] ∧ under field ledger = messages := by
  induction ledger with
  | nil => simp [under, eq_comm]
  | cons entry rest ih =>
    obtain ⟨first, texts⟩ := entry
    obtain ⟨later, some_text, tidy⟩ := tidy_cons.mp h
    rw [List.mem_cons, ih tidy, Prod.mk.injEq]
    by_cases same : field = first
    · subst same
      have absent : under field rest = [] := under_eq_nil fun entry member => (later entry member).ne'
      rw [under_cons_self, absent]
      grind
    · rw [under_cons_of_ne same]
      simp [same]

theorem Tidy.eq_of_under (h : ledger.Tidy) (h' : ledger'.Tidy)
    (same : ∀ field, under field ledger = under field ledger') : ledger = ledger' := by
  have members : ∀ entry, entry ∈ ledger ↔ entry ∈ ledger' := by
    rintro ⟨field, messages⟩
    rw [h.mem_iff, h'.mem_iff, same]
  have distinct {l : Ledger} (tidy : l.Tidy) : l.Nodup :=
    tidy.ordered.imp fun before => by
      rintro rfl
      exact lt_irrefl _ before
  refine List.Perm.eq_of_pairwise (fun a b _ _ before after => absurd after before.asymm)
    h.ordered h'.ordered ?_
  exact (List.perm_ext_iff_of_nodup (distinct h) (distinct h')).mpr members

theorem Tidy.enter (h : ledger.Tidy) (c : Complaint) : (ledger.enter c).Tidy := by
  induction ledger with
  | nil => exact tidy_cons.mpr ⟨by simp, by simp, h⟩
  | cons entry rest ih =>
    obtain ⟨first, texts⟩ := entry
    obtain ⟨later, some_text, tidy⟩ := tidy_cons.mp h
    unfold Ledger.enter
    split_ifs with same earlier
    · exact tidy_cons.mpr ⟨later, by simp, tidy⟩
    · refine tidy_cons.mpr ⟨List.forall_mem_cons.mpr ⟨earlier, ?_⟩, by simp, h⟩
      exact fun entry member => earlier.trans (later entry member)
    · have after : first < c.field := lt_of_le_of_ne (not_lt.mp earlier) (Ne.symm same)
      refine tidy_cons.mpr ⟨fun entry member => ?_, some_text, ih tidy⟩
      have field : entry.1 ∈ (Ledger.enter c rest).map Prod.fst := List.mem_map_of_mem member
      obtain eq | known := mem_fields_enter.mp field
      · exact eq ▸ after
      · obtain ⟨entry', member', eq⟩ := List.mem_map.mp known
        exact eq ▸ later entry' member'

theorem Tidy.under_enter_self (h : ledger.Tidy) (c : Complaint) :
    under c.field (ledger.enter c) = under c.field ledger ++ [c.message] := by
  induction ledger with
  | nil => exact under_cons_self _ _ _
  | cons entry rest ih =>
    obtain ⟨first, texts⟩ := entry
    obtain ⟨later, -, tidy⟩ := tidy_cons.mp h
    unfold Ledger.enter
    split_ifs with same earlier
    · rw [same, under_cons_self, under_cons_self]
    -- a field that stands before all others was not there
    · have absent : under c.field ((first, texts) :: rest) = [] :=
        under_eq_nil (List.forall_mem_cons.mpr
          ⟨earlier.ne', fun entry member => (earlier.trans (later entry member)).ne'⟩)
      rw [absent, under_cons_self, List.nil_append]
    · rw [under_cons_of_ne same, under_cons_of_ne same, ih tidy]

theorem under_enter_of_ne (other : field ≠ c.field) (ledger : Ledger) :
    under field (ledger.enter c) = under field ledger := by
  induction ledger with
  | nil => exact under_cons_of_ne other _ _
  | cons entry rest ih =>
    obtain ⟨first, texts⟩ := entry
    unfold Ledger.enter
    split_ifs with same earlier
    · rw [← same, under_cons_of_ne other, under_cons_of_ne other]
    · rw [under_cons_of_ne other]
    · by_cases here : field = first
      · rw [here, under_cons_self, under_cons_self]
      · rw [under_cons_of_ne here, under_cons_of_ne here, ih]

theorem entries_cons (field : String) (messages : List String) (rest : Ledger) :
    entries ((field, messages) :: rest) =
      messages.map (fun message => ⟨field, message⟩) ++ entries rest :=
  List.flatMap_cons

/-- Nothing is lost or made up on the way into a ledger. -/
theorem entries_enter_perm (c : Complaint) (ledger : Ledger) :
    (ledger.enter c).entries.Perm (c :: ledger.entries) := by
  induction ledger with
  | nil => exact .refl _
  | cons entry rest ih =>
    obtain ⟨first, texts⟩ := entry
    unfold Ledger.enter
    split_ifs with same earlier
    · rw [entries_cons, entries_cons, List.map_append, List.append_assoc, ← same]
      exact List.perm_middle
    · exact .refl _
    · rw [entries_cons, entries_cons]
      exact (ih.append_left _).trans List.perm_middle

theorem ofComplaints_concat (cs : List Complaint) (c : Complaint) :
    ofComplaints (cs ++ [c]) = (ofComplaints cs).enter c :=
  List.foldl_concat _ _ _ _

theorem tidy_ofComplaints (cs : List Complaint) : (ofComplaints cs).Tidy := by
  induction cs using List.reverseRecOn with
  | nil => exact ⟨List.Pairwise.nil, by simp [ofComplaints]⟩
  | append_singleton cs c ih =>
    rw [ofComplaints_concat]
    exact ih.enter c

theorem under_ofComplaints (field : String) (cs : List Complaint) :
    under field (ofComplaints cs) =
      (cs.filter fun c => c.field = field).map Complaint.message := by
  induction cs using List.reverseRecOn with
  | nil => rfl
  | append_singleton cs c ih =>
    rw [ofComplaints_concat, List.filter_append, List.map_append, ← ih]
    by_cases mine : c.field = field
    · subst mine
      rw [(tidy_ofComplaints cs).under_enter_self]
      simp
    · rw [under_enter_of_ne (Ne.symm mine)]
      simp [mine]

theorem entries_ofComplaints_perm (cs : List Complaint) : (ofComplaints cs).entries.Perm cs := by
  induction cs using List.reverseRecOn with
  | nil => exact .nil
  | append_singleton cs c ih =>
    rw [ofComplaints_concat]
    exact (entries_enter_perm c _).trans ((ih.cons c).trans (List.perm_append_singleton c cs).symm)

theorem ofComplaints_congr {cs' : List Complaint}
    (same : ∀ field, cs.filter (fun c => c.field = field) = cs'.filter fun c => c.field = field) :
    ofComplaints cs = ofComplaints cs' := by
  refine (tidy_ofComplaints cs).eq_of_under (tidy_ofComplaints cs') fun field => ?_
  rw [under_ofComplaints, under_ofComplaints, same]

end Ledger

def permuted (cs : List Complaint) (σ : Equiv.Perm (Fin cs.length)) : List Complaint :=
  List.ofFn fun i => cs.get (σ.symm i)

/-- Complaints of one field do not overtake each other. -/
def KeepsFieldOrder (cs : List Complaint) (σ : Equiv.Perm (Fin cs.length)) : Prop :=
  ∀ i j : Fin cs.length, i < j → (cs.get i).field = (cs.get j).field → σ i < σ j

instance (cs : List Complaint) (σ : Equiv.Perm (Fin cs.length)) :
    Decidable (KeepsFieldOrder cs σ) :=
  inferInstanceAs (Decidable (∀ _ _ : Fin cs.length, _))

theorem KeepsFieldOrder.map_places {cs : List Complaint} {σ : Equiv.Perm (Fin cs.length)}
    (h : KeepsFieldOrder cs σ) (field : String) :
    ((List.finRange cs.length).filter fun i => (cs.get i).field = field).map σ =
      (List.finRange cs.length).filter fun i => (cs.get (σ.symm i)).field = field := by
  have places (p : Fin cs.length → Bool) : ((List.finRange cs.length).filter p).Pairwise (· < ·) :=
    (List.pairwise_lt_finRange _).filter p
  have moved : (((List.finRange cs.length).filter fun i => (cs.get i).field = field).map σ).Pairwise
      (· < ·) := by
    refine List.pairwise_map.mpr ((places _).imp_of_mem fun mine mine' before => ?_)
    simp only [List.mem_filter, decide_eq_true_eq] at mine mine'
    exact h _ _ before (mine.2.trans mine'.2.symm)
  refine List.Perm.eq_of_pairwise (fun i j _ _ before after => absurd after before.asymm)
    moved (places _) ?_
  refine (List.perm_ext_iff_of_nodup (moved.imp ne_of_lt) ((places _).imp ne_of_lt)).mpr fun i => ?_
  simp only [List.mem_map, List.mem_filter, List.mem_finRange, true_and, decide_eq_true_eq]
  constructor
  · rintro ⟨j, mine, rfl⟩
    rwa [Equiv.symm_apply_apply]
  · intro mine
    exact ⟨σ.symm i, mine, Equiv.apply_symm_apply σ i⟩

theorem KeepsFieldOrder.filter_permuted {cs : List Complaint} {σ : Equiv.Perm (Fin cs.length)}
    (h : KeepsFieldOrder cs σ) (field : String) :
    (permuted cs σ).filter (fun c => c.field = field) = cs.filter fun c => c.field = field := by
  have all : cs = (List.finRange cs.length).map cs.get := by
    rw [← List.ofFn_eq_map, List.ofFn_get]
  calc (permuted cs σ).filter (fun c => c.field = field)
      = ((List.finRange cs.length).filter fun i => (cs.get (σ.symm i)).field = field).map
          fun i => cs.get (σ.symm i) := by
        rw [permuted, List.ofFn_eq_map, List.filter_map]
        rfl
    _ = ((List.finRange cs.length).filter fun i => (cs.get i).field = field).map cs.get := by
        rw [← h.map_places, List.map_map]
        simp [Function.comp_def]
    _ = cs.filter fun c => c.field = field := by
        conv_rhs => rw [all, List.filter_map]
        rfl

namespace Rejection

def othersText : Nat → String
  | 0 => ""
  | 1 => " (and 1 more error)"
  | n => " (and " ++ toString n ++ " more errors)"

theorem summarize_eq (cs : List Complaint) : summarize cs =
    cs.head?.elim "" Complaint.message ++ othersText (cs.length - 1) := by
  match cs with
  | [] => rfl
  | [c] => exact String.append_empty.symm
  | [c, d] => rfl
  | c :: d :: e :: more => simp [summarize, othersText, String.append_assoc]

/-- Of a list of complaints no message is lost, made up or moved: the fields that it speaks of come
in the order of their bytes, each with its own messages as they were found. The summary is the first
message and the number of the others. -/
theorem every_complaint_kept (cs : List Complaint) :
    ((ofComplaints cs).errors.map Prod.fst).Pairwise
      (fun field field' => Text.utf8 field.toList < Text.utf8 field'.toList) ∧
    (∀ field, field ∈ (ofComplaints cs).errors.map Prod.fst ↔ ∃ c ∈ cs, c.field = field) ∧
    (∀ field messages, (field, messages) ∈ (ofComplaints cs).errors →
      messages ≠ [] ∧ messages = (cs.filter fun c => c.field = field).map Complaint.message) ∧
    (ofComplaints cs).errors.entries.Perm cs ∧
    ((ofComplaints cs).errors.map fun entry => entry.2.length).sum = cs.length ∧
    (ofComplaints cs).summary =
      cs.head?.elim "" Complaint.message ++ othersText (cs.length - 1) ∧
    ((ofComplaints cs).isEmpty = true ↔ cs = []) ∧
    ∀ σ, KeepsFieldOrder cs σ → (ofComplaints (permuted cs σ)).errors = (ofComplaints cs).errors := by
  have tidy := Ledger.tidy_ofComplaints cs
  have kept := Ledger.entries_ofComplaints_perm cs
  refine ⟨?_, fun field => Ledger.mem_fields_ofComplaints, fun field messages member => ?_, kept, ?_,
    summarize_eq cs, ?_, fun σ keeps => Ledger.ofComplaints_congr keeps.filter_permuted⟩
  · exact List.pairwise_map.mpr (tidy.ordered.imp Text.utf8_lt_utf8_iff.mpr)
  · obtain ⟨some_message, found⟩ := tidy.mem_iff.mp member
    exact ⟨some_message, by rw [← found, Ledger.under_ofComplaints]⟩
  · rw [← kept.length_eq, Ledger.entries, List.length_flatMap]
    simp [ofComplaints]
  · rw [isEmpty, List.isEmpty_iff]
    constructor
    · intro none_entered
      have entered : Ledger.ofComplaints cs = [] := none_entered
      rw [entered] at kept
      exact List.nil_perm.mp kept
    · rintro rfl
      rfl

theorem every_complaint_kept_reordered :
    KeepsFieldOrder [⟨"\u00e9", "first"⟩, ⟨"z", "second"⟩, ⟨"\u00e9", "third"⟩] (Equiv.swap 0 1) ∧
    (ofComplaints [⟨"z", "second"⟩, ⟨"\u00e9", "first"⟩, ⟨"\u00e9", "third"⟩]).errors =
      [("z", ["second"]), ("\u00e9", ["first", "third"])] := by
  have keeps : KeepsFieldOrder [⟨"\u00e9", "first"⟩, ⟨"z", "second"⟩, ⟨"\u00e9", "third"⟩]
      (Equiv.swap 0 1) := by decide
  obtain ⟨-, -, -, -, -, -, -, same⟩ :=
    every_complaint_kept [⟨"\u00e9", "first"⟩, ⟨"z", "second"⟩, ⟨"\u00e9", "third"⟩]
  exact ⟨keeps, (same _ keeps).trans (by decide +kernel)⟩

end Rejection

end Abacus
