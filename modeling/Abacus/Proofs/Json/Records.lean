import Mathlib
import Abacus.Proofs.Json.Acceptance

/-!
Records of JSON. Where every field reads its value as the slot of the same name understands the
datum, the reader of the record makes of an object what its members do, one after the other, and of
a list what its items do: one step is shown for a member and for an item, and the run follows by
induction on them. What can be said of every record that is read, of whatever text, is what holds of
the empty one and is kept by every field.
-/

namespace Abacus.Json

open Scan

/-- The reader of a field and the meaning of its data. -/
structure Follows {σ : Type} (field : Reader.Field σ) (slot : Slot σ) : Prop where
  name : field.name = slot.name
  settles : ∀ d, Settles field.update d (slot.update d)
  ignores : Reader.IgnoresBlanks field.update

namespace Reader

variable {σ : Type} {fields : List (Field σ)} {slots : List (Slot σ)} {convert : Conversion}
  {cs rest : List Char}

theorem find?_follows (follow : List.Forall₂ Follows fields slots) (name : String) :
    Option.Rel Follows (fields.find? (·.name == name)) (slots.find? (·.name == name)) := by
  induction follow with
  | nil => exact .none
  | @cons field slot fields slots first _ ih =>
    rw [List.find?_cons, List.find?_cons, first.name]
    cases slot.name == name with
    | true => exact .some first
    | false => exact ih

theorem thenBlanks_map {α β : Type} (x : Reader α) (f : α → β) :
    thenBlanks (do return f (← x)) = do return f (← thenBlanks x) := by
  simp [thenBlanks]

theorem run_colon_thenBlanks {α : Type} {after : List Char} (blank : IsBlank after)
    (read : Reader α) (s : List Char) :
    (thenBlanks (colon >>= fun _ => read)).run (after ++ ':' :: s) = (thenBlanks read).run s := by
  rw [thenBlanks_bind, run_bind_of_ok (run_colon blank s)]

theorem comesTo_member (follow : List.Forall₂ Follows fields slots) {m : Member}
    (h : Writes (.member m) cs) (d : Draft σ) (more : Continues rest) :
    ComesTo (thenBlanks (member fields d)) (cs ++ rest) (enter slots d m) rest := by
  cases h with
  | @member v before after cs l blank blank' item =>
    have solid : ∀ c ∈ (l.text ++ (after ++ ':' :: (cs ++ rest))).head?, isBlank c = false := by
      rintro c ⟨rfl⟩
      decide
    rw [List.append_assoc, List.append_assoc, List.append_assoc, List.cons_append, member,
      thenBlanks_bind, enter, Literal.content_bind]
    refine ComesTo.congr (run_bind_of_ok (run_blanks_append blank solid)) ?_
    rw [thenBlanks_bind]
    refine (comesTo_characters l _).bind fun name _ => ?_
    generalize String.ofList name = name
    -- the two look-ups agree: a name that neither knows is skipped, else the field is read
    have found := find?_follows follow name
    dsimp only
    revert found
    cases fields.find? (·.name == name) <;> cases slots.find? (·.name == name)
    all_goals
      intro found
      cases found
    · have skipped : ComesTo (thenBlanks skipValue) (cs ++ rest) (.ok ()) rest :=
        run_skipValue item more
      refine (skipped.map fun _ => d).congr ((run_colon_thenBlanks blank' _ _).trans ?_)
      rw [← thenBlanks_map]
    · next field slot follows =>
      dsimp only
      split_ifs with met
      · exact .of_error (run_bind_of_error rfl)
      · have settled := ((follows.settles v).item follows.ignores item more).map
          fun u => (⟨name :: d.met, u d.record⟩ : Draft σ)
        have same : (slot.update v >>= fun u => return (⟨name :: d.met, u d.record⟩ : Draft σ)) =
            (slot.update v).map fun u => ⟨name :: d.met, u d.record⟩ := by
          cases slot.update v <;> rfl
        rw [same]
        refine settled.congr ((run_colon_thenBlanks blank' _ _).trans ?_)
        rw [← thenBlanks_map]

/-- What the members do is done in their order. -/
theorem comesTo_members (follow : List.Forall₂ Follows fields slots) {ms : List Member}
    (h : Writes (.members ms) cs) (d : Draft σ) (rest : List Char) :
    ComesTo (itemsFrom '\x7d' (member fields) d) (cs ++ '\x7d' :: rest) (ms.foldlM (enter slots) d)
      rest := by
  induction ms generalizing cs d with
  | nil => cases h
  | cons m ms ih =>
    rw [List.foldlM_cons]
    cases h with
    | lastMember first =>
      have entered := comesTo_member follow first d (continues_end rest)
      have last : (enter slots d m >>= fun d' => [].foldlM (enter slots) d') = enter slots d m :=
        bind_pure _
      rw [last]
      exact itemsFrom_last (by decide) entered
    | @nextMember _ _ cs others first further =>
      rw [List.append_assoc, List.cons_append]
      have entered := comesTo_member follow first d (continues_comma (others ++ '\x7d' :: rest))
      exact itemsFrom_next entered fun d' _ => ih further d'

theorem settles_object (follow : List.Forall₂ Follows fields slots) (start : σ)
    (ms : List Member) :
    Settles (record convert fields start) (.object ms) (ofMembers slots start ms) := by
  intro cs written rest closes
  have opened (s : List Char) : (record convert fields start).run ('\x7b' :: s) =
      (do return (← enclosed '\x7d' (member fields) ⟨[], start⟩).record : Reader σ).run s := by
    rw [record, run_ahead_bind rfl]
    rfl
  have same : ofMembers slots start ms =
      (ms.foldlM (enter slots) ⟨[], start⟩).map (·.record) := by
    rw [ofMembers]
    cases ms.foldlM (enter slots) ⟨[], start⟩ <;> rfl
  rw [same]
  cases written with
  | emptyObject blank =>
    rw [List.cons_append, List.append_assoc, List.singleton_append]
    refine ComesTo.congr (opened _) (ComesTo.map ?_ _)
    exact run_enclosed_blanks (by decide) blank
  | object members =>
    have starts := (starts_of_writes members).append ('\x7d' :: rest)
    rw [List.cons_append, List.append_assoc, List.singleton_append]
    refine ComesTo.congr (opened _) (ComesTo.map ?_ _)
    refine (comesTo_members follow members _ rest).congr ?_
    exact run_enclosed_starts starts (ignoresBlanks_member _ _) (.inr rfl)

def afterItem (fields : List (Field σ)) (r : σ) : Reader σ := do
  let r ← inOrder fields false r
  blanks
  symbol ']'
  return r

def fromItem (field : Field σ) (fields : List (Field σ)) (r : σ) : Reader σ := do
  let update ← field.update
  afterItem fields (update r)

variable {field : Field σ} {slot : Slot σ} {r : σ} {s after : List Char}

theorem run_hasNext_end (isFirst : Bool) (blank : IsBlank after) :
    (hasNext isFirst).run (after ++ ']' :: rest) = (.ok false, ']' :: rest) := by
  rw [hasNext, (ignoresBlanks_ahead.bind _).run_append blank, run_ahead_bind rfl]
  rfl

theorem run_hasNext_first (starts : Starts s) :
    (hasNext true).run s = (.ok true, s.dropWhile isBlank) := by
  obtain ⟨c, more, solid, bracket, -, dropped, here⟩ := starts.ahead_bind
  rw [hasNext, here, dropped]
  split
  case h_1 same => cases same
  case h_2 same => exact absurd (Option.some.inj same) bracket
  case h_3 => rfl

theorem run_hasNext_comma (blank : IsBlank after) (starts : Starts s) :
    (hasNext false).run (after ++ ',' :: s) = (.ok true, s.dropWhile isBlank) := by
  obtain ⟨c, more, solid, bracket, -, dropped, here⟩ := starts.ahead_bind
  have taken : (Scan.skip 1 : Reader Unit).run (',' :: s) = (.ok (), s) := rfl
  rw [hasNext, (ignoresBlanks_ahead.bind _).run_append blank, run_ahead_bind rfl]
  split
  case h_1 same => cases same
  case h_2 same => simp at same
  case h_3 comma _ same =>
    obtain rfl := Option.some.inj same
    rw [if_neg Bool.false_ne_true, if_pos rfl, run_bind_of_ok taken, here, dropped]
    split
    case h_1 same => cases same
    case h_2 same => exact absurd (Option.some.inj same) bracket
    case h_3 => rfl

theorem ignoresBlanks_fromItem (follows : Follows field slot) (fields : List (Field σ)) (r : σ) :
    IgnoresBlanks (fromItem field fields r) :=
  follows.ignores.bind _

theorem run_end (r : σ) (blank : IsBlank after) :
    (do blanks; symbol ']'; return r : Reader σ).run (after ++ ']' :: rest) = (.ok r, rest) := by
  have solid : ∀ c ∈ (']' :: rest).head?, isBlank c = false := by
    rintro c ⟨rfl⟩
    decide
  rw [run_bind_of_ok (run_blanks_append blank solid), run_bind_of_ok (run_symbol ']' rest),
    run_pure]

theorem run_end_error (r : σ) {c : Char} (blank : IsBlank after) (solid : isBlank c = false)
    (other : c ≠ ']') : (do blanks; symbol ']'; return r : Reader σ).run (after ++ c :: s) =
      (.error .malformed, c :: s) := by
  have solid' : ∀ d ∈ (c :: s).head?, isBlank d = false := by
    rintro d ⟨rfl⟩
    exact solid
  rw [run_bind_of_ok (run_blanks_append blank solid'), run_bind_of_error (run_symbol_error other s)]

/-- Where the list ends no field is filled any more. -/
theorem run_inOrder_end (fields : List (Field σ)) (isFirst : Bool) (r : σ)
    (blank : IsBlank after) : (inOrder fields isFirst r >>= fun r => blanks >>= fun _ =>
      symbol ']' >>= fun _ => pure r).run (after ++ ']' :: rest) = (.ok r, rest) := by
  cases fields with
  | nil => exact run_end r blank
  | cons field fields =>
    have stopped : (inOrder (field :: fields) isFirst r).run (after ++ ']' :: rest) =
        (.ok r, ']' :: rest) := by
      rw [inOrder, run_bind_of_ok (run_hasNext_end isFirst blank), if_neg Bool.false_ne_true,
        run_pure]
    rw [run_bind_of_ok stopped]
    exact (run_end r isBlank_nil :)

theorem run_inOrder_bind {α : Type} {isFirst : Bool} {f : σ → Reader α}
    (goesOn : (hasNext isFirst).run s = (.ok true, rest)) :
    (inOrder (field :: fields) isFirst r >>= f).run s =
      (field.update >>= fun u => inOrder fields false (u r) >>= f).run rest := by
  rw [inOrder, bind_assoc, run_bind_of_ok goesOn, if_pos rfl, bind_assoc]

theorem run_afterItem_comma (follows : Follows field slot) (blank : IsBlank after)
    (starts : Starts s) :
    (afterItem (field :: fields) r).run (after ++ ',' :: s) = (fromItem field fields r).run s := by
  rw [afterItem, run_inOrder_bind (run_hasNext_comma blank starts),
    ← ignoresBlanks_fromItem follows]
  rfl

theorem comesTo_item {d : Datum} (follows : Follows field slot) (item : Writes (.item d) cs)
    (more : Continues rest) {g : (σ → σ) → Except Failure σ} {last : List Char}
    (next : ∀ after, IsBlank after → ∀ u, slot.update d = .ok u →
      ComesTo (afterItem fields (u r)) (after ++ rest) (g u) last) :
    ComesTo (fromItem field fields r) (cs ++ rest) (slot.update d >>= g) last := by
  cases item with
  | @item _ before cs after blank written blank' =>
    have settled := follows.settles d cs written _ (closes_blanks blank' more.closes)
    rw [List.append_assoc, List.append_assoc]
    refine ComesTo.congr ((ignoresBlanks_fromItem follows fields r).run_append blank _) ?_
    exact settled.bind fun u eq => next after blank' u eq

theorem comesTo_items {ds : List Datum} (follow : List.Forall₂ Follows (field :: fields) slots)
    (h : Writes (.items ds) cs) (r : σ) (rest : List Char) :
    ComesTo (fromItem field fields r) (cs ++ ']' :: rest) (ofItems slots r ds) rest := by
  induction ds generalizing field fields slots cs r with
  | nil => cases h
  | cons d ds ih =>
    obtain _ | ⟨follows, follow⟩ := follow
    next slot slots =>
    rw [ofItems]
    cases h with
    | lastItem item =>
      refine comesTo_item follows item (continues_bracket rest) fun after blank u _ => ?_
      rw [ofItems]
      exact run_inOrder_end fields false (u r) blank
    | @nextItem _ _ cs others item items =>
      have starts := (starts_of_writes items).append (']' :: rest)
      rw [List.append_assoc, List.cons_append]
      refine comesTo_item follows item (continues_comma _) fun after blank u _ => ?_
      cases follow with
      | nil =>
        cases ds with
        | nil => cases items
        | cons d' ds => exact .of_error (run_end_error (u r) blank rfl (by decide))
      | cons follows' follow =>
        exact (ih (.cons follows' follow) items (u r)).congr
          (run_afterItem_comma follows' blank starts)

theorem settles_list (follow : List.Forall₂ Follows fields slots) (start : σ) (ds : List Datum) :
    Settles (record convert fields start) (.list ds) (ofItems slots start ds) := by
  intro cs written rest closes
  have opened (s : List Char) : (record convert fields start).run ('[' :: s) =
      (inOrder fields true start >>= fun r => blanks >>= fun _ => symbol ']' >>= fun _ =>
        pure r).run s := by
    rw [record, run_ahead_bind rfl]
    rfl
  cases written with
  | emptyList blank =>
    rw [List.cons_append, List.append_assoc, List.singleton_append, ofItems]
    exact (opened _).trans (run_inOrder_end fields true start blank)
  | list items =>
    have starts := (starts_of_writes items).append (']' :: rest)
    rw [List.cons_append, List.append_assoc, List.singleton_append]
    cases follow with
    | nil =>
      cases ds with
      | nil => cases items
      | cons d ds =>
        obtain ⟨blanks, c, more, text, blank, solid, bracket, -⟩ := starts
        rw [text]
        exact .of_error ((opened _).trans (run_end_error start blank solid bracket))
    | cons follows follow =>
      refine (comesTo_items (.cons follows follow) items start rest).congr ?_
      rw [opened, run_inOrder_bind (run_hasNext_first starts)]
      exact ignoresBlanks_fromItem follows _ _ _

theorem ignoresBlanks_record (fields : List (Field σ)) (start : σ) :
    IgnoresBlanks (record convert fields start) :=
  ignoresBlanks_ahead.bind _

theorem settles_record (follow : List.Forall₂ Follows fields slots) (start : σ) (d : Datum) :
    Settles (record convert fields start) d (d.record convert slots start) := by
  have other (no_object : ∀ ms, d ≠ .object ms) (no_list : ∀ ds, d ≠ .list ds) :
      Settles (record convert fields start) d (d.otherType convert) := by
    refine (settles_otherType d).of_begins fun c s begins => ?_
    rw [record, run_ahead_bind begins.solid.1]
    split
    case h_1 same =>
      obtain rfl := Option.some.inj same
      obtain ⟨ms, rfl⟩ := begins.of_brace
      exact absurd rfl (no_object ms)
    case h_2 same =>
      obtain rfl := Option.some.inj same
      obtain ⟨ds, rfl⟩ := begins.of_bracket
      exact absurd rfl (no_list ds)
    case h_3 => rfl
  cases d with
  | object ms => exact settles_object follow start ms
  | list ds => exact settles_list follow start ds
  | _ => exact other (by simp) (by simp)

end Reader

/-- Of whatever it reads, the reader gives only values of which `P` holds. -/
def Gives {α : Type} (P : α → Prop) (read : Reader α) : Prop :=
  ∀ s, Ends read s (fun a _ => P a) fun _ => True

section Gives

variable {α β : Type} {P : α → Prop} {Q : β → Prop}

theorem Gives.pure {a : α} (h : P a) : Gives P (pure a : Reader α) := fun _ => h

theorem Gives.any (read : Reader α) : Gives (fun _ => True) read :=
  fun _ => .of_forall (fun _ _ => trivial) fun _ => trivial

theorem Gives.fail (f : Failure) : Gives P (Scan.fail f) := fun _ => trivial

theorem Gives.bind {x : Reader α} {f : α → Reader β} (first : Gives P x)
    (next : ∀ a, P a → Gives Q (f a)) : Gives Q (x >>= f) :=
  fun s => ends_bind.mpr (Ends.imp (first s) fun a rest h => next a h rest)

theorem Gives.map {x : Reader α} {f : α → β} (h : Gives P x) (sends : ∀ a, P a → Q (f a)) :
    Gives Q (do return f (← x)) :=
  .bind h fun a ha => .pure (sends a ha)

theorem Gives.seq {x : Reader α} {f : α → Reader β} (next : ∀ a, Gives Q (f a)) :
    Gives Q (x >>= f) :=
  .bind (.any x) fun a _ => next a

theorem Gives.ite {c : Prop} [Decidable c] {x y : Reader α} (yes : c → Gives P x)
    (no : ¬ c → Gives P y) : Gives P (if c then x else y) := by
  split_ifs with h
  · exact yes h
  · exact no h

theorem Gives.of_read {read : Reader α} {text : String} {a : α} (gives : Gives P read)
    (h : Json.read read text = .ok a) : P a := by
  have ends := gives text.toList
  unfold Ends at ends
  cases ran : read.run text.toList with
  | mk result rest =>
    rw [ran] at ends
    cases result with
    | error f => simp [read_of_run_error ran] at h
    | ok b =>
      rw [Json.read, run_bind_of_ok ran, run_bind_of_ok rfl, run_bind_of_ok rfl] at h
      split_ifs at h
      · obtain rfl : b = a := Except.ok.inj h
        exact ends
      · cases h

end Gives

namespace Reader

variable {σ : Type} {P : σ → Prop} {fields : List (Field σ)} {convert : Conversion}

theorem gives_otherType {α : Type} {P : α → Prop} : Gives P (otherType convert : Reader α) := by
  refine .seq fun c => ?_
  dsimp only
  split
  case h_8 => exact .ite (fun _ => .seq fun _ => .fail _) fun _ => .seq fun _ => .fail _
  all_goals first | exact .fail _ | exact .seq fun _ => .fail _

theorem gives_nullable {α : Type} {P : α → Prop} {read : Reader α} (h : Gives P read) :
    Gives (fun x => ∀ a ∈ x, P a) (nullable read) :=
  .seq fun _ => .ite (fun _ => .seq fun _ => .pure (by simp))
    fun _ => .bind h fun a ha => .pure (by simpa using ha)

theorem gives_member (keeps : ∀ field ∈ fields, Gives (fun u => ∀ r, P r → P (u r)) field.update)
    (d : Draft σ) (h : P d.record) : Gives (fun d => P d.record) (member fields d) := by
  refine .seq fun _ => .seq fun name => ?_
  dsimp only
  cases found : fields.find? (·.name == String.ofList name) with
  | none => exact .seq fun _ => .seq fun _ => .pure h
  | some field =>
    refine .ite (fun _ => .fail _) fun _ => .seq fun _ => ?_
    exact .bind (keeps field (List.mem_of_find?_eq_some found)) fun u hu => .pure (hu _ h)

theorem gives_enclosed {α : Type} {I : α → Prop} {close : Char} {item : α → Reader α} {a : α}
    (start : I a) (step : ∀ b, I b → Gives I (item b)) : Gives I (enclosed close item a) := by
  have item' : ∀ b, I b → Gives I (thenBlanks (item b)) := fun b hb =>
    .bind (step b hb) fun b' hb' => .seq fun _ => .pure hb'
  refine .seq fun c => ?_
  cases c with
  | none => exact .fail _
  | some c =>
    refine .ite (fun _ => .seq fun _ => .pure start) fun _ => .bind (item' a start) fun b hb => ?_
    refine .bind (P := I) (fun s => ends_chain hb ?_) fun b' hb' => .seq fun _ => .pure hb'
    intro b' c' rest link hb' joined
    split_ifs at joined
    obtain rfl := Option.some.inj joined
    exact item' b' hb' rest

theorem gives_inOrder (keeps : ∀ field ∈ fields, Gives (fun u => ∀ r, P r → P (u r)) field.update)
    (isFirst : Bool) {r : σ} (h : P r) : Gives P (inOrder fields isFirst r) := by
  induction fields generalizing isFirst r with
  | nil => exact .pure h
  | cons field more ih =>
    refine .seq fun goesOn => .ite (fun _ => ?_) fun _ => .pure h
    refine .bind (keeps field List.mem_cons_self) fun u hu => ?_
    exact ih (fun other ho => keeps other (List.mem_cons_of_mem field ho)) false (hu r h)

theorem gives_record {start : σ} (h : P start)
    (keeps : ∀ field ∈ fields, Gives (fun u => ∀ r, P r → P (u r)) field.update) :
    Gives P (record convert fields start) := by
  refine .seq fun c => ?_
  split
  · have object : Gives (fun d : Draft σ => P d.record)
        (enclosed '\x7d' (member fields) ⟨[], start⟩) :=
      gives_enclosed h fun d hd => gives_member keeps d hd
    exact .seq fun _ => .bind object fun d hd => .pure hd
  · exact .seq fun _ => .bind (gives_inOrder keeps true h) fun r hr =>
      .seq fun _ => .seq fun _ => .pure hr
  · exact gives_otherType

end Reader

end Abacus.Json
