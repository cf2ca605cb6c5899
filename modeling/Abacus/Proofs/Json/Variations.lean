import Mathlib
import Abacus.Proofs.Json.Forms

/-!
What a decoded request depends on. The members of an object carry a value for each field, null for
one that none of them names, and the request is what these values show; so nothing changes when the
order of the members does, when others come or go, and when a field that is null is left out or
added. The values in the order of the fields do as well. A field that comes twice is an error. This
holds of every decoder that reads texts as what their data mean, whichever doubles the numbers
become.
-/

namespace Abacus.Request

open Json

variable {convert : Reader.Conversion} {ms ms' : List Member} {m m' : Member} {k k' : Known}
  {r r' : Request} {d : Datum} {u : Request → Request}

namespace Known

theorem name_injective (same : k.name = k'.name) : k = k' := by
  cases k <;> cases k' <;> simp_all [name]

theorem mem_all (k : Known) : k ∈ all := by
  cases k <;> decide

theorem shows_update (updates : k.update convert d = .ok u) (r : Request) :
    k.Shows convert d (u r) := by
  cases k
  all_goals
    obtain ⟨value, read, rfl⟩ := map_eq_ok updates
    exact read

theorem shows_update_other (updates : k.update convert d = .ok u) (other : k' ≠ k) {d' : Datum}
    (shows' : k'.Shows convert d' r) : k'.Shows convert d' (u r) := by
  cases k
  all_goals
    obtain ⟨value, -, rfl⟩ := map_eq_ok updates
    cases k'
    all_goals first | exact shows' | exact absurd rfl other

theorem exists_update (shown : k.Shows convert d r) : ∃ u, k.update convert d = .ok u := by
  cases k
  all_goals exact ⟨_, congrArg (Except.map _) shown⟩

theorem shows_null_empty (k : Known) : k.Shows convert .null Request.empty := by
  cases k <;> rfl

theorem eq_of_shows (same : ∀ k : Known, ∃ d, k.Shows convert d r ∧ k.Shows convert d r') :
    r = r' := by
  have part {α : Type} {a b : α} {x : Except Failure α} (h : x = .ok a ∧ x = .ok b) : a = b :=
    Except.ok.inj (h.1.symm.trans h.2)
  obtain ⟨_, expression⟩ := same .expression
  obtain ⟨_, operandA⟩ := same .operandA
  obtain ⟨_, operandB⟩ := same .operandB
  obtain ⟨_, operator⟩ := same .operator
  cases r
  cases r'
  rw [Request.mk.injEq]
  exact ⟨part expression, part operandA, part operandB, part operator⟩

end Known

theorem forall_mem_slots {P : Slot Request → Prop} :
    (∀ slot ∈ slots convert, P slot) ↔ ∀ k : Known, P (k.slot convert) := by
  rw [slots, List.forall_mem_map]
  exact ⟨fun h k => h k k.mem_all, fun h k _ => h k⟩

theorem exists_mem_slots {P : Slot Request → Prop} :
    (∃ slot ∈ slots convert, P slot) ↔ ∃ k : Known, P (k.slot convert) := by
  simp [slots, Known.mem_all]

theorem enter_slots_eq_ok_iff {d d' : Reader.Draft Request} : enter (slots convert) d m = .ok d' ↔
    ∃ name, m.1.Names name ∧ ((∀ k : Known, k.name ≠ name) ∧ d' = d ∨
      ∃ k : Known, k.name = name ∧ name ∉ d.met ∧
        ∃ u, k.update convert m.2 = .ok u ∧ d' = ⟨name :: d.met, u d.record⟩) := by
  rw [enter_eq_ok_iff distinct_slots]
  simp only [forall_mem_slots, exists_mem_slots]
  rfl

/-- No field is named by both. -/
def Apart (m m' : Member) : Prop :=
  ∀ k : Known, m.1.Names k.name → ¬ m'.1.Names k.name

theorem Apart.symm (h : Apart m m') : Apart m' m :=
  fun k named' named => h k named named'

structure Filled (convert : Reader.Conversion) (d : Reader.Draft Request) (ms : List Member)
    (d' : Reader.Draft Request) : Prop where
  named : ∀ m ∈ ms, ∃ name, m.1.Names name
  apart : ms.Pairwise Apart
  fresh : ∀ m ∈ ms, ∀ k : Known, m.1.Names k.name → k.name ∉ d.met
  shown : ∀ m ∈ ms, ∀ k : Known, m.1.Names k.name → k.Shows convert m.2 d'.record
  kept : ∀ k : Known, (∀ m ∈ ms, ¬ m.1.Names k.name) →
    ∀ v, k.Shows convert v d.record → k.Shows convert v d'.record

theorem Filled.of_foreign {d d' : Reader.Draft Request} (filled : Filled convert d ms d')
    (named : ∃ name, m.1.Names name) (foreign : ∀ k : Known, ¬ m.1.Names k.name) :
    Filled convert d (m :: ms) d' where
  named := List.forall_mem_cons.mpr ⟨named, filled.named⟩
  apart := List.pairwise_cons.mpr ⟨fun _ _ k same => absurd same (foreign k), filled.apart⟩
  fresh := List.forall_mem_cons.mpr ⟨fun k same => absurd same (foreign k), filled.fresh⟩
  shown := List.forall_mem_cons.mpr ⟨fun k same => absurd same (foreign k), filled.shown⟩
  kept k absent := filled.kept k fun m' there => absent m' (List.mem_cons_of_mem m there)

theorem Filled.of_known {d d' : Reader.Draft Request}
    (filled : Filled convert ⟨k.name :: d.met, u d.record⟩ ms d') (named : m.1.Names k.name)
    (new : k.name ∉ d.met) (updates : k.update convert m.2 = .ok u) :
    Filled convert d (m :: ms) d' := by
  have here {k' : Known} (same : m.1.Names k'.name) : k' = k :=
    Known.name_injective (Literal.names_unique same named)
  have elsewhere : ∀ m' ∈ ms, ¬ m'.1.Names k.name := fun m' there same =>
    filled.fresh m' there k same List.mem_cons_self
  constructor
  case named => exact List.forall_mem_cons.mpr ⟨⟨_, named⟩, filled.named⟩
  case apart =>
    refine List.pairwise_cons.mpr ⟨fun m' there k' same => ?_, filled.apart⟩
    exact here same ▸ elsewhere m' there
  case fresh =>
    refine List.forall_mem_cons.mpr ⟨fun k' same => here same ▸ new, fun m' there k' same met => ?_⟩
    exact filled.fresh m' there k' same (List.mem_cons_of_mem _ met)
  case shown =>
    refine List.forall_mem_cons.mpr ⟨fun k' same => ?_, filled.shown⟩
    rw [here same]
    exact filled.kept k elsewhere _ (Known.shows_update updates _)
  case kept =>
    intro k' absent v shown
    rw [List.forall_mem_cons] at absent
    have other : k' ≠ k := fun same => absent.1 (same ▸ named)
    exact filled.kept k' absent.2 v (Known.shows_update_other updates other shown)

theorem filled_of_foldlM {d d' : Reader.Draft Request}
    (h : ms.foldlM (enter (slots convert)) d = .ok d') : Filled convert d ms d' := by
  induction ms generalizing d with
  | nil =>
    obtain rfl := Except.ok.inj h
    exact ⟨by simp, .nil, by simp, by simp, fun _ _ _ shown => shown⟩
  | cons m ms ih =>
    rw [List.foldlM_cons] at h
    obtain ⟨d₁, entered, rest⟩ := bind_eq_ok h
    obtain ⟨name, named, ⟨unknown, rfl⟩ | ⟨k, rfl, new, u, updates, rfl⟩⟩ :=
      enter_slots_eq_ok_iff.mp entered
    · refine (ih rest).of_foreign ⟨name, named⟩ fun k same => ?_
      exact unknown k (Literal.names_unique same named)
    · exact (ih rest).of_known named new updates

theorem exists_foldlM {d : Reader.Draft Request} (named : ∀ m ∈ ms, ∃ name, m.1.Names name)
    (apart : ms.Pairwise Apart)
    (fresh : ∀ m ∈ ms, ∀ k : Known, m.1.Names k.name → k.name ∉ d.met)
    (readable : ∀ m ∈ ms, ∀ k : Known, m.1.Names k.name → ∃ u, k.update convert m.2 = .ok u) :
    ∃ d', ms.foldlM (enter (slots convert)) d = .ok d' := by
  induction ms generalizing d with
  | nil => exact ⟨d, rfl⟩
  | cons m ms ih =>
    rw [List.forall_mem_cons] at named fresh readable
    rw [List.pairwise_cons] at apart
    obtain ⟨⟨name, here⟩, named⟩ := named
    have step {d₁ : Reader.Draft Request} (entered : enter (slots convert) d m = .ok d₁)
        (fresh : ∀ m ∈ ms, ∀ k : Known, m.1.Names k.name → k.name ∉ d₁.met) :
        ∃ d', (m :: ms).foldlM (enter (slots convert)) d = .ok d' := by
      obtain ⟨d', rest⟩ := ih named apart.2 fresh readable.2
      refine ⟨d', ?_⟩
      rw [List.foldlM_cons, entered]
      exact rest
    by_cases known : ∃ k : Known, k.name = name
    · obtain ⟨k, rfl⟩ := known
      obtain ⟨u, updates⟩ := readable.1 k here
      have entered := enter_slots_eq_ok_iff.mpr
        ⟨k.name, here, .inr ⟨k, rfl, fresh.1 k here, u, updates, rfl⟩⟩
      refine step entered fun m' there k' same met => ?_
      obtain same_name | before := List.mem_cons.mp met
      · exact apart.1 m' there k here (same_name ▸ same)
      · exact fresh.2 m' there k' same before
    · have unknown : ∀ k : Known, k.name ≠ name := fun k same => known ⟨k, same⟩
      exact step (enter_slots_eq_ok_iff.mpr ⟨name, here, .inl ⟨unknown, rfl⟩⟩) fresh.2

/-- The value that the members have for the field; null if none of them names it. -/
inductive Carries (ms : List Member) (k : Known) : Datum → Prop
  | given {m : Member} : m ∈ ms → m.1.Names k.name → Carries ms k m.2
  | absent : (∀ m ∈ ms, ¬ m.1.Names k.name) → Carries ms k .null

theorem exists_carries (ms : List Member) (k : Known) : ∃ d, Carries ms k d := by
  by_cases given : ∃ m ∈ ms, m.1.Names k.name
  · obtain ⟨m, there, named⟩ := given
    exact ⟨m.2, .given there named⟩
  · exact ⟨.null, .absent fun m there named => given ⟨m, there, named⟩⟩

/-- All names are text, no field is named twice, and the values show the request. -/
structure Decodes (convert : Reader.Conversion) (ms : List Member) (r : Request) : Prop where
  named : ∀ m ∈ ms, ∃ name, m.1.Names name
  apart : ms.Pairwise Apart
  shown : ∀ k d, Carries ms k d → k.Shows convert d r

theorem Decodes.unique (h : Decodes convert ms r) (h' : Decodes convert ms r') : r = r' := by
  have same (k : Known) : ∃ d, k.Shows convert d r ∧ k.Shows convert d r' := by
    obtain ⟨d, carried⟩ := exists_carries ms k
    exact ⟨d, h.shown k d carried, h'.shown k d carried⟩
  exact Known.eq_of_shows same

theorem decodes_of_foldlM {d : Reader.Draft Request}
    (h : ms.foldlM (enter (slots convert)) ⟨[], empty⟩ = .ok d) : Decodes convert ms d.record := by
  have filled := filled_of_foldlM h
  refine ⟨filled.named, filled.apart, fun k v carried => ?_⟩
  cases carried with
  | given there named => exact filled.shown _ there k named
  | absent missing => exact filled.kept k missing .null k.shows_null_empty

theorem ofMembers_eq_ok_iff : ofMembers (slots convert) empty ms = .ok r ↔ Decodes convert ms r := by
  constructor
  · intro decoded
    obtain ⟨d, run, same⟩ := bind_eq_ok decoded
    obtain rfl := Except.ok.inj same
    exact decodes_of_foldlM run
  · intro decodes
    obtain ⟨d, run⟩ := exists_foldlM (d := ⟨[], empty⟩) decodes.named decodes.apart (by simp)
      fun m there k named => Known.exists_update (decodes.shown k _ (.given there named))
    rw [ofMembers, run, ← (decodes_of_foldlM run).unique decodes]
    rfl

def IsUnknown (m : Member) : Prop :=
  ∃ name, m.1.Names name ∧ ∀ k : Known, k.name ≠ name

/-- From one list of members to another: members in another order, members that name no field put
in or left out, and fields that are null left out, or added where they are missing. -/
inductive Variation : List Member → List Member → Prop
  | reordered {ms ms' : List Member} : ms.Perm ms' → Variation ms ms'
  | inserted {ms : List Member} {m : Member} : IsUnknown m → Variation ms (m :: ms)
  | removed {ms : List Member} {m : Member} : IsUnknown m → Variation (m :: ms) ms
  | omitted {ms : List Member} {m : Member} {k : Known} : m.1.Names k.name → m.2 = .null →
      Variation (m :: ms) ms
  | added {ms : List Member} {m : Member} {k : Known} : m.1.Names k.name → m.2 = .null →
      (∀ m' ∈ ms, ¬ m'.1.Names k.name) → Variation ms (m :: ms)
  | trans {ms ms' ms'' : List Member} : Variation ms ms' → Variation ms' ms'' → Variation ms ms''

theorem Decodes.of_perm (h : Decodes convert ms r) (perm : ms.Perm ms') : Decodes convert ms' r where
  named m there := h.named m (perm.mem_iff.mpr there)
  apart := (perm.pairwise_iff Apart.symm).mp h.apart
  shown k d carried := by
    cases carried with
    | given there named => exact h.shown k _ (.given (perm.mem_iff.mpr there) named)
    | absent missing => exact h.shown k _ (.absent fun m there => missing m (perm.mem_iff.mp there))

theorem IsUnknown.foreign (h : IsUnknown m) (k : Known) : ¬ m.1.Names k.name := by
  obtain ⟨name, named, unknown⟩ := h
  exact fun same => unknown k (Literal.names_unique same named)

theorem decodes_cons_iff (named : ∃ name, m.1.Names name)
    (apart : ∀ k : Known, m.1.Names k.name → m.2 = .null ∧ ∀ m' ∈ ms, ¬ m'.1.Names k.name) :
    Decodes convert (m :: ms) r ↔ Decodes convert ms r := by
  have same (k : Known) (d : Datum) : Carries (m :: ms) k d ↔ Carries ms k d := by
    constructor
    · intro carried
      cases carried with
      | given there here =>
        obtain rfl | there := List.mem_cons.mp there
        · rw [(apart k here).1]
          exact .absent (apart k here).2
        · exact .given there here
      | absent missing => exact .absent fun m' there => missing m' (List.mem_cons_of_mem m there)
    · intro carried
      cases carried with
      | given there here => exact .given (List.mem_cons_of_mem m there) here
      | absent missing =>
        by_cases here : m.1.Names k.name
        · exact (apart k here).1 ▸ .given List.mem_cons_self here
        · exact .absent (List.forall_mem_cons.mpr ⟨here, missing⟩)
  constructor
  · intro h
    refine ⟨(List.forall_mem_cons.mp h.named).2, (List.pairwise_cons.mp h.apart).2,
      fun k d carried => ?_⟩
    exact h.shown k d ((same k d).mpr carried)
  · intro h
    refine ⟨List.forall_mem_cons.mpr ⟨named, h.named⟩, ?_, fun k d carried => ?_⟩
    · exact List.pairwise_cons.mpr ⟨fun m' there k here => (apart k here).2 m' there, h.apart⟩
    · exact h.shown k d ((same k d).mp carried)

theorem Decodes.of_variation (h : Decodes convert ms r) (varied : Variation ms ms') :
    Decodes convert ms' r := by
  have null_only {ms : List Member} {m : Member} {k : Known} (named : m.1.Names k.name)
      (null : m.2 = .null) (missing : ∀ m' ∈ ms, ¬ m'.1.Names k.name) (k' : Known)
      (named' : m.1.Names k'.name) : m.2 = .null ∧ ∀ m' ∈ ms, ¬ m'.1.Names k'.name :=
    ⟨null, Literal.names_unique named named' ▸ missing⟩
  induction varied with
  | reordered perm => exact h.of_perm perm
  | inserted unknown =>
    obtain ⟨name, named, _⟩ := id unknown
    exact (decodes_cons_iff ⟨name, named⟩ fun k here => absurd here (unknown.foreign k)).mpr h
  | removed unknown =>
    obtain ⟨name, named, _⟩ := id unknown
    exact (decodes_cons_iff ⟨name, named⟩ fun k here => absurd here (unknown.foreign k)).mp h
  | @omitted _ _ k named null =>
    have missing := fun m' there => (List.pairwise_cons.mp h.apart).1 m' there k named
    exact (decodes_cons_iff ⟨_, named⟩ (null_only named null missing)).mp h
  | added named null missing =>
    exact (decodes_cons_iff ⟨_, named⟩ (null_only named null missing)).mpr h
  | trans _ _ first second => exact second (first h)

def restrict (ks : List Known) (r : Request) : Request where
  expression := if Known.expression ∈ ks then r.expression else none
  operandA := if Known.operandA ∈ ks then r.operandA else none
  operandB := if Known.operandB ∈ ks then r.operandB else none
  operator := if Known.operator ∈ ks then r.operator else none

theorem update_restrict (shown : k.Shows convert d r) (updates : k.update convert d = .ok u)
    (ks : List Known) : u (restrict ks r) = restrict (k :: ks) r := by
  cases k
  all_goals
    obtain ⟨value, read, rfl⟩ := map_eq_ok updates
    obtain rfl := Except.ok.inj (shown.symm.trans read)
    simp [restrict]

theorem ofItems_of_shows {given : List Known} {vs : List Datum}
    (shown : List.Forall₂ (fun k d => Known.Shows convert k d r) given vs)
    (more done : List Known) :
    ofItems ((given ++ more).map (Known.slot convert)) (restrict done r) vs =
      .ok (restrict (given.reverse ++ done) r) := by
  induction shown generalizing done with
  | nil =>
    rw [ofItems]
    rfl
  | @cons k v given vs here _ ih =>
    obtain ⟨u, updates⟩ := Known.exists_update here
    rw [List.cons_append, List.map_cons, ofItems, List.reverse_cons, List.append_assoc]
    change (k.update convert v >>= fun u => _) = _
    rw [updates]
    change ofItems _ (u (restrict done r)) vs = _
    rw [update_restrict here updates]
    exact ih (k :: done)

/-- Fields that are not in the list are absent anyway. -/
theorem restrict_eq {ks : List Known} (absent : ∀ k ∉ ks, k.Shows convert .null r) :
    restrict ks r = r := by
  have part {α : Type} {o : Option α} {k : Known}
      (none_shown : k ∉ ks → (.ok none : Except Failure (Option α)) = .ok o) :
      (if k ∈ ks then o else none) = o := by
    split_ifs with there
    · rfl
    · exact Except.ok.inj (none_shown there)
  obtain ⟨expression, operandA, operandB, operator⟩ := r
  rw [restrict, Request.mk.injEq]
  exact ⟨part (absent .expression), part (absent .operandA), part (absent .operandB),
    part (absent .operator)⟩

theorem ofItems_eq {vs : List Datum} {n : Nat}
    (values : List.Forall₂ (fun k d => Known.Shows convert k d r) Known.all
      (vs ++ List.replicate n .null)) : ofItems (slots convert) empty vs = .ok r := by
  have shown := List.forall₂_take_append _ _ _ values
  have missing := List.forall₂_drop_append _ _ _ values
  have absent : ∀ k ∉ (Known.all.take vs.length).reverse, k.Shows convert .null r := by
    intro k outside
    have known := k.mem_all
    rw [← List.take_append_drop vs.length Known.all, List.mem_append] at known
    have further := known.resolve_left fun inside => outside (List.mem_reverse.mpr inside)
    obtain ⟨i, bound, rfl⟩ := List.getElem_of_mem further
    have null := missing.get bound (missing.length_eq ▸ bound)
    rwa [List.get_eq_getElem, List.get_eq_getElem, List.getElem_replicate] at null
  have filled := ofItems_of_shows shown (Known.all.drop vs.length) []
  rwa [List.take_append_drop, List.append_nil, restrict_eq absent] at filled

/-- A request depends on nothing but its fields. An object that is decoded is decoded as the same
request after any change that leaves the values of its fields alone, and so is a list of these
values, or of others that show the same, in the order of the fields and without a tail that is null;
all blanks may change. An object that names a field twice is not decoded. -/
theorem decode_of_variation {decode : String → Except Failure Request}
    (decodes : DecodesAs (form convert).meaning decode) :
    (∀ ms text r, IsText (.object ms) text → decode text = .ok r →
      (∀ ms' text', Variation ms ms' → IsText (.object ms') text' → decode text' = .ok r) ∧
      ∀ vs n text',
        List.Forall₂ (fun k d => Carries ms k d ∨ k.Shows convert d r) Known.all
          (vs ++ List.replicate n .null) →
        IsText (.list vs) text' → decode text' = .ok r) ∧
    ∀ (k : Known) before m between m' after text, m.1.Names k.name → m'.1.Names k.name →
      IsText (.object (before ++ m :: (between ++ m' :: after))) text →
        ∃ f, decode text = .error f := by
  have object {ms : List Member} {text : String} {r : Request} (written : IsText (.object ms) text) :
      decode text = .ok r ↔ Decodes convert ms r := by
    rw [decodes _ text written]
    exact ofMembers_eq_ok_iff
  refine ⟨fun ms text r written decoded => ?_,
    fun k before m between m' after text first second written => ?_⟩
  · have shows_values := (object written).mp decoded
    refine ⟨fun ms' text' varied written' => ?_, fun vs n text' values written' => ?_⟩
    · exact (object written').mpr (shows_values.of_variation varied)
    · rw [decodes _ text' written']
      exact ofItems_eq (values.imp fun k d value => value.elim (shows_values.shown k d) id)
  · cases decoded : decode text with
    | error f => exact ⟨f, rfl⟩
    | ok r =>
      have apart := ((object written).mp decoded).apart
      have later := (List.pairwise_append.mp apart).2.1
      have apart' := (List.pairwise_cons.mp later).1 m' (by simp) k first
      exact absurd second apart'

/-- A member that is not known, with an escape in its name and a number that is too large, another
order, and two of the nulls left out. -/
theorem decode_of_variation_four_texts :
    (∃ ms ms', Variation ms ms' ∧
      IsText (.object ms) (toJson ⟨some "1", none, none, none⟩) ∧
      IsText (.object ms')
        "\x7b\"\\u0041\": [1e999],\"operator\":null,\"expression\":\"1\"\x7d") ∧
    ofJson? (toJson ⟨some "1", none, none, none⟩) = .ok ⟨some "1", none, none, none⟩ ∧
    ofJson? "\x7b\"\\u0041\": [1e999],\"operator\":null,\"expression\":\"1\"\x7d" =
      .ok ⟨some "1", none, none, none⟩ ∧
    ofJson? "[\"1\"]" = .ok ⟨some "1", none, none, none⟩ ∧
    ∃ f, ofJson? "\x7b\"expression\":\"1\",\"expression\":null\x7d" = .error f := by
  obtain ⟨one, prints_one, l, rfl, one_names⟩ := exists_prints_string "1"
  obtain ⟨expression, isExpression⟩ := exists_isMember "expression" prints_one
  obtain ⟨empty, isEmpty⟩ := exists_isMember "expression" prints_null
  obtain ⟨operandA, isOperandA⟩ := exists_isMember "operand_a" prints_null
  obtain ⟨operandB, isOperandB⟩ := exists_isMember "operand_b" prints_null
  obtain ⟨operator, isOperator⟩ := exists_isMember "operator" prints_null
  let tooLarge : Figure :=
    ⟨false, ['1'], [], some ⟨'e', none, ['9', '9', '9'], by simp, by simp, by simp, by simp⟩,
      by simp, by simp, by simp, by simp⟩
  let letter : Literal := ⟨[.unit ⟨⟨0, false⟩, ⟨0, false⟩, ⟨4, false⟩, ⟨1, false⟩⟩]⟩
  let other : Member := (letter, .list [.number tooLarge])
  have unknown : IsUnknown other := ⟨"A", rfl, fun k => by cases k <;> decide⟩
  have blank : IsBlank [' '] := by simp [IsBlank]
  have prints_other : Writes (.member other) "\"\\u0041\": [1e999]".toList :=
    .member isBlank_nil isBlank_nil
      (.item blank (.list (.lastItem (.item isBlank_nil (.number tooLarge) isBlank_nil)))
        isBlank_nil)
  have written := (prints_object (.cons isExpression (.cons isOperandA (.cons isOperandB
    (.cons isOperator .nil))))).isText
  have written' : IsText (.object [other, (operator, .null), (expression, .string l)])
      "\x7b\"\\u0041\": [1e999],\"operator\":null,\"expression\":\"1\"\x7d" := by
    have known := writes_members (.cons isOperator (.cons isExpression .nil)) (by simp)
    exact .item isBlank_nil (.object (.nextMember prints_other known)) isBlank_nil
  have listed : IsText (.list [.string l]) "[\"1\"]" := (prints_list (.cons prints_one .nil)).isText
  have doubled : IsText (.object [(expression, .string l), (empty, .null)])
      "\x7b\"expression\":\"1\",\"expression\":null\x7d" :=
    (prints_object (.cons isExpression (.cons isEmpty .nil))).isText
  have reordered : Variation
      [(expression, .string l), (operandA, .null), (operandB, .null), (operator, .null)]
      [(operandA, .null), (operandB, .null), (operator, .null), (expression, .string l)] :=
    .reordered (List.perm_append_singleton _ [_, _, _]).symm
  have omitted : Variation
      [(operandA, .null), (operandB, .null), (operator, .null), (expression, .string l)]
      [(operator, .null), (expression, .string l)] :=
    .trans (.omitted (k := .operandA) isOperandA.names rfl)
      (.omitted (k := .operandB) isOperandB.names rfl)
  have varied := (reordered.trans omitted).trans (.inserted unknown)
  have obeys := codec_obeys .nearest
  have decoded : ofJson? (toJson ⟨some "1", none, none, none⟩) = .ok ⟨some "1", none, none, none⟩ :=
    obeys.decode_encode fun d => meaning_eq Reader.roundsToNearest_nearest
  obtain ⟨same, twice⟩ := decode_of_variation obeys.decodes
  obtain ⟨object, list⟩ := same _ _ _ written decoded
  refine ⟨⟨_, _, varied, written, written'⟩, decoded, object _ _ varied written', ?_, ?_⟩
  · refine list [.string l] 3 _ (.cons (.inl ?_) ?_) listed
    · exact .given (m := (expression, .string l)) List.mem_cons_self isExpression.names
    · exact .cons (.inr rfl) (.cons (.inr rfl) (.cons (.inr rfl) .nil))
  · exact twice .expression [] _ [] _ [] _ isExpression.names isEmpty.names doubled

end Abacus.Request
