import Mathlib
import Abacus.Json.Forms
import Abacus.Proofs.Json.Grammar

/-!
What the data of JSON mean. Where a value of some type is asked for, a datum has one, or there is one
reason why not; a record is made of the members of an object, or of the items of a list. In these
terms the forms are said. A codec obeys a form if it reads every text as what the datum of that text
means, if no double that it reads is infinite, and if it writes the data of the form; how it does so
is left open.
-/

namespace Abacus

namespace Json

variable {α σ : Type}

def orFail (f : Failure) : Option α → Except Failure α
  | some a => .ok a
  | none => .error f

section

variable {β : Type} {x : Except Failure α}

theorem bind_eq_ok {f : α → Except Failure β} {b : β} (h : x >>= f = .ok b) :
    ∃ a, x = .ok a ∧ f a = .ok b := by
  cases x with
  | error e => cases h
  | ok a => exact ⟨a, rfl, h⟩

theorem map_eq_ok {f : α → β} {b : β} (h : x.map f = .ok b) : ∃ a, x = .ok a ∧ f a = b := by
  cases x with
  | error e => cases h
  | ok a => exact ⟨a, rfl, Except.ok.inj h⟩

end

def Literal.content (l : Literal) : Except Failure String :=
  (orFail .malformed (Piece.chars? l.pieces)).map String.ofList

theorem Literal.content_eq_ok_iff {l : Literal} {text : String} :
    l.content = .ok text ↔ l.Names text := by
  rw [content, Names]
  cases Piece.chars? l.pieces with
  | none => simp [orFail, Except.map]
  | some cs =>
    rw [orFail, Except.map, Except.ok.injEq, Option.some.injEq, ← String.toList_inj,
      String.toList_ofList]

theorem Literal.names_unique {l : Literal} {name other : String} (h : l.Names name)
    (h' : l.Names other) : name = other :=
  String.toList_inj.mp (Option.some.inj (h.symm.trans h'))

theorem Literal.content_bind (l : Literal) (g : String → Except Failure α) :
    l.content >>= g =
      orFail .malformed (Piece.chars? l.pieces) >>= fun cs => g (String.ofList cs) := by
  rw [content]
  cases Piece.chars? l.pieces <;> rfl

def Figure.numeral (f : Figure) : Reader.Numeral :=
  ⟨f.isNegative, f.parts.whole, f.parts.fraction, f.parts.power⟩

def Figure.double (convert : Reader.Conversion) (f : Figure) : Except Failure Float :=
  orFail .malformed (convert.toFloat? f.numeral)

/-- A number whose nearest double is finite becomes that double. -/
def Reader.Conversion.RoundsToNearest (convert : Reader.Conversion) : Prop :=
  ∀ f : Figure, Decimal.isFinite f.value = true → convert.toFloat? f.numeral = some f.value

namespace Datum

variable (convert : Reader.Conversion)

/-- A string and a number are read before it is seen that they are of another type than asked for. -/
def otherType : Datum → Except Failure α
  | string l => do
    let _ ← l.content
    .error .mismatch
  | number f => do
    let _ ← f.double convert
    .error .mismatch
  | null | boolean _ | list _ | object _ => .error .mismatch

def text : Datum → Except Failure String
  | string l => l.content
  | d => d.otherType convert

def double : Datum → Except Failure Float
  | number f => f.double convert
  | d => d.otherType convert

def nothing : Datum → Except Failure Unit
  | null => .ok ()
  | d => d.otherType convert

def optional (read : Datum → Except Failure α) : Datum → Except Failure (Option α)
  | null => .ok none
  | d => (read d).map some

def IsString (text : String) (d : Datum) : Prop :=
  ∃ l : Literal, d = .string l ∧ l.Names text

/-- A number with this double as its value, or null for a double that is not finite. -/
def IsNumber (x : Float) (d : Datum) : Prop :=
  if Decimal.isFinite x = true then ∃ f : Figure, d = .number f ∧ f.value = x else d = .null

def IsOptional (is : α → Datum → Prop) : Option α → Datum → Prop
  | none, d => d = .null
  | some a, d => is a d

def IsList (items : List (Datum → Prop)) (d : Datum) : Prop :=
  ∃ ds, d = .list ds ∧ List.Forall₂ (fun item d => item d) items ds

def IsObject (fields : List (String × (Datum → Prop))) (d : Datum) : Prop :=
  ∃ ms, d = .object ms ∧
    List.Forall₂ (fun field (m : Member) => m.1.Names field.1 ∧ field.2 m.2) fields ms

end Datum

/-- A named part of a record of type `σ`, and what a datum for it does to the record. -/
structure Slot (σ : Type) where
  name : String
  update : Datum → Except Failure (σ → σ)

/-- Members of other names do nothing, and a name that comes twice is an error. -/
def enter (slots : List (Slot σ)) (d : Reader.Draft σ) (m : Member) :
    Except Failure (Reader.Draft σ) := do
  let name ← m.1.content
  match slots.find? (·.name == name) with
  | none => return d
  | some slot =>
    if name ∈ d.met then
      .error .mismatch
    else
      let update ← slot.update m.2
      return ⟨name :: d.met, update d.record⟩

section Enter

variable {slots : List (Slot σ)} {slot : Slot σ} {d d' : Reader.Draft σ} {m : Member}
  {name : String}

theorem find?_of_mem (distinct : (slots.map (·.name)).Nodup) (mem : slot ∈ slots) :
    slots.find? (·.name == slot.name) = some slot := by
  induction slots with
  | nil => cases mem
  | cons first more ih =>
    rw [List.map_cons, List.nodup_cons] at distinct
    rcases List.mem_cons.mp mem with here | further
    · rw [here, List.find?_cons_of_pos (by simp)]
    · have other : first.name ≠ slot.name := fun same =>
        distinct.1 (same ▸ List.mem_map_of_mem further)
      rw [List.find?_cons_of_neg (by simpa using other)]
      exact ih distinct.2 further

theorem enter_of_unknown (named : m.1.Names name) (unknown : ∀ slot ∈ slots, slot.name ≠ name) :
    enter slots d m = .ok d := by
  have found : slots.find? (·.name == name) = none := by simpa using unknown
  rw [enter, Literal.content_eq_ok_iff.mpr named]
  dsimp only [bind, Except.bind]
  rw [found]
  rfl

theorem enter_of_mem (distinct : (slots.map (·.name)).Nodup) (mem : slot ∈ slots)
    (named : m.1.Names slot.name) : enter slots d m =
      if slot.name ∈ d.met then .error .mismatch
      else (slot.update m.2).map fun u => ⟨slot.name :: d.met, u d.record⟩ := by
  rw [enter, Literal.content_eq_ok_iff.mpr named]
  dsimp only [bind, Except.bind]
  rw [find?_of_mem distinct mem]
  dsimp only
  cases slot.update m.2 <;> rfl

theorem enter_eq_ok_iff (distinct : (slots.map (·.name)).Nodup) : enter slots d m = .ok d' ↔
    ∃ name, m.1.Names name ∧ ((∀ slot ∈ slots, slot.name ≠ name) ∧ d' = d ∨
      ∃ slot ∈ slots, slot.name = name ∧ name ∉ d.met ∧
        ∃ u, slot.update m.2 = .ok u ∧ d' = ⟨name :: d.met, u d.record⟩) := by
  constructor
  · intro entered
    obtain ⟨name, content, -⟩ := bind_eq_ok entered
    have named := Literal.content_eq_ok_iff.mp content
    refine ⟨name, named, ?_⟩
    by_cases known : ∃ slot ∈ slots, slot.name = name
    · obtain ⟨slot, mem, rfl⟩ := known
      rw [enter_of_mem distinct mem named] at entered
      split_ifs at entered with met
      obtain ⟨u, updates, rfl⟩ := map_eq_ok entered
      exact .inr ⟨slot, mem, rfl, met, u, updates, rfl⟩
    · have unknown : ∀ slot ∈ slots, slot.name ≠ name := fun slot mem same =>
        known ⟨slot, mem, same⟩
      rw [enter_of_unknown named unknown] at entered
      exact .inl ⟨unknown, (Except.ok.inj entered).symm⟩
  · rintro ⟨name, named, ⟨unknown, rfl⟩ | ⟨slot, mem, rfl, new, u, updates, rfl⟩⟩
    · exact enter_of_unknown named unknown
    · rw [enter_of_mem distinct mem named, if_neg new, updates]
      rfl

end Enter

def ofMembers (slots : List (Slot σ)) (start : σ) (ms : List Member) : Except Failure σ := do
  return (← ms.foldlM (enter slots) ⟨[], start⟩).record

def ofItems : List (Slot σ) → σ → List Datum → Except Failure σ
  | _, record, [] => .ok record
  | [], _, _ :: _ => .error .malformed
  | slot :: slots, record, d :: ds => do
    let update ← slot.update d
    ofItems slots (update record) ds

def Datum.record (convert : Reader.Conversion) (slots : List (Slot σ)) (start : σ) :
    Datum → Except Failure σ
  | object ms => ofMembers slots start ms
  | list ds => ofItems slots start ds
  | d => d.otherType convert

/-- What a datum means, which data a value is written as, and which values are finite. -/
structure Form (α : Type) where
  meaning : Datum → Except Failure α
  IsDatum : α → Datum → Prop
  IsFinite : α → Prop

/-- Every text of the grammar is decoded as what its datum means. -/
def DecodesAs (meaning : Datum → Except Failure α) (decode : String → Except Failure α) : Prop :=
  ∀ d text, IsText d text → decode text = meaning d

structure Codec.Obeys (codec : Codec α) (form : Form α) : Prop where
  decodes : DecodesAs form.meaning codec.decode
  finite : ∀ text a, codec.decode text = .ok a → form.IsFinite a
  encodes : ∀ a, ∃ d, form.IsDatum a d ∧ IsText d (codec.encode a)

end Json

open Json

namespace Operation

def ofLiteral (l : Literal) : Except Failure Operation := do
  let name ← l.content
  orFail .mismatch (ofName? name)

def ofDatum (convert : Reader.Conversion) : Datum → Except Failure Operation
  | .string l => ofLiteral l
  | .object ((l, d) :: more) => do
    let op ← ofLiteral l
    d.nothing convert
    if more.isEmpty then return op else .error .malformed
  | _ => .error .malformed

def form (convert : Reader.Conversion) : Form Operation where
  meaning := ofDatum convert
  IsDatum op := Datum.IsString op.name
  IsFinite _ := True

end Operation

namespace Request

inductive Known where
  | expression | operandA | operandB | operator
deriving DecidableEq

namespace Known

def name : Known → String
  | expression => "expression"
  | operandA => "operand_a"
  | operandB => "operand_b"
  | operator => "operator"

def all : List Known := [expression, operandA, operandB, operator]

variable (convert : Reader.Conversion)

def update : Known → Datum → Except Failure (Request → Request)
  | expression, d => (d.optional (Datum.text convert)).map fun text r => { r with expression := text }
  | operandA, d => (d.optional (Datum.double convert)).map fun x r => { r with operandA := x }
  | operandB, d => (d.optional (Datum.double convert)).map fun x r => { r with operandB := x }
  | operator, d => (d.optional (Datum.text convert)).map fun name r => { r with operator := name }

/-- The datum shows the value that the field has in the request. -/
def Shows : Known → Datum → Request → Prop
  | expression, d, r => d.optional (Datum.text convert) = .ok r.expression
  | operandA, d, r => d.optional (Datum.double convert) = .ok r.operandA
  | operandB, d, r => d.optional (Datum.double convert) = .ok r.operandB
  | operator, d, r => d.optional (Datum.text convert) = .ok r.operator

def slot (k : Known) : Slot Request :=
  ⟨k.name, k.update convert⟩

end Known

structure Finite (r : Request) : Prop where
  operandA : ∀ x ∈ r.operandA, Decimal.isFinite x = true
  operandB : ∀ x ∈ r.operandB, Decimal.isFinite x = true

def IsDatum (r : Request) : Datum → Prop :=
  Datum.IsObject
    [("expression", Datum.IsOptional Datum.IsString r.expression),
     ("operand_a", Datum.IsOptional Datum.IsNumber r.operandA),
     ("operand_b", Datum.IsOptional Datum.IsNumber r.operandB),
     ("operator", Datum.IsOptional Datum.IsString r.operator)]

def slots (convert : Reader.Conversion) : List (Slot Request) :=
  Known.all.map (Known.slot convert)

def form (convert : Reader.Conversion) : Form Request where
  meaning := Datum.record convert (slots convert) empty
  IsDatum := IsDatum
  IsFinite := Finite

end Request

namespace Calculation

structure Finite (c : Calculation) : Prop where
  result : Decimal.isFinite c.result = true
  operandA : ∀ x ∈ c.operandA, Decimal.isFinite x = true
  operandB : ∀ x ∈ c.operandB, Decimal.isFinite x = true

def IsDatum (c : Calculation) : Datum → Prop :=
  Datum.IsObject
    [("expression", Datum.IsString c.expression), ("result", Datum.IsNumber c.result),
     ("operator", Datum.IsOptional (fun op => Datum.IsString op.name) c.operator),
     ("operand_a", Datum.IsOptional Datum.IsNumber c.operandA),
     ("operand_b", Datum.IsOptional Datum.IsNumber c.operandB)]

variable (convert : Reader.Conversion)

def slots : List (Slot Unfinished) :=
  [⟨"expression", fun d => (d.text convert).map fun text c => { c with expression := some text }⟩,
   ⟨"result", fun d => (d.double convert).map fun x c => { c with result := some x }⟩,
   ⟨"operator", fun d => (d.optional (Operation.ofDatum convert)).map fun op c =>
      { c with operator := some op }⟩,
   ⟨"operand_a", fun d => (d.optional (Datum.double convert)).map fun x c =>
      { c with operandA := some x }⟩,
   ⟨"operand_b", fun d => (d.optional (Datum.double convert)).map fun x c =>
      { c with operandB := some x }⟩]

def isList : Datum → Bool
  | .list _ => true
  | _ => false

def ofDatum (d : Datum) : Except Failure Calculation := do
  let c ← d.record convert (slots convert) Unfinished.empty
  orFail .mismatch (c.complete? (isList d))

def form : Form Calculation where
  meaning := ofDatum convert
  IsDatum := IsDatum
  IsFinite := Finite

end Calculation

end Abacus
