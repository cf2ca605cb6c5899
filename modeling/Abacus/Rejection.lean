import Abacus.Fault

/-!
Why a request is turned down: messages by field, in the order of the fields' names, and one summary.
A fault of an evaluation is kept beside its message, so that it can be drawn.
-/

namespace Abacus

structure Complaint where
  field : String
  message : String
deriving DecidableEq, Repr

/-- The messages of each field; the fields in order and without repetition. -/
abbrev Ledger := List (String × List String)

namespace Ledger

def enter (c : Complaint) : Ledger → Ledger
  | [] => [(c.field, [c.message])]
  | (field, messages) :: rest =>
    if c.field = field then (field, messages ++ [c.message]) :: rest
    else if c.field < field then (c.field, [c.message]) :: (field, messages) :: rest
    else (field, messages) :: enter c rest

def ofComplaints (cs : List Complaint) : Ledger :=
  cs.foldl (fun ledger c => ledger.enter c) []

def entries (ledger : Ledger) : List Complaint :=
  ledger.flatMap fun (field, messages) => messages.map fun message => ⟨field, message⟩

end Ledger

structure Rejection where
  summary : String
  errors : Ledger
  fault : Option Fault
deriving DecidableEq, Repr

namespace Rejection

def summarize : List Complaint → String
  | [] => ""
  | [c] => c.message
  | [c, _] => c.message ++ " (and 1 more error)"
  | c :: more => c.message ++ " (and " ++ toString more.length ++ " more errors)"

def ofComplaints (cs : List Complaint) : Rejection where
  summary := summarize cs
  errors := .ofComplaints cs
  fault := none

def ofFault (f : Fault) : Rejection :=
  { ofComplaints [⟨"calculation", f.cause.message⟩] with fault := some f }

/-- The status a rejection has as an answer to a web request. -/
def status : Nat := 422

def isEmpty (r : Rejection) : Bool :=
  r.errors.isEmpty

end Rejection

end Abacus
