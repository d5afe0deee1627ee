import Planimetry.Event
import Planimetry.Figure.Protocol

/-! Protocols from lists of entries: every entry that fits is taken, every other one is reported. -/

namespace Planimetry

/-- The kind of a step by name, and the label for each role. -/
structure Request where
  kind : String
  payload : List (Label × Label)
  deriving DecidableEq, Repr

/-- A request under a label. -/
structure Entry where
  label : Label
  request : Request
  deriving DecidableEq, Repr

/-- A protocol built from entries, with the entries and the statement that it rejected. -/
structure Built where
  protocol : Protocol
  rejected : List Rejection
  statementRejected : Option Rejection
  deriving DecidableEq, Repr

namespace Protocol

/-- Takes one entry, or tells why it is rejected. -/
def take (p : Protocol) (e : Entry) : Except Rejection Protocol := do
  let s ← Step.make e.label e.request.kind e.request.payload
  (p.append s).mapError (rejection s)

/-- Takes a statement, or tells why it is rejected. -/
def state (p : Protocol) (r : Request) : Except Rejection Protocol := do
  let s ← Step.make "statement" r.kind r.payload
  (p.setStatement s).mapError (rejection s)

/-- Takes the entries in order; later entries may be rejected because an earlier one was. -/
def takeAll (p : Protocol) : List Entry → Protocol × List Rejection
  | [] => (p, [])
  | e :: es =>
    match p.take e with
    | .ok p' => takeAll p' es
    | .error r =>
      let (p', rs) := takeAll p es
      (p', r :: rs)

end Protocol

namespace Built

def ofEntries (entries : List Entry) (statement : Option Request) : Built :=
  let (p, rejected) := Protocol.takeAll {} entries
  match statement.map p.state with
  | none => ⟨p, rejected, none⟩
  | some (.ok p') => ⟨p', rejected, none⟩
  | some (.error r) => ⟨p, rejected, some r⟩

/-- All rejections, that of the statement last. -/
def diagnostics (b : Built) : List Rejection := b.rejected ++ b.statementRejected.toList

def report (b : Built) : List String := b.diagnostics.map Rejection.report

def events (b : Built) : List Event :=
  (b.rejected.map fun r => ⟨.warning, .validation,
    "Rejected step " ++ r.label ++ " (" ++ r.kind ++ "): " ++ r.message⟩) ++
  (b.statementRejected.toList.map fun r => ⟨.warning, .validation,
    "Rejected statement " ++ r.kind ++ ": " ++ r.message⟩)

end Built
end Planimetry
