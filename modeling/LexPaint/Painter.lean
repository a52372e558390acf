import LexPaint.Pass.Run
/-!
# Painters

A painter keeps what lexing has found in one document. After an edit it repaints the edited section
only. It looks whether that was enough: no count changed that is checked along the way, and what
was mapped outside the section is what the last pass had mapped there, moved through the edit. If
it was not enough, one full pass repairs the document.

## Main definitions

* `PassKind`: how a request was served.
* `Painter`: the layouts of the last pass.
* `Painter.full`: a full pass.
* `Painter.edit`: a local pass, with a full pass after it if needed.
-/

namespace LexPaint

/-- How a request was finally served. -/
inductive PassKind where
  /-- The whole document was lexed and painted. -/
  | full
  /-- Only the edited section was repainted. -/
  | linesOnly
  /-- A local pass was not enough and a full one followed. -/
  | repair
deriving DecidableEq, Repr, Inhabited

/-- What lexing has found in one document. -/
@[ext]
structure Painter where
  /-- What was mapped in the document. -/
  layout : Layout
  /-- What was mapped inside embedded sections. -/
  nested : IntervalSet
  /-- Why the most recent repair happened. -/
  lastRepair : Option RepairReason
deriving DecidableEq, Inhabited

namespace Painter

/-- A painter that has not seen a document. -/
def new : Painter :=
  ⟨.empty, .empty, none⟩

/-- Forgets the last pass. -/
def clearHistory (p : Painter) : Painter :=
  ⟨p.layout.clearHistory, p.nested.clearHistory, none⟩

/-- Keeps what a pass has mapped as the history of the next one. -/
def commit (p : Painter) (pass : Pass) : Painter :=
  { p with layout := pass.layout.commit, nested := pass.nested.commit }

/-- Lexes and paints the whole document. -/
def full (p : Painter) (profile : Profile) (doc : Buffer) : Checked (Painter × Buffer) := do
  let pass ← profile.runPass doc 0 doc.size false p.layout p.nested
  return (p.commit pass, pass.canvas)

/-- Why a local pass was not enough, if it was not. -/
def escalation (pass : Pass) (w : EditWindow) : Checked (Option RepairReason) := do
  match pass.repair with
  | some reason => return some reason
  | none =>
    match ← pass.layout.layoutChange w with
    | some reason => return some reason
    | none => return if ← pass.nested.layoutChange w then some .embeddedContent else none

/-- Repaints a section after an edit, and the whole document if the edit changed anything outside
the section. A section that is the whole document gets a full pass. -/
def edit (p : Painter) (profile : Profile) (doc : Buffer) (s : Section) (w : EditWindow) :
    Checked (PassKind × Painter × Buffer) := do
  if s.isWhole doc.text then
    let (p, doc) ← p.full profile doc
    return (.full, p, doc)
  let pass ← profile.runPass doc s.start s.length true p.layout p.nested
  match ← escalation pass w with
  | none => return (.linesOnly, p.commit pass, pass.canvas)
  | some reason =>
    let (p, doc) ←
      -- the full pass maps everything anew; of the local one only the reason is kept
      ({ layout := pass.layout, nested := pass.nested, lastRepair := some reason } : Painter).full
        profile pass.canvas
    return (.repair, p, doc)

end Painter

end LexPaint
